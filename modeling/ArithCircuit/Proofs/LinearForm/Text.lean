import ArithCircuit.Proofs.LinearForm

/-!
The text of a form tells the form. Blanks have no meaning in it, plus signs stand only between terms, and a letter only
before the number of a wire, so a text can be taken apart again: at the plus signs into terms, and each term at the
letter into coefficient and wire. A form without terms is written like the constant zero, which no canonical form has.
-/
namespace ArithCircuit
variable {F : ScalarField}

/-! ### Numerals -/

theorem toList_decimal (n : Nat) : (decimal n).toList = Nat.toDigits 10 n := by
  rw [decimal, digitsOnto_eq, List.append_nil, String.toList_ofList]

theorem Wire.toList_name (w : Wire) : w.name.toList = 'w' :: Nat.toDigits 10 w := by
  change ("w" ++ Nat.repr w).toList = _
  rw [String.toList_append, Nat.toList_repr]
  rfl

/-- A sign is not part of a numeral. -/
theorem not_mem_toDigits {c : Char} (sign : c.isDigit = false) (n : Nat) : c ∉ Nat.toDigits 10 n := by
  intro member
  rw [Nat.isDigit_of_mem_toDigits (by decide) (by decide) member] at sign
  cases sign

/-! ### Terms -/

namespace Term

/-- What stands before a wire, which is nothing for a coefficient of one. -/
def factor (coef : Scalar F) : List Char := if coef = 1 then [] else Nat.toDigits 10 coef.val ++ ['*']

/-- The coefficient that stands before a wire. -/
def ofFactor (s : List Char) : Scalar F := if s = [] then 1 else .ofNat (Nat.ofDigitChars 10 s.dropLast 0)

theorem ofFactor_factor (coef : Scalar F) : ofFactor (factor coef) = coef := by
  rw [factor]
  split
  · rename_i one
    rw [one, ofFactor, if_pos rfl]
  · rw [ofFactor, if_neg (by simp), List.dropLast_concat, Nat.ofDigitChars_ten_toDigits, ← Scalar.natCast_eq,
      Scalar.natCast_val]

theorem toList_text (t : Term F) : t.text.toList =
    if t.wire = Wire.one then Nat.toDigits 10 t.coef.val else factor t.coef ++ 'w' :: Nat.toDigits 10 t.wire := by
  rw [text, factor]
  split
  · exact toList_decimal _
  · split
    · exact Wire.toList_name _
    · change (decimal t.coef.val ++ "*" ++ t.wire.name).toList = _
      rw [String.toList_append, String.toList_append, toList_decimal, Wire.toList_name]
      rfl

/-- A term is written with digits, a sign for the product and the letter of wires. -/
theorem not_mem_text {c : Char} (sign : c.isDigit = false) (product : c ≠ '*') (letter : c ≠ 'w') (t : Term F) :
    c ∉ t.text.toList := by
  have digits := not_mem_toDigits sign
  rw [toList_text]
  split
  · exact digits _
  · rw [factor]
    split <;> simp [digits, product, letter]

/-- The term that a text spells. -/
def ofText (s : List Char) : Term F :=
  match s.splitOn 'w' with
  | [] => ⟨0, .one⟩
  | [coef] => ⟨.ofNat (Nat.ofDigitChars 10 coef 0), .one⟩
  | coef :: wire :: _ => ⟨ofFactor coef, Nat.ofDigitChars 10 wire 0⟩

theorem ofText_text (t : Term F) : ofText t.text.toList = t := by
  have digits (n : Nat) : 'w' ∉ Nat.toDigits 10 n := not_mem_toDigits (by decide) n
  rw [ofText]
  by_cases constant : t.wire = Wire.one
  · rw [toList_text, if_pos constant, List.splitOn_eq_singleton (digits _)]
    dsimp only
    rw [Nat.ofDigitChars_ten_toDigits, ← Scalar.natCast_eq, Scalar.natCast_val, ← constant]
  · have front : 'w' ∉ factor t.coef := by
      rw [factor]
      split <;> simp [digits]
    rw [toList_text, if_neg constant, List.splitOn_append_cons_self_of_not_mem front, List.splitOn_eq_singleton (digits _)]
    dsimp only
    rw [ofFactor_factor, Nat.ofDigitChars_ten_toDigits]

end Term

/-! ### Forms -/

/-- Leaving out characters of joined words leaves them out of each word and of the separator. -/
theorem filter_intercalate (p : Char → Bool) (separator : List Char) (words : List (List Char)) :
    (separator.intercalate words).filter p = (separator.filter p).intercalate (words.map (List.filter p)) := by
  induction words with
  | nil => rfl
  | cons word rest ih =>
    cases rest with
    | nil => simp
    | cons next rest => simpa using ih

namespace LinearForm

/-- The form that a text spells. A term of coefficient zero adds nothing. -/
def ofText (s : String) : LinearForm F :=
  ⟨(((s.toList.filter (· ≠ ' ')).splitOn '+').map Term.ofText).filter fun t => !t.coef.isZero⟩

/-- Between plus signs stand the texts of the terms. -/
theorem splitOn_text {e : LinearForm F} (nonempty : e.terms ≠ []) :
    (e.text.toList.filter (· ≠ ' ')).splitOn '+' = e.terms.map (·.text.toList) := by
  have blanks (t : Term F) : t.text.toList.filter (· ≠ ' ') = t.text.toList := by
    refine List.filter_eq_self.mpr fun c member => decide_eq_true ?_
    rintro rfl
    exact t.not_mem_text (by decide) (by decide) (by decide) member
  have plus : ∀ word ∈ e.terms.map (·.text.toList), '+' ∉ word :=
    List.forall_mem_map.mpr fun t _ => t.not_mem_text (by decide) (by decide) (by decide)
  have words : ((e.terms.map Term.text).map String.toList).map (List.filter (· ≠ ' ')) = e.terms.map (·.text.toList) := by
    rw [List.map_map, List.map_map]
    exact List.map_congr_left fun t _ => blanks t
  rw [text, if_neg (mt List.isEmpty_iff.mp nonempty), String.toList_intercalate, filter_intercalate, words]
  exact List.splitOn_intercalate '+' plus (mt List.map_eq_nil_iff.mp nonempty)

theorem ofText_text_of_terms {e : LinearForm F} (nonempty : e.terms ≠ []) :
    ofText e.text = ⟨e.terms.filter fun t => !t.coef.isZero⟩ := by
  have read : (e.terms.map (·.text.toList)).map Term.ofText = e.terms := by
    rw [List.map_map]
    exact List.map_id'' Term.ofText_text e.terms
  rw [ofText, splitOn_text nonempty, read]

/-- The constant zero, spelled out as a term, has the text of the form without terms. -/
theorem text_zero : (zero : LinearForm F).text = (⟨[⟨0, .one⟩]⟩ : LinearForm F).text := by
  change "0" = " + ".intercalate [decimal 0]
  rw [String.intercalate_singleton, decimal_eq_repr]
  rfl

theorem ofText_text {e : LinearForm F} (canonical : e.isCanonical = true) : ofText e.text = e := by
  have nonzero := ((canonicalTerms_iff e.terms).mp canonical).2
  obtain ⟨terms⟩ := e
  by_cases nonempty : terms = []
  · subst nonempty
    exact (congrArg ofText text_zero).trans (ofText_text_of_terms (List.cons_ne_nil _ _))
  · rw [ofText_text_of_terms nonempty]
    congr 1
    refine List.filter_eq_self.mpr fun t member => ?_
    simpa using nonzero t member

/-- Canonical forms of the same text are the same. -/
theorem text_inj {a b : LinearForm F} (left : a.isCanonical = true) (right : b.isCanonical = true) :
    a.text = b.text ↔ a = b := by
  constructor
  · intro same
    rw [← ofText_text left, same, ofText_text right]
  · rintro rfl
    rfl

/-- `12*w1`. -/
def twelvefold : LinearForm .mersenne31 := ⟨[⟨.ofNat 12, 1⟩]⟩

/-- `1 + 2*w1`. -/
def onePlusTwice : LinearForm .mersenne31 := ⟨[⟨1, .one⟩, ⟨.ofNat 2, 1⟩]⟩

theorem twelvefold_text_inj :
    twelvefold.isCanonical = true ∧ onePlusTwice.isCanonical = true ∧ twelvefold.text ≠ onePlusTwice.text := by
  have left : twelvefold.isCanonical = true := by decide
  have right : onePlusTwice.isCanonical = true := by decide
  exact ⟨left, right, (text_inj left right).not.mpr (by decide)⟩

end LinearForm
end ArithCircuit
