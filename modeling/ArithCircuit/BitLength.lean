/-!
The number of binary digits of a number.
-/
namespace ArithCircuit

/-- How many binary digits a number takes; none for zero. -/
def bitLength (n : Nat) : Nat := if n = 0 then 0 else n.log2 + 1

end ArithCircuit
