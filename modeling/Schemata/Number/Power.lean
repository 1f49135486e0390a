/-!
# Powers of two and of ten

The two bases in which numbers are measured. The functions are plain
repeated multiplication on the natural numbers.
-/

namespace Schemata

def twoPow (n : Nat) : Nat := Nat.pow 2 n

def tenPow (n : Nat) : Nat := Nat.pow 10 n

end Schemata
