import Schemata.Number.Binary

/-!
# Decimals

Decimal numbers of any length: an integer and a 64-bit scale, standing for
`unscaled / 10 ^ scale`. Trailing zeros count for the digits a decimal has
(`precision`, `fractionDigits`) and not for its value (`==`).
-/

namespace Schemata

structure Decimal where
  unscaled : Int
  scale : Int64

namespace Decimal

def ofInt (n : Int) : Decimal := ⟨n, 0⟩

/-! ## Digits -/

/-- Largest digit count that is reported. -/
def maxDigits : Nat := twoPow 32 - 1

/-- Number of decimal digits of a natural number; zero has one. -/
def digitCount (n : Nat) : Nat := n.repr.length

/-- Number of digits in front of and behind the point, without leading
zeros; a negative scale adds the zeros that it stands for. -/
def precision (d : Decimal) : Nat :=
  if d.unscaled = 0 then 1
  else min maxDigits (digitCount d.unscaled.natAbs + (-d.scale.toInt).toNat)

/-- Number of digits behind the point. -/
def fractionDigits (d : Decimal) : Nat := min maxDigits d.scale.toInt.toNat

/-! ## Equality -/

/-- Whether `m * 10 ^ gap = n`, for `n` other than zero. The power is not
computed when it is larger than `n`. -/
def scaledEq (m : Int) (gap : Nat) (n : Int) : Bool :=
  gap ≤ n.natAbs.log2 && m * tenPow gap == n

/-- Equality of the numbers. -/
protected def beq (a b : Decimal) : Bool :=
  let gap := b.scale.toInt - a.scale.toInt
  if a.unscaled = 0 ∨ b.unscaled = 0 then a.unscaled == b.unscaled
  else if 0 ≤ gap then scaledEq a.unscaled gap.toNat b.unscaled
  else scaledEq b.unscaled (-gap).toNat a.unscaled

instance : BEq Decimal := ⟨Decimal.beq⟩

/-! ## Integers -/

/-- Number of bits of a natural number. -/
def bitCount (n : Nat) : Nat := if n = 0 then 0 else n.log2 + 1

/-- The number without its fraction, up to a multiple of `2 ^ 64`. A scale
above the number of bits leaves nothing in front of the point, and 64
factors of ten hold 64 factors of two. -/
def truncated (d : Decimal) : Int :=
  match d.scale.toInt with
  | .ofNat scale =>
    if bitCount d.unscaled.natAbs < scale then 0
    else d.unscaled.tdiv (tenPow scale)
  | .negSucc scale =>
    if 64 ≤ scale + 1 then 0 else d.unscaled * tenPow (scale + 1)

/-! ## Binary floating point -/

/-- Decimal exponents beyond which every number of a format is infinite or
zero. -/
def exponentReach : Int := 400

/-- The number nearest to `digits * 10 ^ exponent`. -/
def nearest {f : Format} (negative : Bool) (digits : Nat) (exponent : Int) :
    Binary f :=
  if digits = 0 then .zero false
  else if exponentReach < digitCount digits + exponent then
    .infinite negative
  else if digitCount digits + exponent < -exponentReach then .zero negative
  else match exponent with
    | .ofNat e => .ofRatio negative (digits * tenPow e) 1
    | .negSucc e => .ofRatio negative digits (tenPow (e + 1))

/-- The nearest number of a format. The exponent is the scale negated as a
64-bit word. -/
def toBinary {f : Format} (d : Decimal) : Binary f :=
  nearest (d.unscaled < 0) d.unscaled.natAbs (-d.scale).toInt

/-- `n / 2 ^ places` in lowest terms: numerator and remaining places. -/
def halved : Nat → Nat → Nat × Nat
  | 0, n => (n, 0)
  | places + 1, n =>
    if n % 2 = 0 then halved places (n / 2) else (n, places + 1)

/-- The decimal that stands for an infinity. -/
def widest : Nat := tenPow 38 - 1

/-- The exact value of a finite number, with as few digits behind the point
as possible. -/
def ofBinary {f : Format} (x : Binary f) : Decimal :=
  match x.reading with
  | .notNumber => ofInt 0
  | .infinite negative => ofInt (signed negative widest)
  | .finite negative significand shift =>
    let (n, places) := halved f.places (significand * twoPow shift)
    ⟨signed negative (n * Nat.pow 5 places), Int64.ofInt places⟩

end Decimal

end Schemata
