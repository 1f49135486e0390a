import Schemata.Number.Power

/-!
# Binary floating point

Numbers of the two IEEE 754 formats, as bit patterns. Everything is exact:
a finite number is a natural number of *units*, where a unit is the least
positive number of the format, `2 ^ -places`. The pattern without its sign
bit is a natural number too, the *magnitude*, and larger numbers have
larger magnitudes.

`Binary.ofRatio` rounds a quotient once, to the nearest number and to an
even pattern when two are equally near. All conversions into a format go
through it.
-/

namespace Schemata

/-- A natural number with a sign. -/
def signed (negative : Bool) (n : Nat) : Int :=
  if negative then -(n : Int) else n

inductive Format where
  | single
  | double
deriving DecidableEq

namespace Format

def fractionBits : Format → Nat
  | .single => 23
  | .double => 52

def exponentBits : Format → Nat
  | .single => 8
  | .double => 11

/-- The least positive number is `2 ^ -places`. -/
def places : Format → Nat
  | .single => 149
  | .double => 1074

/-- Number of bits without the sign. -/
def magnitudeBits (f : Format) : Nat := f.exponentBits + f.fractionBits

/-- Number of bits with the sign. -/
def width (f : Format) : Nat := f.magnitudeBits + 1

/-- The magnitude of the infinities; those above it are not numbers. -/
def infinity (f : Format) : Nat :=
  (twoPow f.exponentBits - 1) * twoPow f.fractionBits

end Format

/-- A bit pattern of the format. -/
structure Binary (f : Format) where
  bits : BitVec f.width

/-- What a bit pattern stands for: a finite number is
`significand * 2 ^ shift` units. -/
inductive Reading where
  | notNumber
  | infinite (negative : Bool)
  | finite (negative : Bool) (significand shift : Nat)

namespace Binary

variable {f : Format}

/-! ## Patterns -/

def negative (x : Binary f) : Bool := x.bits.msb

/-- The pattern without the sign bit. -/
def magnitude (x : Binary f) : Nat := x.bits.toNat % twoPow f.magnitudeBits

def ofMagnitude (negative : Bool) (magnitude : Nat) : Binary f :=
  let sign := if negative then twoPow f.magnitudeBits else 0
  ⟨BitVec.ofNat f.width (sign + magnitude)⟩

def zero (negative : Bool) : Binary f := ofMagnitude negative 0

def infinite (negative : Bool) : Binary f := ofMagnitude negative f.infinity

/-- One of the patterns that are not numbers. -/
def notNumber : Binary f :=
  ofMagnitude false (f.infinity + twoPow (f.fractionBits - 1))

/-! ## Reading -/

/-- The significand of a magnitude below infinity. -/
def significand (f : Format) (magnitude : Nat) : Nat :=
  let fraction := magnitude % twoPow f.fractionBits
  if magnitude / twoPow f.fractionBits = 0 then fraction
  else fraction + twoPow f.fractionBits

/-- The power of two by which the significand of a magnitude counts. -/
def shift (f : Format) (magnitude : Nat) : Nat :=
  magnitude / twoPow f.fractionBits - 1

def reading (x : Binary f) : Reading :=
  if x.magnitude < f.infinity then
    .finite x.negative (significand f x.magnitude) (shift f x.magnitude)
  else if x.magnitude = f.infinity then .infinite x.negative
  else .notNumber

/-- Equality of numbers: zeros are equal whatever their sign, and what is
not a number equals nothing. -/
protected def beq (x y : Binary f) : Bool :=
  x.magnitude ≤ f.infinity && y.magnitude ≤ f.infinity &&
    (x.bits == y.bits || (x.magnitude == 0 && y.magnitude == 0))

instance : BEq (Binary f) := ⟨Binary.beq⟩

/-! ## Rounding -/

/-- `num / den` rounded to the nearest natural number, and to the even one
of two that are equally near. -/
def roundDiv (num den : Nat) : Nat :=
  let quotient := num / den
  let twice := 2 * (num % den)
  if den < twice ∨ (twice = den ∧ quotient % 2 = 1) then quotient + 1
  else quotient

/-- The magnitude nearest to `num / den` units, were there no infinity. A
significand that is rounded up to the next power of two carries over into
the exponent by itself. -/
def unboundedMagnitude (f : Format) (num den : Nat) : Nat :=
  let shift := (num / den).log2 - f.fractionBits
  shift * twoPow f.fractionBits + roundDiv num (den * twoPow shift)

/-- The number nearest to `num / den`, with the given sign. -/
def ofRatio (negative : Bool) (num den : Nat) : Binary f :=
  ofMagnitude negative
    (min f.infinity (unboundedMagnitude f (num * twoPow f.places) den))

/-- The number nearest to an integer. -/
def ofInt (n : Int) : Binary f := ofRatio (n < 0) n.natAbs 1

/-- The nearest number of another format. -/
def convert {g : Format} (x : Binary f) : Binary g :=
  match x.reading with
  | .notNumber => notNumber
  | .infinite negative => infinite negative
  | .finite negative significand shift =>
    ofRatio negative (significand * twoPow shift) (twoPow f.places)

end Binary

end Schemata
