import Schemata.Number.Basic

/-!
# Conversions between numbers

Every number converts to every kind:

- integers and decimals become integers by dropping the fraction and then
  keeping the low bits;
- floating point becomes an integer by dropping the fraction, clamping to
  the 32-bit range (the 64-bit range for the widest integers) and then
  keeping the low bits; what is not a number becomes zero;
- decimals are exact, infinities become the widest 38-digit numbers;
- floating point is the nearest number of the format.
-/

namespace Schemata

namespace Binary

variable {f : Format}

/-- The number without its fraction, clamped to signed words of `width`
bits. -/
def clamped (width : Nat) (x : Binary f) : Int :=
  let bound : Int := twoPow (width - 1)
  match x.reading with
  | .notNumber => 0
  | .infinite negative => if negative then -bound else bound - 1
  | .finite negative significand shift =>
    let whole := significand * twoPow shift / twoPow f.places
    max (-bound) (min (bound - 1) (signed negative whole))

end Binary

namespace Number

/-- The integer of which the target keeps the low bits, when floating point
is clamped to `width` bits. -/
def whole (width : Nat) : Number → Int
  | .tinyInt n => n.toInt
  | .smallInt n => n.toInt
  | .int n => n.toInt
  | .bigInt n => n.toInt
  | .float x => x.clamped width
  | .double x => x.clamped width
  | .decimal d => d.truncated

def toTinyInt (n : Number) : Int8 := Int8.ofInt (n.whole 32)

def toSmallInt (n : Number) : Int16 := Int16.ofInt (n.whole 32)

def toInt (n : Number) : Int32 := Int32.ofInt (n.whole 32)

def toBigInt (n : Number) : Int64 := Int64.ofInt (n.whole 64)

def toFloat : Number → Binary .single
  | .tinyInt n => .ofInt n.toInt
  | .smallInt n => .ofInt n.toInt
  | .int n => .ofInt n.toInt
  | .bigInt n => .ofInt n.toInt
  | .float x => x
  | .double x => x.convert
  | .decimal d => d.toBinary

def toDouble : Number → Binary .double
  | .tinyInt n => .ofInt n.toInt
  | .smallInt n => .ofInt n.toInt
  | .int n => .ofInt n.toInt
  | .bigInt n => .ofInt n.toInt
  | .float x => x.convert
  | .double x => x
  | .decimal d => d.toBinary

def toDecimal : Number → Decimal
  | .tinyInt n => .ofInt n.toInt
  | .smallInt n => .ofInt n.toInt
  | .int n => .ofInt n.toInt
  | .bigInt n => .ofInt n.toInt
  | .float x => .ofBinary x
  | .double x => .ofBinary x
  | .decimal d => d

def convert (n : Number) : NumberKind → Number
  | .tinyInt => .tinyInt n.toTinyInt
  | .smallInt => .smallInt n.toSmallInt
  | .int => .int n.toInt
  | .bigInt => .bigInt n.toBigInt
  | .float => .float n.toFloat
  | .double => .double n.toDouble
  | .decimal => .decimal n.toDecimal

end Number

end Schemata
