import Schemata.Number.Decimal
import Schemata.Ty.Basic

/-!
# Numbers

A number is of one of seven kinds: four widths of integers, two formats of
floating point, and decimals. Numbers of different kinds are never equal.
-/

namespace Schemata

inductive NumberKind where
  | tinyInt
  | smallInt
  | int
  | bigInt
  | float
  | double
  | decimal
deriving DecidableEq

inductive Number where
  | tinyInt (n : Int8)
  | smallInt (n : Int16)
  | int (n : Int32)
  | bigInt (n : Int64)
  | float (x : Binary .single)
  | double (x : Binary .double)
  | decimal (d : Decimal)

namespace NumberKind

/-- All kinds, the narrowest integers first. -/
def all : List NumberKind :=
  [.tinyInt, .smallInt, .int, .bigInt, .float, .double, .decimal]

def render : NumberKind → String
  | .tinyInt => "TinyInt"
  | .smallInt => "SmallInt"
  | .int => "Int"
  | .bigInt => "BigInt"
  | .float => "Float"
  | .double => "Double"
  | .decimal => "Decimal"

/-- The kind that is rendered as `name`. -/
def named? (name : String) : Option NumberKind :=
  all.find? fun k => k.render == name

def ofScalarType? : ScalarType → Option NumberKind
  | .tinyInt => some .tinyInt
  | .smallInt => some .smallInt
  | .int => some .int
  | .bigInt => some .bigInt
  | .float => some .float
  | .double => some .double
  | .decimal .. => some .decimal
  | _ => none

/-- The kind of the values of a numeric type. -/
def ofTy? : Ty → Option NumberKind
  | .scalar s => ofScalarType? s
  | _ => none

/-- Whether every number of kind `k`, other than what is not a number, is
the same again after going to `target` and back. -/
def isLosslessTo (k target : NumberKind) : Bool :=
  k == target ||
  match k with
  | .tinyInt => true
  | .smallInt => target != .tinyInt
  | .int => target == .bigInt || target == .double || target == .decimal
  | .bigInt => target == .decimal
  | .float => target == .double
  | .double | .decimal => false

end NumberKind

namespace Number

def kind : Number → NumberKind
  | .tinyInt _ => .tinyInt
  | .smallInt _ => .smallInt
  | .int _ => .int
  | .bigInt _ => .bigInt
  | .float _ => .float
  | .double _ => .double
  | .decimal _ => .decimal

protected def beq : Number → Number → Bool
  | .tinyInt m, .tinyInt n => m == n
  | .smallInt m, .smallInt n => m == n
  | .int m, .int n => m == n
  | .bigInt m, .bigInt n => m == n
  | .float x, .float y => x == y
  | .double x, .double y => x == y
  | .decimal d, .decimal e => d == e
  | _, _ => false

instance : BEq Number := ⟨Number.beq⟩

end Number

end Schemata
