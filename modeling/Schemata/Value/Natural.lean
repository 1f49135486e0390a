import Schemata.Value.Basic

/-!
# Natural types

The type that a value has by itself. Parameters are the least that cover
the value, within the limits of the type; arrays and maps are typed by
their first entry, and without one by `Any`.
-/

namespace Schemata

/-- The decimal type that covers the digits, as far as one does. -/
def ScalarType.coveringDecimal (precision scale : Nat) : ScalarType :=
  let digits := min Limit.decimalPrecision (max 1 (max precision scale))
  .decimal digits (min scale digits)

def ScalarType.coveringChar (length : Nat) : ScalarType :=
  .char (min Limit.charLength (max 1 length))

def ScalarType.coveringVarchar (length : Nat) : ScalarType :=
  .varchar (min Limit.varcharLength (max 1 length))

def Number.naturalType : Number → ScalarType
  | .tinyInt _ => .tinyInt
  | .smallInt _ => .smallInt
  | .int _ => .int
  | .bigInt _ => .bigInt
  | .float _ => .float
  | .double _ => .double
  | .decimal d => .coveringDecimal d.precision d.fractionDigits

def Scalar.naturalType : Scalar → ScalarType
  | .boolean _ => .boolean
  | .number n => n.naturalType
  | .date _ => .date
  | .timestamp _ => .timestamp
  | .text .char content => .coveringChar content.length
  | .text .varchar content => .coveringVarchar content.length
  | .text .string _ => .string

namespace Value

mutual

def naturalType : Value → Ty
  | .null => .null
  | .scalar s => .scalar s.naturalType
  | .array items => .array (firstType items)
  | .packed p => .array (.scalar p.elementType)
  | .tuple items => .tuple (naturalTypes items)
  | .map entries => mapType entries
  | .struct fields => .struct (.plain none) (fieldTypes fields)

/-- The type of the first value, or `Any`. -/
def firstType : List Value → Ty
  | [] => .any
  | v :: _ => v.naturalType

def naturalTypes : List Value → List Ty
  | [] => []
  | v :: vs => v.naturalType :: naturalTypes vs

def mapType : List (Scalar × Value) → Ty
  | [] => .any
  | (key, v) :: _ => .map key.naturalType v.naturalType

def fieldTypes : List (String × Value) → List (String × Ty)
  | [] => []
  | (name, v) :: fields => (name, v.naturalType) :: fieldTypes fields

end

end Value

end Schemata
