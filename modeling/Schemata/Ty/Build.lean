import Schemata.Error
import Schemata.Names
import Schemata.Ty.Equality
import Schemata.Ty.Signature

/-!
# Building types

The checked ways to build a type: parameters of scalar types within their
limits, map keys that are scalar, struct fields with distinct names, and
unions of at least two distinct variants. Nothing here refers to itself;
recursive definitions are in `Schemata.Definition`.
-/

namespace Schemata

/-! ## Limits -/

namespace Limit

/-- Largest precision of a decimal type. -/
def decimalPrecision : Nat := 38

/-- Largest length of a `Char` type and of its texts. -/
def charLength : Nat := 255

/-- Largest length of a `Varchar` type and of its texts. -/
def varcharLength : Nat := 65535

/-- Least number of distinct variants of a union. -/
def unionVariants : Nat := 2

end Limit

namespace Ty

/-! ## Scalars and maps -/

def decimal (precision scale : Nat) : Except Error Ty :=
  if precision = 0 ∨ Limit.decimalPrecision < precision then
    .error (.decimalPrecision precision Limit.decimalPrecision)
  else if precision < scale then .error (.decimalScale precision scale)
  else .ok (.scalar (.decimal precision scale))

def char (length : Nat) : Except Error Ty :=
  if length = 0 ∨ Limit.charLength < length then
    .error (.charLength length Limit.charLength)
  else .ok (.scalar (.char length))

def varchar (length : Nat) : Except Error Ty :=
  if length = 0 ∨ Limit.varcharLength < length then
    .error (.varcharLength length Limit.varcharLength)
  else .ok (.scalar (.varchar length))

/-- The scalar type itself, if its parameters are within their limits. -/
def ofScalar : ScalarType → Except Error Ty
  | .decimal precision scale => decimal precision scale
  | .char length => char length
  | .varchar length => varchar length
  | s => .ok (.scalar s)

def mapOf (key value : Ty) : Except Error Ty :=
  match key with
  | .scalar key => .ok (.map key value)
  | _ => .error (.mapKey key.signature)

/-! ## Structs -/

/-- The name under which an anonymous definition refers to itself. -/
def anonymousName : String := "<self>"

/-- The fields of a struct, if their names are distinct. -/
def checkedFields (owner : Option String) (fields : List (String × Ty)) :
    Except Error (List (String × Ty)) :=
  match Names.repeated? (fields.map Prod.fst) with
  | some name =>
    .error (.duplicateName name ("struct " ++ owner.getD anonymousName))
  | none => .ok fields

/-- A struct that does not refer to itself. -/
def structOf (name : Option String) (fields : List (String × Ty)) :
    Except Error Ty := do
  return .struct (.plain name) (← checkedFields name fields)

/-! ## Unions -/

/-- The distinct variants of a union, if there are enough of them. -/
def checkedVariants (variants : List Ty) : Except Error (List Ty) :=
  let kept := distinct variants
  if kept.length < Limit.unionVariants then
    .error (.unionArity kept.length)
  else .ok kept

/-- A union that does not refer to itself. -/
def unionOfList (name : Option String) (variants : List Ty) :
    Except Error Ty := do
  return .union (.plain name) (← checkedVariants variants)

/-- The variants of an anonymous union; any other type stands for itself. -/
def flattened : Ty → List Ty
  | .union (.plain none) variants => variants
  | t => [t]

/-- The anonymous union of two types, without nesting anonymous unions. -/
def unionOf (a b : Ty) : Except Error Ty :=
  unionOfList none (a.flattened ++ b.flattened)

end Ty

end Schemata
