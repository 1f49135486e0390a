import Schemata.Ty.Basic
import Schemata.Text

/-!
# Signatures

The text form of a type. A struct, union or reference with a name is shown
by its name alone. An anonymous union of a type with `Null` is written with
a question mark.
-/

namespace Schemata

/-- The name of the type, with its parameters. -/
def ScalarType.signature : ScalarType → String
  | .boolean => "Boolean"
  | .tinyInt => "TinyInt"
  | .smallInt => "SmallInt"
  | .int => "Int"
  | .bigInt => "BigInt"
  | .float => "Float"
  | .double => "Double"
  | .decimal precision scale => s!"Decimal({precision},{scale})"
  | .date => "Date"
  | .timestamp => "Timestamp"
  | .char length => s!"Char({length})"
  | .varchar length => s!"Varchar({length})"
  | .string => "String"

namespace Ty

/-- A field as `name:Type`. -/
def fieldText (name type : String) : String := name ++ ":" ++ type

/-- A struct body as `{name:Type,...}`. -/
def structText (fields : List String) : String :=
  "\x7b" ++ Text.join "," fields ++ "\x7d"

/-- The body of a union, given its variants and their signatures: exactly
two variants of which one is `Null` show as the other with `?`. -/
def unionText (variants : List Ty) (signatures : List String) : String :=
  match variants.length == 2 && variants.any isNull,
      (variants.zip signatures).find? fun v => !v.1.isNull with
  | true, some (_, signature) => signature ++ "?"
  | _, _ => Text.join "|" signatures

mutual

def signature : Ty → String
  | .any => "Any"
  | .null => "Null"
  | .scalar s => s.signature
  | .array element => element.signature ++ "[]"
  | .tuple elements => "(" ++ Text.join "," (signatures elements) ++ ")"
  | .map key value => key.signature ++ "=>" ++ value.signature
  | .struct label fields =>
    match label.name? with
    | some name => name
    | none => structText (fieldSignatures fields)
  | .union label variants =>
    match label.name? with
    | some name => name
    | none => unionText variants (signatures variants)
  | .ref _ name _ => name

def signatures : List Ty → List String
  | [] => []
  | t :: ts => t.signature :: signatures ts

def fieldSignatures : List (String × Ty) → List String
  | [] => []
  | (name, t) :: fields =>
    fieldText name t.signature :: fieldSignatures fields

end

/-- How a reference to the definition of that name is shown by itself. -/
def referenceText (name : String) : String :=
  "TypeRef(" ++ Text.quoted name ++ ")"

/-- The signature that a struct with these fields has without a name. -/
def fieldsSignature (fields : List (String × Ty)) : String :=
  structText (fieldSignatures fields)

/-- The signature that a union of these variants has without a name. -/
def variantsSignature (variants : List Ty) : String :=
  unionText variants (signatures variants)

end Ty

end Schemata
