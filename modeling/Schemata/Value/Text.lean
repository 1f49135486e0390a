import Schemata.Number.Text
import Schemata.Value.Basic

/-!
# Values as text

Texts stand between single quotes, unchanged. Composite values list their
parts, separated by a comma and a blank.

A map is built from values, of which one that cannot be a key is reported
by its text; hence `Value.mapOf` is here.
-/

namespace Schemata

def Scalar.render : Scalar → String
  | .boolean true => "true"
  | .boolean false => "false"
  | .number n => n.render
  | .date d => d.render
  | .timestamp t => t.render
  | .text _ content => "'" ++ content ++ "'"

namespace Value

mutual

def render : Value → String
  | .null => "null"
  | .scalar s => s.render
  | .array items => "[" ++ Text.join ", " (renderList items) ++ "]"
  | .packed p =>
    "[" ++ Text.join ", " (p.numbers.map Number.render) ++ "]"
  | .tuple items => "(" ++ Text.join ", " (renderList items) ++ ")"
  | .map entries =>
    "\x7b" ++ Text.join ", " (renderEntries entries) ++ "\x7d"
  | .struct fields =>
    "\x7b" ++ Text.join ", " (renderFields fields) ++ "\x7d"

def renderList : List Value → List String
  | [] => []
  | v :: vs => v.render :: renderList vs

def renderEntries : List (Scalar × Value) → List String
  | [] => []
  | (key, v) :: entries =>
    (key.render ++ " => " ++ v.render) :: renderEntries entries

def renderFields : List (String × Value) → List String
  | [] => []
  | (name, v) :: fields =>
    (name ++ ": " ++ v.render) :: renderFields fields

end

/-- Adds entries to a map; the first key that is no scalar is refused. -/
def addEntries (kept : List (Scalar × Value)) :
    List (Value × Value) → Except Error (List (Scalar × Value))
  | [] => .ok kept
  | (.scalar key, v) :: entries => addEntries (setEntry kept key v) entries
  | (key, _) :: _ => .error (.mapKey key.render)

def mapOf (entries : List (Value × Value)) : Except Error Value := do
  return .map (← addEntries [] entries)

end Value

end Schemata
