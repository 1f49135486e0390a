import Schemata.Catalog.Schema
import Schemata.Scope

/-!
# Functions and their return types

A function is a name with a rule that computes its return type from the
schema of its input. A registry keeps functions in the order of their
names. Registering refuses a name that is taken; the built-in aggregates
are put in without asking.
-/

namespace Schemata

/-- How the return type follows from the input. -/
inductive ReturnRule where
  /-- Always the same type. -/
  | constant (t : Ty)
  /-- The type of the only column, which must be numeric, or null. -/
  | nullableNumeric
  /-- `Double` or null, for one numeric column. -/
  | nullableDouble
  /-- The type of the only column, or null. -/
  | nullableColumn
  /-- The struct of the columns. -/
  | struct
  /-- The row of a table of that name. -/
  | row (name : String)
  /-- The tuple of the column types. -/
  | tuple
  /-- The union of the column types. -/
  | union
  /-- The struct of the columns, or null. -/
  | nullableStruct
  /-- The type of the column of that name. -/
  | column (name : String)

structure Function where
  name : String
  rule : ReturnRule

namespace Function

def render (f : Function) : String :=
  "FunctionSignature \x7b name: " ++ Text.quoted f.name ++ ", .. \x7d"

/-- The only column of the input. -/
def singleColumn (f : Function) (input : Schema) : Except Error Column :=
  match input.columns with
  | [c] => .ok c
  | columns =>
    .error (.invalidArgument
      (f.name ++ " expects exactly one column, got " ++ columns.length.repr))

/-- The only column of the input, which must be numeric. -/
def numericColumn (f : Function) (input : Schema) : Except Error Column := do
  let c ← f.singleColumn input
  if c.type.isNumeric then return c
  throw (.invalidArgument
    (f.name ++ " expects a numeric column, got " ++ c.render))

/-- The return type, while `held` and the column types are held. -/
def returnType (f : Function) (held : List Ty) (input : Schema) :
    Except Error Ty := do
  let S := Scope.ofHeld (held ++ input.types)
  match f.rule with
  | .constant t => return t
  | .nullableNumeric => return S.nullable (← f.numericColumn input).type
  | .nullableDouble =>
    let _ ← f.numericColumn input
    return S.nullable (.scalar .double)
  | .nullableColumn => return S.nullable (← f.singleColumn input).type
  | .struct => input.structType
  | .row name => Table.rowType ⟨name, input⟩
  | .tuple => return .tuple input.types
  | .union => Ty.unionOfList none input.types
  | .nullableStruct => return S.nullable (← input.structType)
  | .column name =>
    match input.column? name with
    | some c => return c.type
    | none => throw (.unknownName "column" name)

/-- The type that the function itself holds. -/
def held (f : Function) : List Ty :=
  match f.rule with
  | .constant t => [t]
  | _ => []

end Function

structure Registry where
  functions : List Function

namespace Registry

def empty : Registry := ⟨[]⟩

def find? (r : Registry) (name : String) : Option Function :=
  r.functions.find? fun f => f.name == name

def contains (r : Registry) (name : String) : Bool := (r.find? name).isSome

/-- The names, in increasing order. -/
def names (r : Registry) : List String := r.functions.map Function.name

/-- The types that the functions hold. -/
def held (r : Registry) : List Ty := r.functions.flatMap Function.held

/-- The functions with `f` in its place, instead of one of its name. -/
def place (f : Function) : List Function → List Function
  | [] => [f]
  | g :: gs =>
    if f.name < g.name then f :: g :: gs
    else if f.name = g.name then f :: gs
    else g :: place f gs

def put (r : Registry) (f : Function) : Registry := ⟨place f r.functions⟩

def register (r : Registry) (f : Function) : Except Error Registry :=
  if r.contains f.name then
    .error (.duplicateName f.name "function registry")
  else .ok (r.put f)

/-- The aggregates that are built in. -/
def builtins : List Function :=
  [⟨"count", .constant (.scalar .bigInt)⟩,
    ⟨"sum", .nullableNumeric⟩,
    ⟨"avg", .nullableDouble⟩,
    ⟨"min", .nullableColumn⟩,
    ⟨"max", .nullableColumn⟩,
    ⟨"first", .nullableColumn⟩]

def withBuiltins (r : Registry) : Registry := builtins.foldl put r

def returnType (r : Registry) (name : String) (held : List Ty)
    (input : Schema) : Except Error Ty :=
  match r.find? name with
  | some f => f.returnType held input
  | none => .error (.unknownName "function" name)

end Registry

end Schemata
