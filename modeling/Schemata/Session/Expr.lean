import Schemata.Catalog.Registry
import Schemata.Definition
import Schemata.Value.Text

/-!
# Expressions

Types and values are described by expressions, which are evaluated from
left to right and from the inside out. Expressions may name types and
values that were stored before, and inside a definition the definition
itself.

An expression that could not be read is `malformed`. It is part of the
language so that of several faults in an expression the leftmost innermost
one is reported, whether it is one of reading or of meaning.
-/

namespace Schemata

/-- Why an expression has no result. -/
inductive Fault where
  /-- It could not be read. -/
  | malformed
  /-- It asks for something that is not there. -/
  | noPart
  /-- It was refused. -/
  | rejected (e : Error)

/-- A refusal as a fault. -/
def Fault.lift {α : Type} : Except Error α → Except Fault α
  | .ok a => .ok a
  | .error e => .error (.rejected e)

/-- Something that may be missing. -/
def Fault.ofOption {α : Type} : Option α → Except Fault α
  | some a => .ok a
  | none => .error .noPart

/-! ## Values -/

inductive ValueExpr where
  | malformed
  | null
  | scalar (s : Scalar)
  | text (kind : TextKind) (content : String)
  | array (items : List ValueExpr)
  | packed (items : Packed)
  | tuple (items : List ValueExpr)
  | map (entries : List (ValueExpr × ValueExpr))
  | struct (fields : List (String × ValueExpr))
  /-- A stored value. -/
  | var (name : String)

instance : Inhabited ValueExpr := ⟨.malformed⟩

namespace ValueExpr

mutual

def eval (values : List (String × Value)) : ValueExpr → Except Fault Value
  | .malformed => .error .malformed
  | .null => .ok .null
  | .scalar s => .ok (.scalar s)
  | .text kind content => Fault.lift (Value.textOf kind content)
  | .array items => do return .array (← evalList values items)
  | .packed items => .ok (.packed items)
  | .tuple items => do return .tuple (← evalList values items)
  | .map entries => do
    Fault.lift (Value.mapOf (← evalEntries values entries))
  | .struct fields => do
    return Value.structOf (← evalFields values fields)
  | .var name => Fault.ofOption (values.lookup name)

def evalList (values : List (String × Value)) :
    List ValueExpr → Except Fault (List Value)
  | [] => .ok []
  | e :: es => do
    let v ← eval values e
    return v :: (← evalList values es)

def evalEntries (values : List (String × Value)) :
    List (ValueExpr × ValueExpr) → Except Fault (List (Value × Value))
  | [] => .ok []
  | (k, e) :: es => do
    let k ← eval values k
    let v ← eval values e
    return (k, v) :: (← evalEntries values es)

def evalFields (values : List (String × Value)) :
    List (String × ValueExpr) → Except Fault (List (String × Value))
  | [] => .ok []
  | (name, e) :: es => do
    let v ← eval values e
    return (name, v) :: (← evalFields values es)

end

end ValueExpr

/-! ## Types -/

inductive TypeExpr where
  | malformed
  | any
  | null
  | scalar (s : ScalarType)
  | decimal (precision scale : Nat)
  | char (length : Nat)
  | varchar (length : Nat)
  | array (element : TypeExpr)
  | tuple (elements : List TypeExpr)
  | map (key value : TypeExpr)
  /-- The union of two types, without nesting anonymous unions. -/
  | unionOf (a b : TypeExpr)
  | nullable (t : TypeExpr)
  /-- A struct that does not refer to itself. -/
  | struct (name : Option String) (fields : List (String × TypeExpr))
  /-- A union that does not refer to itself. -/
  | union (name : Option String) (variants : List TypeExpr)
  /-- A struct that may refer to itself; `lets` are local names for use in
  the fields. -/
  | defineStruct (name : Option String)
      (lets fields : List (String × TypeExpr))
  /-- A union that may refer to itself. -/
  | defineUnion (name : Option String) (lets : List (String × TypeExpr))
      (variants : List TypeExpr)
  /-- The enclosing definition, `up` levels further out. -/
  | self (up : Nat)
  /-- A local or stored type. -/
  | var (name : String)
  | element (t : TypeExpr)
  | item (t : TypeExpr) (i : Nat)
  | key (t : TypeExpr)
  | value (t : TypeExpr)
  | field (t : TypeExpr) (name : String)
  | variant (t : TypeExpr) (i : Nat)
  /-- Follows a reference. -/
  | resolve (t : TypeExpr)
  /-- The struct of a schema with these columns. -/
  | schemaStruct (columns : List (String × TypeExpr))
  /-- The row of a table with these columns. -/
  | row (columns : List (String × TypeExpr)) (name : String)
  /-- The natural type of a value. -/
  | natural (v : ValueExpr)

instance : Inhabited TypeExpr := ⟨.malformed⟩

end Schemata
