import Schemata.Session.Expr
import Schemata.Value.Natural

/-!
# Evaluation of type expressions

A `Context` says what the names in an expression stand for, and which types
are held while it is evaluated. A type is held when it is stored, when it
is bound to a local name, or when it has been evaluated as an operand of
what is being evaluated; what is held decides which references can be
followed. The operand of a projection is given up after the projection,
and local names of a definition are given up before it is checked.

A new definition takes an identity that no type at hand mentions
(`Context.fresh`), not even through a reference to something that is gone.
-/

namespace Schemata

structure Context where
  /-- Local and stored types, innermost first. -/
  types : List (String × Ty)
  /-- Stored values. -/
  values : List (String × Value)
  /-- Other types that are held. -/
  operands : List Ty
  /-- The definitions under construction, innermost first. -/
  handles : List Handle

namespace Context

def held (Γ : Context) : List Ty := Γ.types.map Prod.snd ++ Γ.operands

/-- What can be followed while `ts` are held too. -/
def scope (Γ : Context) (ts : List Ty) : Scope := .ofHeld (Γ.held ++ ts)

/-- The context in which `t` is held. -/
def hold (Γ : Context) (t : Ty) : Context :=
  { Γ with operands := t :: Γ.operands }

def bind (Γ : Context) (name : String) (t : Ty) : Context :=
  { Γ with types := (name, t) :: Γ.types }

/-- The context inside of a definition. -/
def enter (Γ : Context) (h : Handle) : Context :=
  { Γ with handles := h :: Γ.handles }

/-- An identity that nothing at hand mentions. -/
def fresh (Γ : Context) : DefId :=
  let contents := Ty.contentsOf Γ.held
  (contents.references ++ contents.definitions.filterMap Ty.defId? ++
    Γ.handles.map Handle.id).foldl max 0 + 1

end Context

namespace TypeExpr

/-- Named columns as a schema. -/
def schemaOf (columns : List (String × Ty)) : Except Fault Schema :=
  Fault.lift (Schema.ofColumns (columns.map fun c => ⟨c.1, c.2⟩))

mutual

def eval (Γ : Context) : TypeExpr → Except Fault Ty
  | .malformed => .error .malformed
  | .any => .ok .any
  | .null => .ok .null
  | .scalar s => Fault.lift (Ty.ofScalar s)
  | .decimal precision scale => Fault.lift (Ty.decimal precision scale)
  | .char length => Fault.lift (Ty.char length)
  | .varchar length => Fault.lift (Ty.varchar length)
  | .array e => do return .array (← eval Γ e)
  | .tuple es => do return .tuple (← evalList Γ es)
  | .map k e => do
    let k ← eval Γ k
    let t ← eval (Γ.hold k) e
    Fault.lift (Ty.mapOf k t)
  | .unionOf a b => do
    let a ← eval Γ a
    let b ← eval (Γ.hold a) b
    Fault.lift (Ty.unionOf a b)
  | .nullable t => do
    let t ← eval Γ t
    return (Γ.scope [t]).nullable t
  | .struct name fields => do
    Fault.lift (Ty.structOf name (← evalFields Γ fields))
  | .union name variants => do
    Fault.lift (Ty.unionOfList name (← evalList Γ variants))
  | .defineStruct name lets fields => do
    let h : Handle := ⟨.struct, name, Γ.fresh⟩
    let fields ← evalFields (← evalLets (Γ.enter h) lets) fields
    Fault.lift (h.defineStruct Γ.held fields)
  | .defineUnion name lets variants => do
    let h : Handle := ⟨.union, name, Γ.fresh⟩
    let variants ← evalList (← evalLets (Γ.enter h) lets) variants
    Fault.lift (h.defineUnion Γ.held variants)
  | .self up => Fault.ofOption (Γ.handles[up]?.map Handle.ref)
  | .var name => Fault.ofOption (Γ.types.lookup name)
  | .element t => do Fault.ofOption (← eval Γ t).element?
  | .item t i => do Fault.ofOption ((← eval Γ t).item? i)
  | .key t => do Fault.ofOption ((← eval Γ t).key?.map .scalar)
  | .value t => do Fault.ofOption (← eval Γ t).value?
  | .field t name => do Fault.ofOption ((← eval Γ t).field? name)
  | .variant t i => do Fault.ofOption ((← eval Γ t).variant? i)
  | .resolve t => do
    let t ← eval Γ t
    return (Γ.scope [t]).resolve t
  | .schemaStruct columns => do
    let s ← schemaOf (← evalFields Γ columns)
    Fault.lift s.structType
  | .row columns name => do
    let s ← schemaOf (← evalFields Γ columns)
    Fault.lift (Table.rowType ⟨name, s⟩)
  | .natural v => do return (← v.eval Γ.values).naturalType

/-- Each type is held while those after it are evaluated. -/
def evalList (Γ : Context) : List TypeExpr → Except Fault (List Ty)
  | [] => .ok []
  | e :: es => do
    let t ← eval Γ e
    return t :: (← evalList (Γ.hold t) es)

/-- Each type is held while those after it are evaluated. -/
def evalFields (Γ : Context) :
    List (String × TypeExpr) → Except Fault (List (String × Ty))
  | [] => .ok []
  | (name, e) :: es => do
    let t ← eval Γ e
    return (name, t) :: (← evalFields (Γ.hold t) es)

/-- Each name can be used in what comes after it. -/
def evalLets (Γ : Context) :
    List (String × TypeExpr) → Except Fault Context
  | [] => .ok Γ
  | (name, e) :: es => do
    let t ← eval Γ e
    evalLets (Γ.bind name t) es

end

end TypeExpr

/-! ## Catalogs -/

structure TableExpr where
  name : String
  columns : List (String × TypeExpr)

structure DatabaseExpr where
  name : String
  tables : List TableExpr

def TableExpr.eval (Γ : Context) (e : TableExpr) : Except Fault Table := do
  let s ← TypeExpr.schemaOf (← TypeExpr.evalFields Γ e.columns)
  return ⟨e.name, s⟩

namespace DatabaseExpr

/-- The columns of each table are held while those after it are
evaluated. -/
def evalTables (Γ : Context) : List TableExpr → Except Fault (List Table)
  | [] => .ok []
  | e :: es => do
    let t ← e.eval Γ
    let rest ← evalTables
      { Γ with operands := t.schema.types ++ Γ.operands } es
    return t :: rest

/-- All tables are built before their names are compared. -/
def eval (Γ : Context) (e : DatabaseExpr) : Except Fault Database := do
  Fault.lift (Database.ofTables e.name (← evalTables Γ e.tables))

end DatabaseExpr

end Schemata
