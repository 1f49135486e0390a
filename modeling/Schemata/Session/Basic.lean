import Schemata.Membership
import Schemata.Session.Context
import Schemata.Subtype
import Schemata.Value.Equality

/-!
# Sessions

A session stores types and values by name and has a registry of functions.
`Action`s change what is stored; an action that fails changes nothing.
Questions are asked about types and values that are evaluated in the
session and held until the answer is known.
-/

namespace Schemata

structure Session where
  types : List (String × Ty)
  values : List (String × Value)
  registry : Registry

/-- Stores `a` under a name, in the place of what was there. -/
def Session.store {α : Type} (stored : List (String × α)) (name : String)
    (a : α) : List (String × α) :=
  (name, a) :: stored.filter fun entry => entry.1 != name

namespace Session

def empty : Session := ⟨[], [], .empty⟩

/-- The types that are held between two actions. -/
def held (s : Session) : List Ty :=
  s.types.map Prod.snd ++ s.registry.held

def context (s : Session) : Context :=
  ⟨s.types, s.values, s.registry.held, []⟩

/-! ## Actions -/

/-- A return rule whose type, if it is constant, is still to be
evaluated; `rule` is for the others. -/
inductive RuleExpr where
  | constant (t : TypeExpr)
  | rule (r : ReturnRule)

def RuleExpr.eval (Γ : Context) : RuleExpr → Except Fault ReturnRule
  | .constant t => do return .constant (← t.eval Γ)
  | .rule (.constant _) => .error .malformed
  | .rule r => .ok r

inductive Action where
  | storeType (name : String) (t : TypeExpr)
  | dropType (name : String)
  | storeValue (name : String) (v : ValueExpr)
  /-- A new registry, with or without the built-in functions. -/
  | newRegistry (builtins : Bool)
  /-- Puts the built-in functions into the registry. -/
  | addBuiltins
  | register (name : String) (rule : RuleExpr)

def perform (s : Session) : Action → Except Fault Session
  | .storeType name t => do
    return { s with types := store s.types name (← t.eval s.context) }
  | .dropType name =>
    .ok { s with types := s.types.filter fun entry => entry.1 != name }
  | .storeValue name v => do
    return { s with values := store s.values name (← v.eval s.values) }
  | .newRegistry builtins =>
    let registry :=
      if builtins then Registry.empty.withBuiltins else .empty
    .ok { s with registry := registry }
  | .addBuiltins => .ok { s with registry := s.registry.withBuiltins }
  | .register name rule => do
    let f : Function := ⟨name, ← rule.eval s.context⟩
    return { s with registry := ← Fault.lift (s.registry.register f) }

/-! ## Questions -/

/-- Evaluates types from left to right and holds them; the scope is the one
in which questions about them are answered. -/
def evalTypes (s : Session) (es : List TypeExpr) :
    Except Fault (List Ty × Scope) := do
  let ts ← TypeExpr.evalList s.context es
  return (ts, s.context.scope ts)

def evalType (s : Session) (e : TypeExpr) : Except Fault (Ty × Scope) := do
  let t ← e.eval s.context
  return (t, s.context.scope [t])

def evalValue (s : Session) (e : ValueExpr) : Except Fault Value :=
  e.eval s.values

def evalSchema (s : Session) (columns : List (String × TypeExpr)) :
    Except Fault (Schema × Scope) := do
  let schema ← TypeExpr.schemaOf (← TypeExpr.evalFields s.context columns)
  return (schema, s.context.scope schema.types)

def evalTable (s : Session) (e : TableExpr) :
    Except Fault (Table × Scope) := do
  let t ← e.eval s.context
  return (t, s.context.scope t.schema.types)

def evalDatabase (s : Session) (e : DatabaseExpr) :
    Except Fault Database :=
  e.eval s.context

/-- The return type of a function on an input with the given columns. -/
def returnType (s : Session) (columns : List (String × TypeExpr))
    (name : String) : Except Fault (Ty × Scope) := do
  let (schema, _) ← s.evalSchema columns
  let t ← Fault.lift (s.registry.returnType name s.held schema)
  return (t, s.context.scope (t :: schema.types))

end Session

end Schemata
