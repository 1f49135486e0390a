import Schemata.Saturation
import Schemata.Ty.Build
import Schemata.Ty.Contents

/-!
# What a reference can be followed to

A self-reference does not keep its target alive. It resolves exactly while
the target is part of some type that is held: `Scope.ofHeld` collects the
recursive definitions among the parts of the held types, and
`Scope.resolve` looks a reference up there. A definition that is still under
construction, or that nobody holds any more, is in no scope.
-/

namespace Schemata

/-- The recursive definitions that are alive. -/
structure Scope where
  definitions : List Ty

namespace Scope

/-- The definitions among the parts of the held types. -/
def ofHeld (held : List Ty) : Scope := ⟨(Ty.contentsOf held).definitions⟩

/-- The identities of the definitions. -/
def ids (S : Scope) : List DefId := S.definitions.filterMap Ty.defId?

def find? (S : Scope) (id : DefId) : Option Ty :=
  S.definitions.find? fun d => d.defId? == some id

/-- Follows a reference; one that cannot be followed, and any other type,
is left as it is. -/
def resolve (S : Scope) (t : Ty) : Ty :=
  match t with
  | .ref _ _ target => (S.find? target).getD t
  | _ => t

/-- Number of parts of all definitions. -/
def size (S : Scope) : Nat := (Ty.contentsOf S.definitions).size

/-! ## Null -/

/-- `Null`, `Any`, and unions with `Null` as a variant accept null. -/
def isNullable (S : Scope) (t : Ty) : Bool :=
  match S.resolve t with
  | .null | .any => true
  | .union _ variants => variants.any Ty.isNull
  | _ => false

/-- The type that accepts null besides the values of `t`. -/
def nullable (S : Scope) (t : Ty) : Ty :=
  if S.isNullable t then t
  else .union (.plain none) (Ty.distinct (t.flattened ++ [.null]))

/-! ## Reachable definitions -/

/-- The definitions to which the definition `id` refers. -/
def outgoing (S : Scope) (id : DefId) : List DefId :=
  match S.find? id with
  | some d => d.references
  | none => []

/-- Everything that can be reached by following references. Only a round
that finds a definition in scope can be followed by a productive one, so
there are no more rounds than definitions. -/
def reach (S : Scope) (start : List DefId) : List DefId :=
  saturate (fun known => known.flatMap S.outgoing) S.definitions.length start

end Scope

end Schemata
