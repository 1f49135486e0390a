import Schemata.Scope

/-!
# Recursive definitions

A definition is checked when its fields or variants are known, before it
comes into being: references to it are recognised by its `DefId`, and
following them is not possible yet.

Two questions decide the outcome, both asked of each member:

- does it *mention* the definition, through any containment and any
  reference that can be followed (`Scope.mentions`)? Then the definition is
  recursive, and must have a name;
- does it *force* the definition, that is, can the member only be satisfied
  by a value that contains another value of the definition
  (`Scope.forces`)? Arrays and maps may be empty and force nothing, a tuple
  forces what any of its elements forces, a struct what any field forces,
  a union what all its variants force. A struct with a forcing field, and a
  union all of whose variants are forcing, has no finite value.
-/

namespace Schemata

/-! ## Mentioning and forcing -/

/-- Whether `id` can be reached from `t`. -/
def Scope.mentions (S : Scope) (id : DefId) (t : Ty) : Bool :=
  (S.reach t.references).contains id

namespace Ty

mutual

/-- Whether every value of the type contains a value of a definition for
which `forced` holds. -/
def forcing (forced : DefId → Bool) : Ty → Bool
  | .tuple elements => anyForcing forced elements
  | .struct _ fields => anyFieldForcing forced fields
  | .union _ variants => allForcing forced variants
  | .ref _ _ target => forced target
  | _ => false

def anyForcing (forced : DefId → Bool) : List Ty → Bool
  | [] => false
  | t :: ts => forcing forced t || anyForcing forced ts

def allForcing (forced : DefId → Bool) : List Ty → Bool
  | [] => true
  | t :: ts => forcing forced t && allForcing forced ts

def anyFieldForcing (forced : DefId → Bool) : List (String × Ty) → Bool
  | [] => false
  | (_, t) :: fields => forcing forced t || anyFieldForcing forced fields

end

end Ty

namespace Scope

/-- Whether `id` is `target` or one of the `known` definitions. -/
def forcedBy (target : DefId) (known : List DefId) (id : DefId) : Bool :=
  id == target || known.contains id

/-- The definitions that force `target`, given that `known` ones do. -/
def forcingGiven (S : Scope) (target : DefId) (known : List DefId) :
    List DefId :=
  S.ids.filter fun id =>
    match S.find? id with
    | some d => d.forcing (forcedBy target known)
    | none => false

/-- The definitions in scope that force `target`. -/
def forcingDefinitions (S : Scope) (target : DefId) : List DefId :=
  saturate (S.forcingGiven target) S.definitions.length []

/-- Whether `t` can only be satisfied by a value that contains a value of
`target`. -/
def forces (S : Scope) (target : DefId) (t : Ty) : Bool :=
  t.forcing (forcedBy target (S.forcingDefinitions target))

end Scope

/-! ## Definitions -/

/-- What stands for a definition while its members are being built. -/
structure Handle where
  form : Form
  name : Option String
  id : DefId

namespace Handle

/-- The reference by which the members refer to the definition. -/
def ref (h : Handle) : Ty :=
  .ref h.form (h.name.getD Ty.anonymousName) h.id

/-- The label of a definition; there is none for recursion without a
name. -/
def label? (h : Handle) (recursive : Bool) : Option Label :=
  match recursive, h.name with
  | false, name => some (.plain name)
  | true, some name => some (.recursive name h.id)
  | true, none => none

/-- Completes a struct, while `held` and the fields are held. -/
def defineStruct (h : Handle) (held : List Ty)
    (fields : List (String × Ty)) : Except Error Ty := do
  let fields ← Ty.checkedFields h.name fields
  let S := Scope.ofHeld (held ++ fields.map Prod.snd)
  let recursive := fields.any fun field => S.mentions h.id field.2
  let some label := h.label? recursive
    | throw (.anonymousRecursion (Ty.fieldsSignature fields))
  match fields.find? fun field => S.forces h.id field.2 with
  | some (name, t) =>
    throw (.unconditionalCycle h.name (Ty.fieldText name t.signature))
  | none => return .struct label fields

/-- Completes a union, while `held` and the variants are held. -/
def defineUnion (h : Handle) (held : List Ty) (variants : List Ty) :
    Except Error Ty := do
  let variants ← Ty.checkedVariants variants
  let S := Scope.ofHeld (held ++ variants)
  let recursive := variants.any fun t => S.mentions h.id t
  let some label := h.label? recursive
    | throw (.anonymousRecursion (Ty.variantsSignature variants))
  if variants.all fun t => S.forces h.id t then
    throw (.unconditionalCycle h.name (Ty.variantsSignature variants))
  return .union label variants

end Handle

end Schemata
