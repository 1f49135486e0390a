import Schemata.Scope

/-!
# Subtyping

The rules, in the order in which they are tried:

- equal types are subtypes of each other, and every type is one of `Any`;
- references are followed;
- `a` is a subtype of a union when it is one of some variant;
- a union is a subtype of `b` when every variant is one;
- a struct is a subtype of a struct when it has every field of it, with a
  subtype.

Nothing else is related; in particular arrays, tuples and maps have no
subtypes but equal ones.

Recursive types could make the search endless, so comparisons in progress
are remembered. Meeting the same expansion of a recursive union again
means that no progress was made, and it fails; meeting the same pair of
structs, one of them recursive, is assumed to succeed.

The search is given as many steps as it can need: between two remembered
pairs every step descends into a part, and there are no more pairs to
remember than pairs of parts.
-/

namespace Schemata

/-- Comparisons in progress: expansions of recursive unions, and pairs of
structs of which at least one is recursive. -/
structure Pending where
  unions : List (Ty × Ty)
  structs : List (Ty × Ty)

namespace Pending

def empty : Pending := ⟨[], []⟩

def withUnion (pending : Pending) (a b : Ty) : Pending :=
  { pending with unions := (a, b) :: pending.unions }

def withStruct (pending : Pending) (a b : Ty) : Pending :=
  { pending with structs := (a, b) :: pending.structs }

/-- Applies a union rule to `(a, b)`. A recursive union is expanded only
once for equal pairs. -/
def expand (pending : Pending) (recursive : Bool) (a b : Ty)
    (rule : Pending → Bool) : Bool :=
  if recursive then
    !pending.unions.contains (a, b) && rule (pending.withUnion a b)
  else rule pending

/-- Applies the struct rule to `(a, b)`. A pair with a recursive struct is
assumed to hold inside of its own comparison. -/
def assume (pending : Pending) (recursive : Bool) (a b : Ty)
    (rule : Pending → Bool) : Bool :=
  if recursive then
    pending.structs.contains (a, b) || rule (pending.withStruct a b)
  else rule pending

end Pending

namespace Scope

/-- The search with at most `steps` nested comparisons. -/
def subtypeWithin (S : Scope) : Nat → Pending → Ty → Ty → Bool
  | 0, _, _, _ => false
  | steps + 1, pending, a, b =>
    a == b || b.isAny ||
    let a := S.resolve a
    let b := S.resolve b
    (match b with
      | .union label variants =>
        pending.expand label.isRecursive a b fun pending =>
          variants.any fun v => S.subtypeWithin steps pending a v
      | _ => false) ||
    (match a with
      | .union label variants =>
        pending.expand label.isRecursive a b fun pending =>
          variants.all fun v => S.subtypeWithin steps pending v b
      | _ => false) ||
    match a, b with
    | .struct la fields, .struct lb required =>
      pending.assume (la.isRecursive || lb.isRecursive) a b fun pending =>
        required.all fun field =>
          match fields.lookup field.1 with
          | some declared => S.subtypeWithin steps pending declared field.2
          | none => false
    | _, _ => false

/-- More nested comparisons than the search on `a` and `b` can have. -/
def subtypeSteps (S : Scope) (a b : Ty) : Nat :=
  let parts := a.size + b.size + S.size + 1
  4 * (parts * parts * parts)

def isSubtype (S : Scope) (a b : Ty) : Bool :=
  S.subtypeWithin (S.subtypeSteps a b) .empty a b

/-- One of the two is a subtype of the other. -/
def isCompatible (S : Scope) (a b : Ty) : Bool :=
  S.isSubtype a b || S.isSubtype b a

end Scope

end Schemata
