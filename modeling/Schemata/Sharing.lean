/-!
# Visiting shared data once

One object can be part of another in many places, and a function that
follows every occurrence may take exponentially many steps. A `Visit` is
such a walk with a record of the objects that were met and of the results
for them, so that each object is entered once.

Objects are recognised by their address, which is no property of a value.
Nothing can depend on it: the record is hidden in a `Squash`, whose
elements are all equal, and a result is kept together with the proof that
it is the one of the plain function.
-/

namespace Schemata.Sharing

variable {α β : Type} {f : α → β}

/-- An object that was met, and the result for it. -/
structure Known (f : α → β) where
  object : α
  result : { r : β // r = f object }

/-- The objects that were met, by address. -/
abbrev Memo (f : α → β) := List (USize × Known f)

/-- The outcome of a part of the walk, and what is known after it. -/
abbrev Visit (f : α → β) (ρ : Type) := Squash (ρ × Memo f)

namespace Visit

def done {ρ : Type} (r : ρ) (memo : Memo f) : Visit f ρ :=
  Squash.mk (r, memo)

/-- Goes on with the outcome of a visit. -/
def next {ρ σ : Type} (v : Visit f ρ) (k : ρ → Memo f → Visit f σ) :
    Visit f σ :=
  Squash.lift v fun outcome => k outcome.1 outcome.2

/-- The outcome of the whole walk, which does not depend on the record. -/
def result {b : β} (v : Visit f { r : β // r = b }) : { r : β // r = b } :=
  have : Subsingleton { r : β // r = b } :=
    ⟨fun r s => Subtype.ext (r.2.trans s.2.symm)⟩
  Squash.lift v Prod.fst

end Visit

/-- The result for `a`, if it was met at this address. -/
def Memo.find? (same : DecidableEq α) (a : α) (address : USize) :
    Memo f → Option { r : β // r = f a }
  | [] => none
  | (key, known) :: memo =>
    if key == address then
      match withPtrEqDecEq known.object a fun _ => same known.object a with
      | .isTrue h => some ⟨known.result.1, h ▸ known.result.2⟩
      | .isFalse _ => Memo.find? same a address memo
    else Memo.find? same a address memo

/-- Visits `a`, unless it was met before. -/
def once (same : DecidableEq α) (a : α) (memo : Memo f)
    (visit : Memo f → Visit f { r : β // r = f a }) :
    Visit f { r : β // r = f a } :=
  withPtrAddr a
    (fun address =>
      match memo.find? same a address with
      | some r => .done r memo
      | none => (visit memo).next fun r memo =>
        .done r ((address, ⟨a, r⟩) :: memo))
    fun _ _ => Subsingleton.elim _ _

end Schemata.Sharing
