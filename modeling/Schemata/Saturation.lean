/-!
# Saturation of a finite set

Two questions about recursive types are least fixed points over the
finitely many definitions at hand: which definitions a type can reach, and
which ones can only be satisfied by an endless value. Both are answered by
adding what follows from the known elements, round after round, until a
round adds nothing.

The number of rounds is bounded by the caller. A productive round adds at
least one new element, so as many rounds as there are candidates suffice.
-/

namespace Schemata

/-- The elements that `next` derives from `known` and that are new. -/
def newlyDerived {α : Type} [BEq α] (next : List α → List α)
    (known : List α) : List α :=
  ((next known).filter fun a => !known.contains a).eraseDups

/-- At most `rounds` rounds of adding to `known` what `next` derives. -/
def saturate {α : Type} [BEq α] (next : List α → List α) :
    Nat → List α → List α
  | 0, known => known
  | rounds + 1, known =>
    match newlyDerived next known with
    | [] => known
    | new => saturate next rounds (known ++ new)

end Schemata
