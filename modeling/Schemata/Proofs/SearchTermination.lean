import Mathlib
import Schemata.Proofs.UnionLaws

/-!
# The search for a subtype ends by itself

The search is written with a number of steps that bounds how deep its
comparisons nest. The bound is a matter of presentation: without it the
search would be the same, a function that calls itself on the comparisons
that one comparison asks for (`Scope.subtypeStep`).

`Scope.Calls` are these calls. A comparison depends on nothing else
(`subtypeStep_congr`), and no sequence of nested calls goes on for ever,
whatever definitions are in scope and whatever is in progress
(`calls_wellFounded`). There is no order on types behind this. Following a
reference makes a type larger, plain unions and structs are opened without
a record, and the two sides take turns. But a reference is only followed to
a recursive type, whose rule records a pair that was not recorded before;
between two records every call descends into a component on one side. Both
are in the measure `cost`, which is relative to a list of types that covers
everything a comparison can meet.

So the equation of the search has exactly one solution, and it is what the
search with bounded steps computes.
-/

namespace Schemata

/-- Two types to be compared, and what is in progress. -/
structure Comparison where
  pending : Pending
  left : Ty
  right : Ty

namespace Scope

variable {S : Scope}

/-- `c` asks for `d`: it is not settled at once, and `d` is opened for what
its types resolve to. -/
def Calls (S : Scope) (c d : Comparison) : Prop :=
  (c.left == c.right) = false ∧ c.right ≠ .any
    ∧ Opens c.pending (S.resolve c.left) (S.resolve c.right)
        d.pending d.left d.right

/-- A comparison that succeeds does so with any way to compare that agrees
on what it asks for. -/
theorem subtypeStep_of_calls {check check' : Pending → Ty → Ty → Bool}
    {c : Comparison}
    (h : ∀ d, S.Calls c d → check d.pending d.left d.right = true →
      check' d.pending d.left d.right = true)
    (hstep : S.subtypeStep check c.pending c.left c.right = true) :
    S.subtypeStep check' c.pending c.left c.right = true := by
  refine subtypeStep_iff.mpr ?_
  by_cases heq : (c.left == c.right) = true
  · exact Or.inl heq
  by_cases hany : c.right = .any
  · exact Or.inr (Or.inl hany)
  have hrule :=
    ((subtypeStep_iff.mp hstep).resolve_left heq).resolve_left hany
  refine Or.inr (Or.inr (hrule.opens.imp ?_))
  rintro P' x y ⟨hsub, hopens⟩
  exact h ⟨P', x, y⟩ ⟨by simpa using heq, hany, hopens⟩ hsub

/-- A comparison depends on nothing but what it asks for. -/
theorem subtypeStep_congr {check check' : Pending → Ty → Ty → Bool}
    {c : Comparison}
    (h : ∀ d, S.Calls c d →
      check d.pending d.left d.right = check' d.pending d.left d.right) :
    S.subtypeStep check c.pending c.left c.right
      = S.subtypeStep check' c.pending c.left c.right := by
  rw [Bool.eq_iff_iff]
  constructor
  · exact subtypeStep_of_calls fun d hd hsub => (h d hd) ▸ hsub
  · exact subtypeStep_of_calls fun d hd hsub => (h d hd).symm ▸ hsub

/-! ## The calls come to an end -/

/-- A call stays within what is covered and can cost less. -/
theorem Calls.cost_lt {W : List Ty} (hW : S.Covers W) {c d : Comparison}
    (h : S.Calls c d) (hleft : c.left ∈ W) (hright : c.right ∈ W) :
    d.left ∈ W ∧ d.right ∈ W
      ∧ cost W d.pending d.left d.right < cost W c.pending c.left c.right := by
  obtain ⟨-, -, hopens⟩ := h
  have hlt := hopens.cost_lt hW (hW.resolve hleft) (hW.resolve hright)
  rwa [cost_resolve] at hlt

theorem acc_calls {W : List Ty} (hW : S.Covers W) {n : Nat} :
    ∀ {c : Comparison}, c.left ∈ W → c.right ∈ W →
      cost W c.pending c.left c.right ≤ n →
      Acc (fun d c => S.Calls c d) c := by
  induction n with
  | zero =>
      intro c _ _ hn
      unfold cost at hn
      omega
  | succ n ih =>
      intro c hleft hright hn
      refine Acc.intro c fun d hd => ?_
      obtain ⟨hleft', hright', hlt⟩ := hd.cost_lt hW hleft hright
      exact ih hleft' hright' (by omega)

theorem calls_wellFounded (S : Scope) :
    WellFounded fun d c => S.Calls c d := by
  refine ⟨fun c => ?_⟩
  exact acc_calls (S.covers_allParts c.left c.right)
    (S.left_mem_allParts ..) (S.right_mem_allParts ..) (Nat.le_refl _)

/-- Nested calls are no more than the first one can cost. -/
theorem length_lt_cost {W : List Ty} (hW : S.Covers W) {ds : List Comparison} :
    ∀ {c : Comparison}, c.left ∈ W → c.right ∈ W →
      (c :: ds).IsChain S.Calls →
      ds.length < cost W c.pending c.left c.right := by
  induction ds with
  | nil =>
      intro c _ _ _
      show 0 < cost W c.pending c.left c.right
      unfold cost
      omega
  | cons d ds ih =>
      intro c hleft hright hchain
      obtain ⟨hcall, hchain⟩ := List.isChain_cons_cons.mp hchain
      obtain ⟨hleft', hright', hlt⟩ := hcall.cost_lt hW hleft hright
      have hlength := ih hleft' hright' hchain
      rw [List.length_cons]
      omega

/-! ## The search without steps -/

open Classical in
/-- What a comparison finds, with as many steps as it takes. -/
noncomputable def check (S : Scope) (P : Pending) (a b : Ty) : Bool :=
  decide (S.SubtypeUnder P a b)

theorem check_iff {P : Pending} {a b : Ty} :
    S.check P a b = true ↔ S.SubtypeUnder P a b := by
  simp [check]

theorem check_eq (S : Scope) (P : Pending) (a b : Ty) :
    S.check P a b = S.subtypeStep S.check P a b := by
  rw [Bool.eq_iff_iff, subtypeStep_iff]
  simp only [check_iff]
  exact subtypeUnder_iff

theorem isSubtype_eq_check (S : Scope) (a b : Ty) :
    S.isSubtype a b = S.check .empty a b := by
  rw [Bool.eq_iff_iff, check_iff]
  exact isSubtype_iff_subtypeUnder

/-- Two functions that satisfy the equation of the search are the same. -/
theorem check_unique {f g : Pending → Ty → Ty → Bool}
    (hf : ∀ P a b, f P a b = S.subtypeStep f P a b)
    (hg : ∀ P a b, g P a b = S.subtypeStep g P a b) : f = g := by
  have hall : ∀ c : Comparison,
      f c.pending c.left c.right = g c.pending c.left c.right := by
    intro c
    induction c using S.calls_wellFounded.induction with
    | _ c ih =>
        rw [hf, hg]
        exact subtypeStep_congr ih
  funext P a b
  exact hall ⟨P, a, b⟩

/-- In every scope, comparisons call each other in a well-founded way, and
from the start no deeper than the steps that the search is given. The
search therefore is the one function that makes every comparison by the
comparisons it asks for. -/
theorem search_terminates (S : Scope) :
    (WellFounded fun d c => S.Calls c d)
    ∧ (∀ a b ds, (⟨.empty, a, b⟩ :: ds).IsChain S.Calls →
        ds.length < S.subtypeSteps a b)
    ∧ (∀ f g c, (∀ d, S.Calls c d →
          f d.pending d.left d.right = g d.pending d.left d.right) →
        S.subtypeStep f c.pending c.left c.right
          = S.subtypeStep g c.pending c.left c.right)
    ∧ ∃ f, (∀ P a b, f P a b = S.subtypeStep f P a b)
        ∧ (∀ g, (∀ P a b, g P a b = S.subtypeStep g P a b) → g = f)
        ∧ ∀ a b, S.isSubtype a b = f .empty a b := by
  refine ⟨S.calls_wellFounded, fun a b ds hchain => ?_,
    fun f g c => subtypeStep_congr, S.check, S.check_eq, fun g hg => ?_,
    S.isSubtype_eq_check⟩
  · have hlength := length_lt_cost (S.covers_allParts a b)
      (S.left_mem_allParts a b) (S.right_mem_allParts a b) hchain
    exact Nat.lt_of_lt_of_le hlength (S.cost_le_subtypeSteps a b)
  · exact check_unique hg S.check_eq

end Scope

end Schemata
