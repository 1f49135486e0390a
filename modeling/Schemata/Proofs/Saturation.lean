import Mathlib
import Schemata.Saturation

/-!
# Saturation reaches the least closed set

`saturate` adds what follows from the known elements for a bounded
number of rounds. Two facts are all that its users need:

- everything it finds is derivable from the start (`saturate_induction`),
  however many rounds there are;
- with enough rounds it stops because nothing new is derivable
  (`saturated_saturate`).

What is enough depends on the step, so the second one is stated for an
arbitrary measure that a productive round lowers. The two instances are
a step whose results come from a finite stock (`saturated_saturate_of_stock`)
and one that follows edges of which only those in a finite stock have any
(`saturated_saturate_of_edges`). The latter must not count the elements: an
end point need not be in the stock. It counts the ones that are still to
be expanded.
-/

namespace Schemata

variable {α : Type} [BEq α] [LawfulBEq α] {next : List α → List α}

theorem mem_newlyDerived {known : List α} {a : α} :
    a ∈ newlyDerived next known ↔ a ∈ next known ∧ a ∉ known := by
  simp [newlyDerived, List.mem_eraseDups]

omit [LawfulBEq α] in
theorem subset_saturate : ∀ {n : Nat} {known : List α},
    ∀ a ∈ known, a ∈ saturate next n known
  | 0, _, _, h => h
  | n + 1, known, a, h => by
      rw [saturate]
      split
      · exact h
      · exact subset_saturate a (List.mem_append.mpr (Or.inl h))

/-- What holds of the start and of all that is derived from elements of
which it holds, holds of everything that is found. -/
theorem saturate_induction {P : α → Prop}
    (hnext : ∀ known, (∀ a ∈ known, P a) → ∀ a ∈ next known, P a) :
    ∀ {n : Nat} {known : List α}, (∀ a ∈ known, P a) →
      ∀ a ∈ saturate next n known, P a
  | 0, _, hknown, a, h => hknown a h
  | n + 1, known, hknown, a, h => by
      rw [saturate] at h
      split at h
      · exact hknown a h
      · refine saturate_induction hnext ?_ a h
        intro b hb
        rcases List.mem_append.mp hb with hb | hb
        · exact hknown b hb
        · exact hnext known hknown b (mem_newlyDerived.mp hb).1

/-! ## Enough rounds -/

/-- Nothing more follows from these elements. -/
def Saturated (next : List α → List α) (known : List α) : Prop :=
  ∀ a ∈ next known, a ∈ known

theorem saturated_of_newlyDerived_nil {known : List α}
    (h : newlyDerived next known = []) : Saturated next known := by
  intro a ha
  by_contra hnot
  have hmem := mem_newlyDerived.mpr ⟨ha, hnot⟩
  rw [h] at hmem
  cases hmem

theorem saturated_saturate {μ : List α → Nat}
    (hμ : ∀ known, newlyDerived next known ≠ [] →
      μ (known ++ newlyDerived next known) < μ known) :
    ∀ {n : Nat} {known : List α}, μ known ≤ n →
      Saturated next (saturate next n known)
  | 0, known, hn => by
      apply saturated_of_newlyDerived_nil
      by_contra hne
      have hlt := hμ known hne
      omega
  | n + 1, known, hn => by
      rw [saturate]
      split
      · next hnil => exact saturated_of_newlyDerived_nil hnil
      · next hne =>
          have hlt := hμ known hne
          exact saturated_saturate hμ (by omega)

theorem exists_of_newlyDerived_ne_nil {known : List α}
    (h : newlyDerived next known ≠ []) : ∃ a ∈ next known, a ∉ known := by
  obtain ⟨a, ha⟩ := List.exists_mem_of_ne_nil _ h
  exact ⟨a, mem_newlyDerived.mp ha⟩

open Classical in
/-- Each productive round takes an element out of the stock. -/
theorem saturated_saturate_of_stock (stock : List α)
    (hstock : ∀ known, ∀ a ∈ next known, a ∈ stock) {n : Nat}
    (hn : stock.length ≤ n) (known : List α) :
    Saturated next (saturate next n known) := by
  let left (known : List α) : Finset α := stock.toFinset.filter (· ∉ known)
  refine saturated_saturate (μ := fun known => (left known).card) ?_ ?_
  · intro known hne
    obtain ⟨a, ha, hnew⟩ := exists_of_newlyDerived_ne_nil hne
    apply Finset.card_lt_card
    refine ⟨?_, fun hsub => ?_⟩
    · intro b hb
      simp only [left, Finset.mem_filter, List.mem_append, not_or] at hb ⊢
      exact ⟨hb.1, hb.2.1⟩
    · have hin : a ∈ left known := by simp [left, hstock known a ha, hnew]
      have hout := hsub hin
      simp only [left, Finset.mem_filter, List.mem_append, not_or] at hout
      exact hout.2.2 (mem_newlyDerived.mpr ⟨ha, hnew⟩)
  · calc (left known).card ≤ stock.toFinset.card := Finset.card_filter_le _ _
      _ ≤ stock.length := stock.toFinset_card_le
      _ ≤ n := hn

open Classical in
/-- Each productive round expands an element of the stock that was not
expanded before. -/
theorem saturated_saturate_of_edges {edges : α → List α} (stock : List α)
    (hstock : ∀ a, edges a ≠ [] → a ∈ stock) {n : Nat}
    (hn : stock.length ≤ n) (start : List α) :
    Saturated (fun known => known.flatMap edges)
      (saturate (fun known => known.flatMap edges) n start) := by
  let waiting (known : List α) : Finset α :=
    stock.toFinset.filter fun a => ¬(a ∈ known ∧ ∀ b ∈ edges a, b ∈ known)
  refine saturated_saturate (μ := fun known => (waiting known).card) ?_ ?_
  · intro known hne
    obtain ⟨b, hb, hnew⟩ := exists_of_newlyDerived_ne_nil hne
    obtain ⟨a, ha, hab⟩ := List.mem_flatMap.mp hb
    have hadded : ∀ c ∈ known.flatMap edges,
        c ∈ known ++ newlyDerived (fun known => known.flatMap edges) known := by
      intro c hc
      by_cases hk : c ∈ known
      · exact List.mem_append.mpr (Or.inl hk)
      · exact List.mem_append.mpr (Or.inr (mem_newlyDerived.mpr ⟨hc, hk⟩))
    apply Finset.card_lt_card
    refine ⟨?_, fun hsub => ?_⟩
    · intro c hc
      simp only [waiting, Finset.mem_filter] at hc ⊢
      refine ⟨hc.1, fun hdone => hc.2 ⟨?_, fun d hd => ?_⟩⟩
      · exact List.mem_append.mpr (Or.inl hdone.1)
      · exact List.mem_append.mpr (Or.inl (hdone.2 d hd))
    · have hin : a ∈ waiting known := by
        simp only [waiting, Finset.mem_filter, List.mem_toFinset]
        refine ⟨hstock a (List.ne_nil_of_mem hab), fun hdone => ?_⟩
        exact hnew (hdone.2 b hab)
      have hout := hsub hin
      simp only [waiting, Finset.mem_filter] at hout
      refine hout.2 ⟨List.mem_append.mpr (Or.inl ha), fun c hc => ?_⟩
      exact hadded c (List.mem_flatMap.mpr ⟨a, ha, hc⟩)
  · calc (waiting start).card ≤ stock.toFinset.card := Finset.card_filter_le _ _
      _ ≤ stock.length := stock.toFinset_card_le
      _ ≤ n := hn

end Schemata
