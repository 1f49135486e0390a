import Mathlib
import Schemata.Proofs.Evaluation

/-!
# Definitions that come into being have new identities

A definition takes its identity where it begins, and at that point nothing
at hand mentions it, neither as a definition nor through a reference. What
is evaluated before the definition is complete can hold other definitions,
which begin later and take later identities. So every definition inside of
an evaluated type was at hand, or has an identity from the first free one on
(`TypeExpr.eval_newOrHere`). A reference that is at hand has an identity
below that, which is why none can be led to something that is built after
it.

The statement is about one context, and evaluation goes on in others: it
holds operands, binds local names and enters definitions. What carries over
is that a later context has no definitions but those of the earlier one and
new ones (`Context.Precedes`).
-/

namespace Schemata

namespace Context

variable {Γ Δ Ε : Context} {t u : Ty}

/-! ## The first free identity -/

theorem foldl_max_le {ids : List DefId} {n : Nat} :
    ∀ {start : Nat}, start ≤ n → (∀ id ∈ ids, id ≤ n) →
      ids.foldl max start ≤ n := by
  induction ids with
  | nil => exact fun hstart _ => hstart
  | cons i ids ih =>
      intro start hstart hids
      obtain ⟨hi, hids⟩ := List.forall_mem_cons.mp hids
      exact ih (Nat.max_le.mpr ⟨hstart, hi⟩) hids

/-- Where more is at hand, fewer identities are free. -/
theorem fresh_le_fresh (hhere : ∀ p, Γ.Here p → Δ.Here p)
    (hhandles : ∀ k ∈ Γ.handles, k ∈ Δ.handles) : Γ.fresh ≤ Δ.fresh := by
  refine Nat.succ_le_of_lt (Nat.lt_succ_of_le ?_)
  refine foldl_max_le (Nat.zero_le _) fun id hid => Nat.le_of_lt_succ ?_
  refine lt_fresh ?_
  rw [Ty.contentsOf_eq, List.mem_append, List.mem_append] at hid
  rcases hid with (hid | hid) | hid
  · obtain ⟨p, hp, htarget⟩ := (Ty.mem_references_list Γ.held).mp hid
    exact Or.inl ⟨p, hhere p hp, Or.inl htarget⟩
  · obtain ⟨d, hd, hdef⟩ := List.mem_filterMap.mp hid
    have hpart := Ty.mem_partsOfList_of_mem_definitions Γ.held hd
    exact Or.inl ⟨d, hhere d hpart, Or.inr hdef⟩
  · obtain ⟨k, hk, rfl⟩ := List.mem_map.mp hid
    exact Or.inr (List.mem_map_of_mem (hhandles k hk))

/-! ## New definitions -/

/-- Definitions inside of the type are at hand, or have an identity that is
free. -/
def NewOrHere (Γ : Context) (t : Ty) : Prop :=
  ∀ p ∈ t.parts, ∀ id, p.defId? = some id → Γ.Here p ∨ Γ.fresh ≤ id

/-- `Δ` has no more definitions than `Γ` but new ones. -/
structure Precedes (Γ Δ : Context) : Prop where
  fresh : Γ.fresh ≤ Δ.fresh
  here : ∀ p id, Δ.Here p → p.defId? = some id → Γ.Here p ∨ Γ.fresh ≤ id

namespace Precedes

theorem refl (Γ : Context) : Γ.Precedes Γ :=
  ⟨Nat.le_refl _, fun _ _ hp _ => Or.inl hp⟩

theorem trans (h : Γ.Precedes Δ) (h' : Δ.Precedes Ε) : Γ.Precedes Ε where
  fresh := Nat.le_trans h.fresh h'.fresh
  here p id hp hid := by
    rcases h'.here p id hp hid with hp | hle
    · exact h.here p id hp hid
    · exact Or.inr (Nat.le_trans h.fresh hle)

theorem newOrHere (h : Γ.Precedes Δ) (ht : Δ.NewOrHere t) :
    Γ.NewOrHere t := by
  intro p hp id hid
  rcases ht p hp id hid with hp | hle
  · exact h.here p id hp hid
  · exact Or.inr (Nat.le_trans h.fresh hle)

theorem hold (ht : Γ.NewOrHere t) : Γ.Precedes (Γ.hold t) where
  fresh := fresh_le_fresh (fun _ hp => here_hold.mpr (Or.inr hp))
    fun _ hk => hk
  here p id hp hid := by
    rcases here_hold.mp hp with hp | hp
    · exact ht p hp id hid
    · exact Or.inl hp

theorem bind (name : String) (ht : Γ.NewOrHere t) :
    Γ.Precedes (Γ.bind name t) where
  fresh := fresh_le_fresh (fun _ hp => here_bind.mpr (Or.inr hp))
    fun _ hk => hk
  here p id hp hid := by
    rcases here_bind.mp hp with hp | hp
    · exact ht p hp id hid
    · exact Or.inl hp

theorem enter (Γ : Context) (k : Handle) : Γ.Precedes (Γ.enter k) where
  fresh := fresh_le_fresh (fun _ hp => hp) fun _ hk =>
    List.mem_cons_of_mem k hk
  here _ _ hp _ := Or.inl hp

end Precedes

namespace NewOrHere

theorem of_here (h : Γ.Here t) : Γ.NewOrHere t :=
  fun _ hp _ _ => Or.inl (h.part hp)

theorem part (h : Γ.NewOrHere t) (hu : u ∈ t.parts) : Γ.NewOrHere u :=
  fun p hp => h p (Ty.mem_parts_trans hp hu)

theorem component (h : Γ.NewOrHere t) (hu : u ∈ t.components) :
    Γ.NewOrHere u :=
  h.part (Ty.mem_parts_of_component hu)

/-- A node that is no definition, or a new one. -/
theorem node (hid : ∀ id, t.defId? = some id → Γ.fresh ≤ id)
    (hc : ∀ c ∈ t.components, Γ.NewOrHere c) : Γ.NewOrHere t := by
  refine Ty.forall_parts ?_ fun c hmem p hp => ?_
  · exact fun id h => Or.inr (hid id h)
  · exact hc c hmem p hp

theorem plainNode (hid : t.defId? = none)
    (hc : ∀ c ∈ t.components, Γ.NewOrHere c) : Γ.NewOrHere t := by
  refine node (fun id h => ?_) hc
  rw [hid] at h
  cases h

theorem leaf (hid : t.defId? = none) (hnil : t.components = []) :
    Γ.NewOrHere t := by
  refine plainNode hid fun c hc => ?_
  rw [hnil] at hc
  cases hc

theorem scalar (ht : ∃ s, t = .scalar s ∧ s.WithinLimits) :
    Γ.NewOrHere t := by
  obtain ⟨s, rfl, -⟩ := ht
  exact leaf rfl rfl

theorem structOf {name : Option String} {fields : List (String × Ty)}
    (hfields : ∀ c ∈ fields.map Prod.snd, Γ.NewOrHere c)
    (hok : Ty.structOf name fields = .ok t) : Γ.NewOrHere t := by
  obtain ⟨rfl, -⟩ := Ty.structOf_ok hok
  exact plainNode rfl hfields

theorem unionOfList {name : Option String} {variants : List Ty}
    (hvariants : ∀ v ∈ variants, Γ.NewOrHere v)
    (hok : Ty.unionOfList name variants = .ok t) : Γ.NewOrHere t := by
  obtain ⟨rfl, -⟩ := Ty.unionOfList_ok hok
  exact plainNode rfl fun v hv => hvariants v (Ty.mem_of_mem_distinct hv)

theorem flattened (h : Γ.NewOrHere t) (hu : u ∈ t.flattened) :
    Γ.NewOrHere u := by
  rcases Ty.mem_flattened hu with rfl | hu
  · exact h
  · exact h.component hu

theorem nullable (h : Γ.NewOrHere t) (S : Scope) :
    Γ.NewOrHere (S.nullable t) := by
  unfold Scope.nullable
  split
  · exact h
  · refine plainNode rfl fun v hv => ?_
    rcases List.mem_append.mp (Ty.mem_of_mem_distinct hv) with hv | hv
    · exact h.flattened hv
    · rw [List.mem_singleton.mp hv]
      exact leaf rfl rfl

theorem resolve (h : Γ.NewOrHere t) :
    Γ.NewOrHere ((Γ.scope [t]).resolve t) := by
  have hheld : t ∈ Γ.held ++ [t] := List.mem_append_right _ (by simp)
  have hmem := Scope.resolve_mem_parts (Ty.mem_partsOfList_self hheld)
  rw [Ty.partsOfList_append, List.mem_append] at hmem
  rcases hmem with hmem | hmem
  · exact of_here hmem
  · obtain ⟨u, hu, hmem⟩ := Ty.mem_partsOfList.mp hmem
    rw [List.mem_singleton.mp hu] at hmem
    exact h.part hmem

/-- What a definition that begins here is completed to. -/
theorem completed {k : Handle} (hk : k.id = Γ.fresh) (ht : k.Completed t)
    (hc : ∀ c ∈ t.components, (Γ.enter k).NewOrHere c) : Γ.NewOrHere t := by
  refine node (fun id hid => ?_) fun c hmem => ?_
  · rcases ht.identity with hnone | ⟨hsome, -⟩
    · rw [hnone] at hid
      cases hid
    · rw [hsome, hk] at hid
      exact Nat.le_of_eq (Option.some.inj hid)
  · exact (Precedes.enter Γ k).newOrHere (hc c hmem)

end NewOrHere

end Context

/-! ## Expressions -/

namespace TypeExpr

open Context

/-- A definition inside of an evaluated type was at hand, or is new. -/
theorem newOrHere_rules :
    Rules
      (fun Γ t => (∀ entry ∈ Γ.values, entry.2.NamesDistinct) →
        Γ.NewOrHere t)
      (fun Γ ts => (∀ entry ∈ Γ.values, entry.2.NamesDistinct) →
        ∀ t ∈ ts, Γ.NewOrHere t)
      (fun Γ Δ => (∀ entry ∈ Γ.values, entry.2.NamesDistinct) →
        Γ.Precedes Δ ∧ Δ.values = Γ.values) where
  any _ := .leaf rfl rfl
  null _ := .leaf rfl rfl
  scalar hok _ := .scalar (Ty.ofScalar_ok hok)
  array ht hΓ := .plainNode rfl (List.forall_mem_singleton.mpr (ht hΓ))
  tuple hts hΓ := .plainNode rfl (hts hΓ)
  map hboth hok hΓ := by
    obtain ⟨s, rfl, rfl⟩ := Ty.mapOf_ok hok
    exact .plainNode rfl (hboth hΓ)
  unionOf hboth hok hΓ := by
    obtain ⟨ha, hb⟩ := List.forall_mem_cons.mp (hboth hΓ)
    refine .unionOfList (fun v hv => ?_) hok
    rcases List.mem_append.mp hv with hv | hv
    · exact ha.flattened hv
    · exact (List.forall_mem_singleton.mp hb).flattened hv
  nullable ht hΓ := (ht hΓ).nullable _
  struct hfields hok hΓ := .structOf (hfields hΓ) hok
  union hvariants hok hΓ := .unionOfList (hvariants hΓ) hok
  defineStruct hlets hfields hok hΓ := by
    obtain ⟨hprecedes, hvalues⟩ := hlets hΓ
    obtain ⟨hdone, hcomponents⟩ := Handle.defineStruct_ok rfl hok
    refine .completed rfl hdone fun c hc => hprecedes.newOrHere ?_
    exact hfields (hvalues.symm ▸ hΓ) c (hcomponents ▸ hc)
  defineUnion hlets hvariants hok hΓ := by
    obtain ⟨hprecedes, hvalues⟩ := hlets hΓ
    obtain ⟨hdone, hcomponents⟩ := Handle.defineUnion_ok rfl hok
    refine .completed rfl hdone fun c hc => hprecedes.newOrHere ?_
    exact hvariants (hvalues.symm ▸ hΓ) c
      (Ty.mem_of_mem_distinct (hcomponents ▸ hc))
  handle _ _ := .leaf rfl rfl
  held ht _ := .of_here (here_held ht)
  component ht hc hΓ := (ht hΓ).component hc
  resolve ht hΓ := (ht hΓ).resolve
  natural {Γ e v} hv hΓ := by
    have hplain := Value.naturalType_plain (e.eval_namesDistinct hΓ hv)
    intro p hp id hid
    rw [(hplain p hp).1] at hid
    cases hid
  nil _ _ ht := (List.not_mem_nil ht).elim
  cons ht hts hΓ := by
    have hnew := ht hΓ
    refine List.forall_mem_cons.mpr ⟨hnew, fun u hu => ?_⟩
    exact (Precedes.hold hnew).newOrHere (hts hΓ u hu)
  stay _ := ⟨.refl _, rfl⟩
  bind {Γ Δ name t} ht hrest hΓ := by
    obtain ⟨hprecedes, hvalues⟩ := hrest hΓ
    exact ⟨(Precedes.bind name (ht hΓ)).trans hprecedes, hvalues⟩

theorem eval_newOrHere (e : TypeExpr) {Γ : Context} {t : Ty}
    (hΓ : ∀ entry ∈ Γ.values, entry.2.NamesDistinct)
    (h : eval Γ e = .ok t) : Γ.NewOrHere t :=
  newOrHere_rules.eval e h hΓ

end TypeExpr

end Schemata
