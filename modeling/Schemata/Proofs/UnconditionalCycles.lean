import Mathlib
import Schemata.Proofs.Building
import Schemata.Proofs.Saturation

/-!
# Unconditional cycles

A member of a definition is refused if every value of it would contain a
value of the definition again. `Scope.Forces` says by rules when this is so.
A derivation is finite, so what only leads back to itself forces nothing.

Two ways to decide it are proved right. `Scope.forces` computes all
definitions in scope that force the one under construction, by saturation
(`Scope.forces_iff`). The other way is a depth-first search through the
nodes in memory, of which one may be part of several others
(`Scope.Layout`). It keeps the structs and unions on its current path and
answers `false` where it comes back to one of them (`Layout.search`). Not to
go round in circles it needs no more than that: following a reference leads
to the node of a definition, which is then on the path, and everything else
descends in the type.

That the search misses nothing is less plain, because a union needs all its
variants and one that is cut off spoils it. But a derivation that passes
through a node contains one for the same node that does not pass through it
again (`Scope.ForcesAvoiding.cut`). So whatever is forced is forced without
opening a node on the path.

For definitions, `Handle.defineStruct_cases` and `Handle.defineUnion_cases`
list all that completing one can come to. The question is the last that is
asked, so if the others are passed the outcome is a refusal or the definition
(`unconditional_cycle_iff_forces`).
-/

namespace Schemata

namespace Scope

variable {S : Scope} {target : DefId}

/-! ## The rules -/

/-- Every value of the type contains a value of the definition `target`,
while the definitions in `S` can be followed. There is no rule for arrays
and maps, which can be empty, nor for types without parts. -/
inductive Forces (S : Scope) (target : DefId) : Ty → Prop where
  | self {form name} : Forces S target (.ref form name target)
  | follow {form name id d} (hd : S.find? id = some d)
      (h : Forces S target d) : Forces S target (.ref form name id)
  | element {elements e} (he : e ∈ elements) (h : Forces S target e) :
      Forces S target (.tuple elements)
  | field {label fields f} (hf : f ∈ fields) (h : Forces S target f.2) :
      Forces S target (.struct label fields)
  | variants {label variants} (h : ∀ v ∈ variants, Forces S target v) :
      Forces S target (.union label variants)

/-! ## By saturation -/

/-- What forces a definition for which the rules hold is forced by the
rules. -/
theorem forces_of_forcing {forced : DefId → Bool}
    (hforced : ∀ id, forced id = true →
      id = target ∨ ∃ d, S.find? id = some d ∧ S.Forces target d) {t : Ty}
    (h : t.forcing forced = true) : S.Forces target t := by
  induction t using Ty.component_induction with
  | step t ih =>
      cases t with
      | tuple elements =>
          rw [Ty.forcing, Ty.anyForcing_iff] at h
          obtain ⟨e, he, hforce⟩ := h
          exact .element he (ih e he hforce)
      | struct label fields =>
          rw [Ty.forcing, Ty.anyFieldForcing_iff] at h
          obtain ⟨f, hf, hforce⟩ := h
          exact .field hf (ih f.2 (List.mem_map.mpr ⟨f, hf, rfl⟩) hforce)
      | union label variants =>
          rw [Ty.forcing, Ty.allForcing_iff] at h
          exact .variants fun v hv => ih v hv (h v hv)
      | ref form name id =>
          rw [Ty.forcing] at h
          rcases hforced id h with rfl | ⟨d, hd, hforces⟩
          · exact .self
          · exact .follow hd hforces
      | _ => simp [Ty.forcing] at h

theorem forcedBy_iff {known : List DefId} {id : DefId} :
    forcedBy target known id = true ↔ id = target ∨ id ∈ known := by
  simp [forcedBy]

theorem mem_forcingGiven {known : List DefId} {id : DefId} :
    id ∈ S.forcingGiven target known ↔
      ∃ d, S.find? id = some d ∧ d.forcing (forcedBy target known) = true := by
  rw [forcingGiven, List.mem_filter]
  constructor
  · rintro ⟨-, h⟩
    split at h
    · next d hd => exact ⟨d, hd, h⟩
    · cases h
  · rintro ⟨d, hd, h⟩
    exact ⟨mem_ids_of_find? hd, by simpa [hd] using h⟩

/-- Every definition that is found forces the target. -/
theorem exists_forces_of_mem {id : DefId}
    (h : id ∈ S.forcingDefinitions target) :
    ∃ d, S.find? id = some d ∧ S.Forces target d := by
  let P (id : DefId) : Prop := ∃ d, S.find? id = some d ∧ S.Forces target d
  refine saturate_induction (P := P) (fun known hknown id hid => ?_) ?_ id h
  · obtain ⟨d, hd, hforce⟩ := mem_forcingGiven.mp hid
    refine ⟨d, hd, forces_of_forcing (fun id' hid' => ?_) hforce⟩
    exact (forcedBy_iff.mp hid').imp_right (hknown id')
  · exact fun _ hid => (List.not_mem_nil hid).elim

/-- There are no more rounds to make than definitions. -/
theorem forcingDefinitions_saturated (S : Scope) (target : DefId) :
    Saturated (S.forcingGiven target) (S.forcingDefinitions target) := by
  refine saturated_saturate_of_stock S.ids (fun known id hid => ?_) ?_ []
  · exact (List.mem_filter.mp hid).1
  · exact List.length_filterMap_le ..

theorem Forces.forces {t : Ty} (h : S.Forces target t) :
    S.forces target t = true := by
  show t.forcing (forcedBy target (S.forcingDefinitions target)) = true
  induction h with
  | self => exact forcedBy_iff.mpr (Or.inl rfl)
  | @follow _ _ id d hd _ ih =>
      refine forcedBy_iff.mpr (Or.inr ?_)
      exact forcingDefinitions_saturated S target id
        (mem_forcingGiven.mpr ⟨d, hd, ih⟩)
  | element he _ ih =>
      rw [Ty.forcing, Ty.anyForcing_iff]
      exact ⟨_, he, ih⟩
  | field hf _ ih =>
      rw [Ty.forcing, Ty.anyFieldForcing_iff]
      exact ⟨_, hf, ih⟩
  | variants _ ih =>
      rw [Ty.forcing, Ty.allForcing_iff]
      exact ih

theorem forces_iff {t : Ty} : S.forces target t = true ↔ S.Forces target t := by
  refine ⟨forces_of_forcing fun id hid => ?_, Forces.forces⟩
  exact (forcedBy_iff.mp hid).imp_right exists_forces_of_mem

/-! ## Without opening a node twice -/

/-- The same rules, where structs and unions of `G` may not be opened. -/
inductive ForcesAvoiding (S : Scope) (target : DefId) (G : Ty → Prop) :
    Ty → Prop where
  | self {form name} : ForcesAvoiding S target G (.ref form name target)
  | follow {form name id d} (hd : S.find? id = some d)
      (h : ForcesAvoiding S target G d) :
      ForcesAvoiding S target G (.ref form name id)
  | element {elements e} (he : e ∈ elements)
      (h : ForcesAvoiding S target G e) :
      ForcesAvoiding S target G (.tuple elements)
  | field {label fields f} (hG : ¬G (.struct label fields)) (hf : f ∈ fields)
      (h : ForcesAvoiding S target G f.2) :
      ForcesAvoiding S target G (.struct label fields)
  | variants {label variants} (hG : ¬G (.union label variants))
      (h : ∀ v ∈ variants, ForcesAvoiding S target G v) :
      ForcesAvoiding S target G (.union label variants)

theorem Forces.avoiding {G : Ty → Prop} (hG : ∀ t, ¬G t) {t : Ty}
    (h : S.Forces target t) : S.ForcesAvoiding target G t := by
  induction h with
  | self => exact .self
  | follow hd _ ih => exact .follow hd ih
  | element he _ ih => exact .element he ih
  | field hf _ ih => exact .field (hG _) hf ih
  | variants _ ih => exact .variants (hG _) ih

/-- What a struct or union needs of its members to be forced. -/
def Opened (P : Ty → Prop) : Ty → Prop
  | .struct _ fields => ∃ f ∈ fields, P f.2
  | .union _ variants => ∀ v ∈ variants, P v
  | _ => False

/-- A way to force a type avoids a node, or else shows how to force the node
without coming back to it. -/
theorem ForcesAvoiding.cut {G : Ty → Prop} (u : Ty) {t : Ty}
    (h : S.ForcesAvoiding target G t) :
    S.ForcesAvoiding target (fun w => w = u ∨ G w) t
      ∨ Opened (S.ForcesAvoiding target fun w => w = u ∨ G w) u := by
  induction h with
  | self => exact Or.inl .self
  | follow hd _ ih => exact ih.imp_left (.follow hd)
  | element he _ ih => exact ih.imp_left (.element he)
  | @field label fields f hG hf _ ih =>
      rcases ih with ih | ih
      · by_cases heq : Ty.struct label fields = u
        · subst heq
          exact Or.inr ⟨f, hf, ih⟩
        · exact Or.inl (.field (not_or.mpr ⟨heq, hG⟩) hf ih)
      · exact Or.inr ih
  | @variants label variants hG _ ih =>
      -- one variant that passes through the node is enough
      by_cases hopened : Opened
          (S.ForcesAvoiding target fun w => w = u ∨ G w) u
      · exact Or.inr hopened
      · have hall := fun v hv => (ih v hv).resolve_right hopened
        refine Or.inl (.variants (not_or.mpr ⟨fun heq => ?_, hG⟩) hall)
        subst heq
        exact hopened hall

/-- A node that is forced can be opened without coming back to it. -/
theorem ForcesAvoiding.opened {G : Ty → Prop} {u : Ty}
    (h : S.ForcesAvoiding target G u) (hu : u.hasMembers = true) :
    ¬G u ∧ Opened (S.ForcesAvoiding target fun w => w = u ∨ G w) u := by
  have hG : ¬G u := by
    cases h with
    | field hG => exact hG
    | variants hG => exact hG
    | _ => cases hu
  refine ⟨hG, h.cut u |>.resolve_left fun hself => ?_⟩
  cases hself with
  | field hG => exact hG (Or.inl rfl)
  | variants hG => exact hG (Or.inl rfl)
  | _ => cases hu

/-! ## Nodes in memory -/

/-- Types as nodes that may be part of several others: the type of each
node, the nodes of its components, and the node of each definition that can
be followed. -/
structure Layout (S : Scope) (A : Type) where
  type : A → Ty
  components : A → List A
  definition : DefId → Option A
  map_components : ∀ a, (components a).map type = (type a).components
  map_definition : ∀ id, (definition id).map type = S.find? id

/-- Every type is a node of its own, and equal types are the same node. -/
def contentLayout (S : Scope) : S.Layout Ty where
  type := id
  components := Ty.components
  definition := S.find?
  map_components := by simp
  map_definition := by simp

namespace Layout

variable {A : Type} {L : S.Layout A} {path : List A} {a c d : A}

theorem exists_component {P : Ty → Prop} (a : A) :
    (∃ c ∈ L.components a, P (L.type c)) ↔
      ∃ t ∈ (L.type a).components, P t := by
  rw [← L.map_components]
  simp

theorem forall_component {P : Ty → Prop} (a : A) :
    (∀ c ∈ L.components a, P (L.type c)) ↔
      ∀ t ∈ (L.type a).components, P t := by
  rw [← L.map_components]
  simp

theorem any_component {P : Ty → Prop} {t : Ty}
    (hmem : t ∈ (L.type a).components) (ht : P t)
    {found : {c // c ∈ L.components a} → Bool}
    (hfound : ∀ c, P (L.type c.1) → found c = true) :
    (L.components a).attach.any found = true := by
  obtain ⟨c, hc, hP⟩ := (L.exists_component a).mpr ⟨t, hmem, ht⟩
  exact List.any_eq_true.mpr ⟨⟨c, hc⟩, List.mem_attach .., hfound ⟨c, hc⟩ hP⟩

theorem find?_of_definition {id : DefId} (h : L.definition id = some d) :
    S.find? id = some (L.type d) := by
  rw [← L.map_definition, h, Option.map_some]

/-- The nodes of the definitions. -/
def definitions (L : S.Layout A) : List A := S.ids.filterMap L.definition

theorem mem_definitions_of_definition {id : DefId}
    (h : L.definition id = some d) : d ∈ L.definitions :=
  List.mem_filterMap.mpr ⟨id, mem_ids_of_find? (find?_of_definition h), h⟩

theorem isSome_defId?_of_mem (h : d ∈ L.definitions) :
    (L.type d).defId?.isSome = true := by
  obtain ⟨id, -, hd⟩ := List.mem_filterMap.mp h
  rw [defId?_of_find? (find?_of_definition hd), Option.isSome_some]

/-- The members of a struct or union are forced without coming back to its
node, which is not yet on the path. -/
theorem opened_of_avoiding
    (h : S.ForcesAvoiding target (· ∈ path.map L.type) (L.type a))
    (hmembers : (L.type a).hasMembers = true) :
    a ∉ path ∧ Opened
      (S.ForcesAvoiding target (· ∈ (a :: path).map L.type)) (L.type a) := by
  obtain ⟨hnot, hopened⟩ := h.opened hmembers
  refine ⟨fun hpath => hnot (List.mem_map_of_mem hpath), ?_⟩
  simpa only [List.map_cons, List.mem_cons] using hopened

/-! ## Depth-first search -/

variable [DecidableEq A]

/-- The nodes of definitions that are not on the path. -/
def idle (L : S.Layout A) (path : List A) : List A :=
  L.definitions.filter fun d => decide (d ∉ path)

/-- What is left to do below a node before a definition is opened: nothing
for a definition, one step for a reference. -/
def weight (L : S.Layout A) (a : A) : Nat :=
  if a ∈ L.definitions then 0
  else if (L.type a).target?.isSome then 1
  else (L.type a).parts.length + 1

theorem length_idle_le (L : S.Layout A) {path path' : List A}
    (h : ∀ x ∈ path, x ∈ path') :
    (L.idle path').length ≤ (L.idle path).length := by
  have hsub : (L.idle path').Sublist (L.idle path) := by
    refine List.monotone_filter_right _ fun d hd => ?_
    rw [decide_eq_true_eq] at hd ⊢
    exact fun hmem => hd (h d hmem)
  exact hsub.length_le

theorem length_idle_cons_lt (ha : a ∈ L.definitions) (hpath : a ∉ path) :
    (L.idle (a :: path)).length < (L.idle path).length := by
  have hcons : L.idle (a :: path)
      = (L.idle path).filter fun d => decide (d ≠ a) := by
    simp [idle, List.filter_filter]
  rw [hcons]
  refine List.length_filter_lt_length_iff_exists.mpr ⟨a, ?_, by simp⟩
  simp [idle, ha, hpath]

theorem weight_component_lt (ha : a ∉ L.definitions)
    (href : (L.type a).target? = none) (hc : c ∈ L.components a) :
    L.weight c < L.weight a := by
  have hmem : L.type c ∈ (L.type a).components := by
    rw [← L.map_components]
    exact List.mem_map_of_mem hc
  have hlt := Ty.length_parts_component_lt hmem
  unfold weight
  rw [if_neg ha, href]
  split
  · simp
  · split <;> simp <;> omega

/-- Descending in a type, while no definition becomes idle. -/
theorem descend_decreases {path' : List A} (ha : a ∉ L.definitions)
    (href : (L.type a).target? = none) (hkept : ∀ x ∈ path, x ∈ path')
    (hc : c ∈ L.components a) :
    Prod.Lex (· < ·) (· < ·) ((L.idle path').length, L.weight c)
      ((L.idle path).length, L.weight a) := by
  rcases Nat.lt_or_eq_of_le (L.length_idle_le hkept) with hlt | heq
  · exact .left _ _ hlt
  · rw [heq]
    exact .right _ (weight_component_lt ha href hc)

/-- Opening a node leaves one definition fewer, or descends in a type. -/
theorem open_decreases {path' : List A} (href : (L.type a).target? = none)
    (hpath : a ∉ path) (hkept : ∀ x ∈ a :: path, x ∈ path')
    (hc : c ∈ L.components a) :
    Prod.Lex (· < ·) (· < ·) ((L.idle path').length, L.weight c)
      ((L.idle path).length, L.weight a) := by
  by_cases ha : a ∈ L.definitions
  · have hlt := length_idle_cons_lt ha hpath
    exact .left _ _ (Nat.lt_of_le_of_lt (L.length_idle_le hkept) hlt)
  · refine descend_decreases ha href (fun x hx => ?_) hc
    exact hkept x (List.mem_cons_of_mem a hx)

theorem follow_decreases {form : Form} {name : String} {id : DefId}
    (ha : L.type a = .ref form name id) (hd : L.definition id = some d) :
    L.weight d < L.weight a := by
  have hnot : a ∉ L.definitions := by
    intro hmem
    have hid := isSome_defId?_of_mem hmem
    rw [ha] at hid
    cases hid
  unfold weight
  rw [if_pos (mem_definitions_of_definition hd), if_neg hnot, ha]
  exact Nat.one_pos

/-- Whether the type of a node forces the target, by a search that is cut
off where it comes back to a struct or union on its path. -/
def search (L : S.Layout A) (target : DefId) (path : List A) (a : A) : Bool :=
  match _ : L.type a with
  | .tuple _ =>
    (L.components a).attach.any fun c => search L target path c.1
  | .struct .. =>
    if _ : a ∈ path then false
    else (L.components a).attach.any fun c => search L target (a :: path) c.1
  | .union .. =>
    if _ : a ∈ path then false
    else (L.components a).attach.all fun c => search L target (a :: path) c.1
  | .ref _ _ id =>
    id == target ||
      match _ : L.definition id with
      | some d => search L target path d
      | none => false
  | _ => false
termination_by ((L.idle path).length, L.weight a)
decreasing_by
  · have htuple := ‹L.type a = .tuple _›
    refine descend_decreases (fun hmem => ?_) ?_ (fun _ hx => hx) c.2
    · have hid := isSome_defId?_of_mem hmem
      rw [htuple] at hid
      cases hid
    · rw [htuple]
      rfl
  · have href : (L.type a).target? = none := by
      rw [‹L.type a = .struct ..›]
      rfl
    exact open_decreases href ‹_› (fun _ hx => hx) c.2
  · have href : (L.type a).target? = none := by
      rw [‹L.type a = .union ..›]
      rfl
    exact open_decreases href ‹_› (fun _ hx => hx) c.2
  · exact .right _ (follow_decreases ‹_› ‹_›)

theorem search_sound (h : L.search target path a = true) :
    S.Forces target (L.type a) := by
  fun_induction search L target path a with
  | case1 path a elements ha ih =>
      obtain ⟨c, -, hc⟩ := List.any_eq_true.mp h
      have hex := (L.exists_component a).mp ⟨c.1, c.2, ih c hc⟩
      rw [ha] at hex ⊢
      obtain ⟨e, he, hforces⟩ := hex
      exact .element he hforces
  | case2 path a label fields ha hpath => cases h
  | case3 path a label fields ha hpath ih =>
      obtain ⟨c, -, hc⟩ := List.any_eq_true.mp h
      have hex := (L.exists_component a).mp ⟨c.1, c.2, ih c hc⟩
      rw [ha] at hex ⊢
      obtain ⟨t, ht, hforces⟩ := hex
      obtain ⟨f, hf, rfl⟩ := List.mem_map.mp ht
      exact .field hf hforces
  | case4 path a label variants ha hpath => cases h
  | case5 path a label variants ha hpath ih =>
      have hall : ∀ c ∈ L.components a, S.Forces target (L.type c) :=
        fun c hc => ih ⟨c, hc⟩
          (List.all_eq_true.mp h ⟨c, hc⟩ (List.mem_attach ..))
      rw [forall_component, ha] at hall
      rw [ha]
      exact .variants hall
  | case6 path a form name id ha ih =>
      rw [ha]
      rcases Bool.or_eq_true_iff.mp h with htarget | hfollow
      · rw [beq_iff_eq.mp htarget]
        exact .self
      · split at hfollow
        · next d hd =>
            exact .follow (find?_of_definition hd) (ih d hd hfollow)
        · cases hfollow
  | case7 => cases h

/-- Whatever is forced without opening the types on the path is found. -/
theorem search_of_avoiding
    (h : S.ForcesAvoiding target (· ∈ path.map L.type) (L.type a)) :
    L.search target path a = true := by
  fun_induction search L target path a with
  | case1 path a elements ha ih =>
      rw [ha] at h
      cases h with
      | @element _ e he hforces =>
          have hmem : e ∈ (L.type a).components := by
            rw [ha]
            exact he
          exact any_component hmem hforces ih
  | case2 path a label fields ha hpath =>
      exact ((opened_of_avoiding h (by rw [ha]; rfl)).1 hpath).elim
  | case3 path a label fields ha hpath ih =>
      have hopened := (opened_of_avoiding h (by rw [ha]; rfl)).2
      rw [ha] at hopened
      obtain ⟨f, hf, hforces⟩ := hopened
      have hmem : f.2 ∈ (L.type a).components := by
        rw [ha]
        exact List.mem_map_of_mem hf
      exact any_component hmem hforces ih
  | case4 path a label variants ha hpath =>
      exact ((opened_of_avoiding h (by rw [ha]; rfl)).1 hpath).elim
  | case5 path a label variants ha hpath ih =>
      have hopened := (opened_of_avoiding h (by rw [ha]; rfl)).2
      have hall : ∀ c ∈ L.components a,
          S.ForcesAvoiding target (· ∈ (a :: path).map L.type) (L.type c) := by
        rw [forall_component (P := S.ForcesAvoiding target _)]
        rw [ha] at hopened ⊢
        exact hopened
      exact List.all_eq_true.mpr fun c _ => ih c (hall c.1 c.2)
  | case6 path a form name id ha ih =>
      rw [ha] at h
      cases h with
      | self => simp
      | @follow _ _ _ t ht hforces =>
          rw [← L.map_definition, Option.map_eq_some_iff] at ht
          obtain ⟨d, hd, rfl⟩ := ht
          refine Bool.or_eq_true_iff.mpr (Or.inr ?_)
          split
          · next d' hd' =>
              cases hd.symm.trans hd'
              exact ih d hd hforces
          · next hnone => cases hd.symm.trans hnone
  | case7 path a htuple hstruct hunion href =>
      generalize L.type a = t at *
      cases h with
      | self => exact (href _ _ _ rfl).elim
      | follow => exact (href _ _ _ rfl).elim
      | element => exact (htuple _ rfl).elim
      | field => exact (hstruct _ _ rfl).elim
      | variants => exact (hunion _ _ rfl).elim

theorem search_eq (L : S.Layout A) (target : DefId) (a : A) :
    L.search target [] a = S.forces target (L.type a) := by
  rw [Bool.eq_iff_iff, forces_iff]
  refine ⟨search_sound, fun h => search_of_avoiding (h.avoiding ?_)⟩
  exact fun _ => List.not_mem_nil

end Layout

end Scope

/-! ## Refused definitions -/

namespace Handle

variable {h : Handle} {held : List Ty}

/-- A definition without a name is not mentioned by its members. -/
def NamedIfRecursive (h : Handle) (S : Scope) (members : List Ty) : Prop :=
  h.name = none → ∀ t ∈ members, S.mentions h.id t = false

theorem NamedIfRecursive.exists_label {S : Scope} {members : List Ty}
    (hnamed : h.NamedIfRecursive S members) :
    ∃ label, h.label? (members.any (S.mentions h.id)) = some label := by
  unfold label?
  split
  · exact ⟨_, rfl⟩
  · exact ⟨_, rfl⟩
  · next hrec hname =>
      obtain ⟨t, ht, hmentions⟩ := List.any_eq_true.mp hrec
      rw [hnamed hname t ht] at hmentions
      cases hmentions

/-- All that completing a struct can come to, in the order of its checks. -/
theorem defineStruct_cases {S : Scope} {fields : List (String × Ty)}
    (hS : S = Scope.ofHeld (held ++ fields.map Prod.snd)) :
    (¬(fields.map Prod.fst).Nodup ∧ ∃ name owner,
        h.defineStruct held fields = .error (.duplicateName name owner))
    ∨ (¬h.NamedIfRecursive S (fields.map Prod.snd) ∧ ∃ signature,
        h.defineStruct held fields = .error (.anonymousRecursion signature))
    ∨ (∃ before f after, fields = before ++ f :: after
        ∧ (∀ g ∈ before, ¬S.Forces h.id g.2) ∧ S.Forces h.id f.2
        ∧ h.defineStruct held fields = .error
          (.unconditionalCycle h.name (Ty.fieldText f.1 f.2.signature)))
    ∨ ((∀ f ∈ fields, ¬S.Forces h.id f.2) ∧ ∃ label,
        h.defineStruct held fields = .ok (.struct label fields)) := by
  unfold defineStruct
  cases hnames : Names.repeated? (fields.map Prod.fst) with
  | some name =>
      rw [Ty.checkedFields, hnames]
      refine Or.inl ⟨fun hnd => ?_, name, _, rfl⟩
      rw [Names.repeated?_eq_none.mpr hnd] at hnames
      cases hnames
  | none =>
      have hchecked : Ty.checkedFields h.name fields = pure fields := by
        rw [Ty.checkedFields, hnames]
        rfl
      simp only [hchecked, pure_bind, ← hS]
      refine Or.inr ?_
      split
      · refine Or.inr ?_
        split
        · next name t hfind =>
            obtain ⟨hforces, before, after, hfields, hbefore⟩ :=
              List.find?_eq_some_iff_append.mp hfind
            refine Or.inl ⟨before, (name, t), after, hfields, ?_, ?_, rfl⟩
            · intro g hg hforces
              simpa [Scope.forces_iff.mpr hforces] using hbefore g hg
            · exact Scope.forces_iff.mp hforces
        · next hfind =>
            refine Or.inr ⟨fun f hf hforces => ?_, _, rfl⟩
            exact List.find?_eq_none.mp hfind f hf
              (Scope.forces_iff.mpr hforces)
      · next hlabel =>
          refine Or.inl ⟨fun hnamed => ?_, _, rfl⟩
          obtain ⟨label, heq⟩ := hnamed.exists_label
          rw [List.any_map] at heq
          exact hlabel label heq

/-- All that completing a union can come to, in the order of its checks. -/
theorem defineUnion_cases {S : Scope} {variants : List Ty}
    (hS : S = Scope.ofHeld (held ++ Ty.distinct variants)) :
    ((Ty.distinct variants).length < Limit.unionVariants ∧ ∃ count,
        h.defineUnion held variants = .error (.unionArity count))
    ∨ (¬h.NamedIfRecursive S (Ty.distinct variants) ∧ ∃ signature,
        h.defineUnion held variants = .error (.anonymousRecursion signature))
    ∨ ((∀ v ∈ Ty.distinct variants, S.Forces h.id v)
        ∧ h.defineUnion held variants = .error (.unconditionalCycle h.name
          (Ty.variantsSignature (Ty.distinct variants))))
    ∨ ((∃ v ∈ Ty.distinct variants, ¬S.Forces h.id v) ∧ ∃ label,
        h.defineUnion held variants
          = .ok (.union label (Ty.distinct variants))) := by
  unfold defineUnion
  by_cases hlen : (Ty.distinct variants).length < Limit.unionVariants
  · rw [Ty.checkedVariants, if_pos hlen]
    exact Or.inl ⟨hlen, _, rfl⟩
  · have hchecked :
        Ty.checkedVariants variants = pure (Ty.distinct variants) := by
      rw [Ty.checkedVariants, if_neg hlen]
      rfl
    simp only [hchecked, pure_bind, ← hS]
    refine Or.inr ?_
    split
    · refine Or.inr ?_
      split
      · next hall =>
          refine Or.inl ⟨fun v hv => ?_, rfl⟩
          exact Scope.forces_iff.mp (List.all_eq_true.mp hall v hv)
      · next hnot =>
          refine Or.inr ⟨?_, _, rfl⟩
          by_contra hall
          push Not at hall
          refine hnot (List.all_eq_true.mpr fun v hv => ?_)
          exact Scope.forces_iff.mpr (hall v hv)
    · next hlabel =>
        refine Or.inl ⟨fun hnamed => ?_, _, rfl⟩
        obtain ⟨label, heq⟩ := hnamed.exists_label
        exact hlabel label heq

/-- The outcome is a refusal for an unconditional cycle. -/
def IsCycle (outcome : Except Error Ty) : Prop :=
  ∃ e, outcome = .error e ∧ e.code.render = "TAB0102"

theorem isCycle_unconditionalCycle {typeName : Option String}
    {member : String} :
    IsCycle (.error (.unconditionalCycle typeName member)) :=
  ⟨_, rfl, by cbv⟩

theorem not_isCycle_ok {t : Ty} : ¬IsCycle (.ok t) := by
  rintro ⟨e, he, -⟩
  cases he

theorem not_isCycle_error {e : Error} (he : e.code.render ≠ "TAB0102") :
    ¬IsCycle (.error e) := by
  rintro ⟨e', heq, hcode⟩
  cases heq
  exact he hcode

theorem exists_forces_of_isCycle {S : Scope} {fields : List (String × Ty)}
    (hS : S = Scope.ofHeld (held ++ fields.map Prod.snd))
    (hcycle : IsCycle (h.defineStruct held fields)) :
    ∃ f ∈ fields, S.Forces h.id f.2 := by
  rcases defineStruct_cases hS (h := h) with ⟨-, name, owner, heq⟩
    | ⟨-, signature, heq⟩ | ⟨before, f, after, rfl, -, hforces, -⟩
    | ⟨-, label, heq⟩
  · rw [heq] at hcycle
    exact (not_isCycle_error (by cbv) hcycle).elim
  · rw [heq] at hcycle
    exact (not_isCycle_error (by cbv) hcycle).elim
  · exact ⟨f, List.mem_append_right _ List.mem_cons_self, hforces⟩
  · rw [heq] at hcycle
    exact (not_isCycle_ok hcycle).elim

theorem forall_forces_of_isCycle {S : Scope} {variants : List Ty}
    (hS : S = Scope.ofHeld (held ++ Ty.distinct variants))
    (hcycle : IsCycle (h.defineUnion held variants)) :
    ∀ v ∈ Ty.distinct variants, S.Forces h.id v := by
  rcases defineUnion_cases hS (h := h) with ⟨-, count, heq⟩
    | ⟨-, signature, heq⟩ | ⟨hforces, -⟩ | ⟨-, label, heq⟩
  · rw [heq] at hcycle
    exact (not_isCycle_error (by cbv) hcycle).elim
  · rw [heq] at hcycle
    exact (not_isCycle_error (by cbv) hcycle).elim
  · exact hforces
  · rw [heq] at hcycle
    exact (not_isCycle_ok hcycle).elim

end Handle

/-- The search that is cut off on its path, and the saturation, both decide
the rules. A struct whose names are accepted is refused for a cycle exactly
if the rules hold for a field, and the first such field is named; a union
exactly if they hold for all variants. Otherwise the definition is
completed. -/
theorem unconditional_cycle_iff_forces :
    (∀ (S : Scope) (A : Type) [DecidableEq A] (L : S.Layout A)
      (target : DefId) (a : A),
      L.search target [] a = true ↔ S.Forces target (L.type a))
    ∧ (∀ (S : Scope) (target : DefId) (t : Ty),
      S.forces target t = true ↔ S.Forces target t)
    ∧ (∀ (h : Handle) (held : List Ty) (fields : List (String × Ty))
      (S : Scope), S = Scope.ofHeld (held ++ fields.map Prod.snd) →
      (fields.map Prod.fst).Nodup →
      h.NamedIfRecursive S (fields.map Prod.snd) →
      (Handle.IsCycle (h.defineStruct held fields) ↔
        ∃ f ∈ fields, S.Forces h.id f.2)
      ∧ ((∃ before f after, fields = before ++ f :: after
          ∧ (∀ g ∈ before, ¬S.Forces h.id g.2) ∧ S.Forces h.id f.2
          ∧ h.defineStruct held fields = .error
            (.unconditionalCycle h.name (Ty.fieldText f.1 f.2.signature)))
        ∨ ((∀ f ∈ fields, ¬S.Forces h.id f.2) ∧ ∃ label,
          h.defineStruct held fields = .ok (.struct label fields))))
    ∧ (∀ (h : Handle) (held variants : List Ty) (S : Scope),
      S = Scope.ofHeld (held ++ Ty.distinct variants) →
      Limit.unionVariants ≤ (Ty.distinct variants).length →
      h.NamedIfRecursive S (Ty.distinct variants) →
      (Handle.IsCycle (h.defineUnion held variants) ↔
        ∀ v ∈ Ty.distinct variants, S.Forces h.id v)
      ∧ (((∀ v ∈ Ty.distinct variants, S.Forces h.id v)
          ∧ h.defineUnion held variants = .error (.unconditionalCycle h.name
            (Ty.variantsSignature (Ty.distinct variants))))
        ∨ ((∃ v ∈ Ty.distinct variants, ¬S.Forces h.id v) ∧ ∃ label,
          h.defineUnion held variants
            = .ok (.union label (Ty.distinct variants))))) := by
  refine ⟨?_, ?_, ?_, ?_⟩
  · intro S A _ L target a
    rw [L.search_eq, Scope.forces_iff]
  · intro S target t
    exact Scope.forces_iff
  · intro h held fields S hS hnames hnamed
    have hcases := ((Handle.defineStruct_cases hS (h := h)).resolve_left
      fun hrepeated => hrepeated.1 hnames).resolve_left
      fun hanonymous => hanonymous.1 hnamed
    refine ⟨⟨Handle.exists_forces_of_isCycle hS, ?_⟩, hcases⟩
    rintro ⟨f, hf, hforces⟩
    rcases hcases with ⟨before, g, after, -, -, -, heq⟩ | ⟨hnone, -⟩
    · rw [heq]
      exact Handle.isCycle_unconditionalCycle
    · exact (hnone f hf hforces).elim
  · intro h held variants S hS hlen hnamed
    have hcases := ((Handle.defineUnion_cases hS (h := h)).resolve_left
      fun hshort => Nat.not_lt.mpr hlen hshort.1).resolve_left
      fun hanonymous => hanonymous.1 hnamed
    refine ⟨⟨Handle.forall_forces_of_isCycle hS, fun hall => ?_⟩, hcases⟩
    rcases hcases with ⟨-, heq⟩ | ⟨⟨v, hv, hnot⟩, -⟩
    · rw [heq]
      exact Handle.isCycle_unconditionalCycle
    · exact (hnot (hall v hv)).elim

/-- A node shared between all variants is answered in each of them, and an
array that leads back is no cycle. -/
theorem unconditional_cycle_shared :
    let u : Handle := ⟨.union, some "U", 7⟩
    let shared : Ty := .struct (.plain none) [("f", u.ref)]
    let variants : List Ty :=
      [.tuple [shared], .tuple [shared, .scalar .int]]
    let s : Handle := ⟨.struct, some "S", 7⟩
    let fields : List (String × Ty) := [("rest", .array s.ref)]
    let _ := Ty.decEq
    (∀ v ∈ variants, (Scope.contentLayout ⟨[]⟩).search u.id [] v = true)
      ∧ Handle.IsCycle (u.defineUnion [] variants)
      ∧ Handle.IsCycle (s.defineStruct [] (fields ++ [("next", s.ref)]))
      ∧ ¬Handle.IsCycle (s.defineStruct [] fields) := by
  intro u shared variants s fields _
  obtain ⟨hsearch, hforces, hstruct, hunion⟩ := unconditional_cycle_iff_forces
  have hall : ∀ v ∈ variants, Scope.Forces ⟨[]⟩ u.id v := by
    intro v hv
    rw [← hforces]
    revert v
    decide
  refine ⟨?_, ?_, ?_, ?_⟩
  · intro v hv
    exact (hsearch _ Ty _ _ _).mpr (hall v hv)
  · exact (hunion u [] variants ⟨[]⟩ rfl (by decide) fun h => by cases h).1.mpr
      hall
  · refine (hstruct s [] _ ⟨[]⟩ rfl (by decide) fun h => by cases h).1.mpr ?_
    exact ⟨("next", s.ref), List.mem_append_right _ List.mem_cons_self, .self⟩
  · rw [(hstruct s [] fields ⟨[]⟩ rfl (by decide) fun h => by cases h).1]
    simp only [← hforces]
    decide

end Schemata
