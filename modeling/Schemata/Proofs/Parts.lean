import Mathlib
import Schemata.Scope
import Schemata.Ty.Contents.Lemmas

/-!
# Components and parts

Most arguments about types are an induction over the finite tree of a
type and treat a struct field like a tuple element. `Ty.components`
lists what a type holds directly, whatever holds it; the parts are the
type and the parts of its components (`mem_parts_iff`), and an
induction over components (`component_induction`) replaces the one over
four mutual lists.

Being a part is transitive (`mem_parts_trans`), and a part of something
else is smaller (`length_parts_lt`). The latter is what bounds the
search for a subtype between two comparisons that it remembers.

What a scope finds is a definition among the parts of what is held, the
first with the identity (`mem_parts_of_find?`, `find?_ofHeld`), and
following a reference leads to such a definition or nowhere
(`resolve_cases`).
-/

namespace Schemata

theorem mem_of_lookup {β : Type} {l : List (String × β)} {name : String}
    {b : β} (h : l.lookup name = some b) : (name, b) ∈ l := by
  obtain ⟨l₁, l₂, rfl, -⟩ := List.lookup_eq_some_iff.mp h
  simp

theorem lookup_of_mem {β : Type} {l : List (String × β)} {name : String}
    {b : β} (hnd : (l.map Prod.fst).Nodup) (h : (name, b) ∈ l) :
    l.lookup name = some b := by
  obtain ⟨l₁, l₂, rfl⟩ := List.append_of_mem h
  refine List.lookup_eq_some_iff.mpr ⟨l₁, l₂, rfl, fun p hp => ?_⟩
  rw [List.map_append] at hnd
  have hne := (List.nodup_append.mp hnd).2.2 p.1 (List.mem_map_of_mem hp) name
    (List.mem_cons_self ..)
  simpa using hne.symm

namespace Ty

/-- What a type holds directly. -/
def components : Ty → List Ty
  | .array element => [element]
  | .tuple elements => elements
  | .map key value => [.scalar key, value]
  | .struct _ fields => fields.map Prod.snd
  | .union _ variants => variants
  | _ => []

/-! ## Parts by components -/

theorem mem_partsOfList {p : Ty} {ts : List Ty} :
    p ∈ partsOfList ts ↔ ∃ t ∈ ts, p ∈ t.parts := by
  induction ts with
  | nil => simp [partsOfList]
  | cons t ts ih => simp [partsOfList, ih]

theorem partsOfFields_eq (fields : List (String × Ty)) :
    partsOfFields fields = partsOfList (fields.map Prod.snd) := by
  induction fields with
  | nil => rfl
  | cons f fields ih => rw [partsOfFields, List.map_cons, partsOfList, ih]

theorem parts_eq (t : Ty) : t.parts = t :: partsOfList t.components := by
  cases t <;> simp [parts, components, partsOfList, partsOfFields_eq]

theorem mem_parts_self (t : Ty) : t ∈ t.parts := by
  rw [parts_eq]
  exact List.mem_cons_self ..

theorem mem_parts_iff {p t : Ty} :
    p ∈ t.parts ↔ p = t ∨ ∃ c ∈ t.components, p ∈ c.parts := by
  rw [parts_eq, List.mem_cons, mem_partsOfList]

/-- What holds of a node and of all parts of its components holds of all
its parts. -/
theorem forall_parts {P : Ty → Prop} {t : Ty} (ht : P t)
    (hc : ∀ c ∈ t.components, ∀ p ∈ c.parts, P p) : ∀ p ∈ t.parts, P p := by
  intro p hp
  rcases mem_parts_iff.mp hp with rfl | ⟨c, hmem, hp⟩
  · exact ht
  · exact hc c hmem p hp

theorem mem_parts_of_component {c t : Ty} (h : c ∈ t.components) :
    c ∈ t.parts :=
  mem_parts_iff.mpr (Or.inr ⟨c, h, mem_parts_self c⟩)

theorem mem_partsOfList_self {t : Ty} {ts : List Ty} (h : t ∈ ts) :
    t ∈ partsOfList ts :=
  mem_partsOfList.mpr ⟨t, h, mem_parts_self t⟩

theorem partsOfList_append (ts us : List Ty) :
    partsOfList (ts ++ us) = partsOfList ts ++ partsOfList us := by
  induction ts with
  | nil => rfl
  | cons t ts ih => simp [partsOfList, ih]

/-! ## Induction -/

theorem sizeOf_component_lt {c t : Ty} (h : c ∈ t.components) :
    sizeOf c < sizeOf t := by
  cases t with
  | array element =>
      obtain rfl := List.mem_singleton.mp h
      simp
  | tuple elements =>
      have hlt := List.sizeOf_lt_of_mem (show c ∈ elements from h)
      simp only [tuple.sizeOf_spec]
      omega
  | map key value =>
      simp only [components, List.mem_cons, List.not_mem_nil, or_false] at h
      rcases h with rfl | rfl
      · have hv : 0 < sizeOf value := by cases value <;> simp
        simp only [scalar.sizeOf_spec, map.sizeOf_spec]
        omega
      · simp
  | struct label fields =>
      obtain ⟨⟨name, _⟩, hmem, rfl⟩ := List.mem_map.mp h
      have hlt := List.sizeOf_lt_of_mem hmem
      simp only [Prod.mk.sizeOf_spec, struct.sizeOf_spec] at hlt ⊢
      omega
  | union label variants =>
      have hlt := List.sizeOf_lt_of_mem (show c ∈ variants from h)
      simp only [union.sizeOf_spec]
      omega
  | any => simp [components] at h
  | null => simp [components] at h
  | scalar s => simp [components] at h
  | ref form name target => simp [components] at h

/-- What holds of a type as soon as it holds of the components holds of
every type. -/
theorem component_induction {P : Ty → Prop}
    (step : ∀ t, (∀ c ∈ t.components, P c) → P t) (t : Ty) : P t :=
  step t fun c _ => component_induction step c
termination_by sizeOf t
decreasing_by exact sizeOf_component_lt ‹_›

theorem mem_parts_trans {p q t : Ty} (hpq : p ∈ q.parts)
    (hqt : q ∈ t.parts) : p ∈ t.parts := by
  induction t using component_induction with
  | step t ih =>
      rcases mem_parts_iff.mp hqt with rfl | ⟨c, hc, hqc⟩
      · exact hpq
      · exact mem_parts_iff.mpr (Or.inr ⟨c, hc, ih c hc hqc⟩)

theorem mem_partsOfList_trans {p q : Ty} {ts : List Ty} (hpq : p ∈ q.parts)
    (hq : q ∈ partsOfList ts) : p ∈ partsOfList ts := by
  obtain ⟨t, ht, hqt⟩ := mem_partsOfList.mp hq
  exact mem_partsOfList.mpr ⟨t, ht, mem_parts_trans hpq hqt⟩

/-- What consists of parts of `ts` has no other parts. -/
theorem partsOfList_subset {p : Ty} {ts us : List Ty}
    (hus : ∀ u ∈ us, u ∈ partsOfList ts) (hp : p ∈ partsOfList us) :
    p ∈ partsOfList ts := by
  obtain ⟨u, hu, hp⟩ := mem_partsOfList.mp hp
  exact mem_partsOfList_trans hp (hus u hu)

/-! ## Sizes -/

theorem length_parts_le_of_mem {t : Ty} {ts : List Ty} (h : t ∈ ts) :
    t.parts.length ≤ (partsOfList ts).length := by
  induction ts with
  | nil => cases h
  | cons u us ih =>
      rw [partsOfList, List.length_append]
      rcases List.mem_cons.mp h with rfl | h
      · omega
      · have hle := ih h
        omega

theorem length_parts_component_lt {c t : Ty} (h : c ∈ t.components) :
    c.parts.length < t.parts.length := by
  rw [parts_eq t, List.length_cons]
  exact Nat.lt_succ_of_le (length_parts_le_of_mem h)

theorem length_parts_le {p t : Ty} (h : p ∈ t.parts) :
    p.parts.length ≤ t.parts.length := by
  induction t using component_induction with
  | step t ih =>
      rcases mem_parts_iff.mp h with rfl | ⟨c, hc, hp⟩
      · exact Nat.le_refl _
      · have hlt := length_parts_component_lt hc
        exact Nat.le_trans (ih c hc hp) (Nat.le_of_lt hlt)

theorem length_parts_lt {p t : Ty} (h : p ∈ t.parts) (hne : p ≠ t) :
    p.parts.length < t.parts.length := by
  rcases mem_parts_iff.mp h with rfl | ⟨c, hc, hp⟩
  · exact absurd rfl hne
  · exact Nat.lt_of_le_of_lt (length_parts_le hp) (length_parts_component_lt hc)

/-! ## Definitions and references -/

/-- A recursive type is a definition or a reference. -/
theorem isRecursive_eq_or (t : Ty) :
    t.isRecursive = (t.defId?.isSome || t.target?.isSome) := by
  cases t with
  | struct label fields => cases label <;> rfl
  | union label variants => cases label <;> rfl
  | _ => rfl

theorem isRecursive_of_defId? {t : Ty} {id : DefId} (h : t.defId? = some id) :
    t.isRecursive = true := by
  rw [isRecursive_eq_or, h, Option.isSome_some, Bool.true_or]

end Ty

namespace Scope

theorem defId?_of_find? {S : Scope} {id : DefId} {d : Ty}
    (h : S.find? id = some d) : d.defId? = some id := by
  simpa using List.find?_some h

theorem mem_definitions_of_find? {S : Scope} {id : DefId} {d : Ty}
    (h : S.find? id = some d) : d ∈ S.definitions :=
  List.mem_of_find?_eq_some h

theorem mem_ids_of_find? {S : Scope} {id : DefId} {d : Ty}
    (h : S.find? id = some d) : id ∈ S.ids :=
  List.mem_filterMap.mpr ⟨d, mem_definitions_of_find? h, defId?_of_find? h⟩

/-- What is in scope is a part of what is held. -/
theorem mem_parts_of_find? {held : List Ty} {id : DefId} {d : Ty}
    (h : (ofHeld held).find? id = some d) : d ∈ Ty.partsOfList held := by
  have hmem : d ∈ (Ty.contentsOf held).definitions :=
    mem_definitions_of_find? h
  rw [Ty.contentsOf_eq] at hmem
  exact Ty.mem_partsOfList_of_mem_definitions held hmem

/-- The first part with the identity is found. -/
theorem find?_ofHeld (held : List Ty) (id : DefId) :
    (ofHeld held).find? id = (Ty.partsOfList held).find? (Ty.hasId id) := by
  show (Ty.contentsOf held).definitions.find? (Ty.hasId id) = _
  rw [Ty.contentsOf_eq, Ty.find?_contentsOfList]

theorem find?_eq_none_iff {held : List Ty} {id : DefId} :
    (ofHeld held).find? id = none ↔
      ∀ p ∈ Ty.partsOfList held, p.defId? ≠ some id := by
  rw [find?_ofHeld, List.find?_eq_none]
  simp only [Ty.hasId, beq_iff_eq, ne_eq]

/-- A definition is no reference. -/
theorem find?_ne_ref {S : Scope} {id : DefId} {form : Form} {name : String}
    {target : DefId} : S.find? id ≠ some (.ref form name target) := by
  intro h
  cases defId?_of_find? h

/-- What a type resolves to is the type itself or a definition. -/
theorem resolve_cases (S : Scope) (t : Ty) :
    S.resolve t = t ∨ ∃ form name id d,
      t = .ref form name id ∧ S.find? id = some d ∧ S.resolve t = d := by
  cases t with
  | ref form name id =>
      cases hd : S.find? id with
      | none => exact Or.inl (by simp [resolve, hd])
      | some d =>
          exact Or.inr ⟨form, name, id, d, rfl, hd, by simp [resolve, hd]⟩
  | _ => exact Or.inl rfl

end Scope

end Schemata
