import Mathlib
import Schemata.Value.Basic

/-!
# Components and parts of values

As for types, what a value holds directly are its components, whatever
holds them, and its parts are the value and the parts of its components
(`Value.mem_parts_iff`). A packed array counts as the array of its numbers,
and the keys of a map are components too.

An induction over components (`Value.component_induction`) replaces the one
over values and the lists of items, entries and fields. A component has fewer
parts, which is how it is justified; by size it would not be smaller in the
case of a packed array.
-/

namespace Schemata

namespace Value

/-- What a value holds directly. -/
def components : Value → List Value
  | .array items => items
  | .packed p => p.items
  | .tuple items => items
  | .map entries => entries.flatMap fun e => [.scalar e.1, e.2]
  | .struct fields => fields.map Prod.snd
  | _ => []

mutual

/-- The value and what is inside of it: the items of arrays, packed or not,
and of tuples, the keys and values of maps, and the fields of structs. -/
def parts : Value → List Value
  | .null => [.null]
  | .scalar s => [.scalar s]
  | .array items => .array items :: partsOfList items
  | .packed p => .packed p :: p.items
  | .tuple items => .tuple items :: partsOfList items
  | .map entries => .map entries :: partsOfEntries entries
  | .struct fields => .struct fields :: partsOfFields fields

def partsOfList : List Value → List Value
  | [] => []
  | v :: vs => v.parts ++ partsOfList vs

def partsOfEntries : List (Scalar × Value) → List Value
  | [] => []
  | (key, v) :: entries => .scalar key :: (v.parts ++ partsOfEntries entries)

def partsOfFields : List (String × Value) → List Value
  | [] => []
  | (_, v) :: fields => v.parts ++ partsOfFields fields

end

/-! ## Components -/

theorem components_of_items? {v : Value} {vs : List Value}
    (h : v.items? = some vs) : v.components = vs := by
  cases v <;> simp_all [items?, components]

/-- Both sides of an entry. -/
theorem mem_components_map {entries : List (Scalar × Value)}
    {e : Scalar × Value} (he : e ∈ entries) :
    .scalar e.1 ∈ (Value.map entries).components
      ∧ e.2 ∈ (Value.map entries).components :=
  ⟨List.mem_flatMap.mpr ⟨e, he, by simp⟩, List.mem_flatMap.mpr ⟨e, he, by simp⟩⟩

/-! ## Parts by components -/

theorem partsOfList_eq (vs : List Value) :
    partsOfList vs = vs.flatMap parts := by
  induction vs with
  | nil => rfl
  | cons v vs ih => rw [partsOfList, ih, List.flatMap_cons]

/-- Numbers have no parts but themselves. -/
theorem partsOfList_items (p : Packed) : partsOfList p.items = p.items := by
  rw [Packed.items]
  induction p.numbers with
  | nil => rfl
  | cons n ns ih => rw [List.map_cons, partsOfList, ih]; rfl

theorem partsOfEntries_eq (entries : List (Scalar × Value)) :
    partsOfEntries entries = (Value.map entries).components.flatMap parts := by
  induction entries with
  | nil => rfl
  | cons e entries ih =>
      rw [partsOfEntries, ih]
      simp [components, parts]

theorem partsOfFields_eq (fields : List (String × Value)) :
    partsOfFields fields = (Value.struct fields).components.flatMap parts := by
  induction fields with
  | nil => rfl
  | cons f fields ih =>
      rw [partsOfFields, ih]
      simp [components]

theorem parts_eq (v : Value) : v.parts = v :: v.components.flatMap parts := by
  cases v with
  | null => rfl
  | scalar s => rfl
  | array items => rw [parts, partsOfList_eq, components]
  | packed p => rw [parts, components, ← partsOfList_eq, partsOfList_items]
  | tuple items => rw [parts, partsOfList_eq, components]
  | map entries => rw [parts, partsOfEntries_eq]
  | struct fields => rw [parts, partsOfFields_eq]

theorem mem_parts_self (v : Value) : v ∈ v.parts := by
  rw [parts_eq]
  exact List.mem_cons_self

theorem mem_parts_iff {p v : Value} :
    p ∈ v.parts ↔ p = v ∨ ∃ c ∈ v.components, p ∈ c.parts := by
  rw [parts_eq, List.mem_cons, List.mem_flatMap]

theorem parts_of_component {c v : Value} (hc : c ∈ v.components) :
    ∀ p ∈ c.parts, p ∈ v.parts :=
  fun _ hp => mem_parts_iff.mpr (Or.inr ⟨c, hc, hp⟩)

theorem mem_parts_of_component {c v : Value} (hc : c ∈ v.components) :
    c ∈ v.parts :=
  parts_of_component hc c (mem_parts_self c)

/-! ## Induction -/

/-- A component has fewer parts. -/
theorem length_parts_component_lt {c v : Value} (h : c ∈ v.components) :
    c.parts.length < v.parts.length := by
  have hsub : c.parts.Sublist (v.components.flatMap parts) :=
    List.sublist_flatten_of_mem (List.mem_map_of_mem h)
  rw [parts_eq v, List.length_cons]
  exact Nat.lt_succ_of_le hsub.length_le

theorem component_induction {P : Value → Prop}
    (step : ∀ v, (∀ c ∈ v.components, P c) → P v) (v : Value) : P v :=
  step v fun c _ => component_induction step c
termination_by v.parts.length
decreasing_by exact length_parts_component_lt ‹_›

end Value

end Schemata
