import Mathlib
import Schemata.Proofs.NaturalTypes
import Schemata.Value.Equality

/-!
# Packed arrays are arrays

A packed array stands for the array of its numbers, and nothing that can be
asked about a value tells the two apart, however deep inside of the value
the packed arrays are (`Value.unpacked_indistinguishable`). `Value.unpacked`
replaces all of them.

Membership looks at the first number only. That is enough because all
numbers of a packed array have the same kind, so that every type accepts all
of them or none (`allInstances_items`), whatever references it has to
follow. The one difference is in the natural type of an empty array: packed,
it still knows the type of its numbers.

Each function on values is a recursion over values and the lists inside of
them, and so is each proof that it does not notice the difference.
-/

namespace Schemata

/-! ## Numbers -/

namespace Packed

/-- The type of the numbers is the natural type of each. -/
theorem naturalType_of_mem {p : Packed} {n : Number} (h : n ∈ p.numbers) :
    n.naturalType = p.elementType := by
  cases p <;> obtain ⟨_, -, rfl⟩ := List.mem_map.mp h <;> rfl

end Packed

namespace Value

theorem beqList_numbers : ∀ (ns : List Number) (ws : List Value),
    beqList (ns.map fun n => .scalar (.number n)) ws = beqNumbers ns ws
  | [], [] => by rw [List.map_nil, beqList, beqNumbers]
  | [], _ :: _ => by simp [beqList, beqNumbers]
  | _ :: _, [] => by simp [beqList, beqNumbers]
  | n :: ns, w :: ws => by
      rw [List.map_cons, beqList, beqList_numbers ns ws]
      cases w with
      | scalar s => cases s <;> simp only [Value.beq, beqNumbers] <;> rfl
      | _ => simp only [Value.beq, beqNumbers, Bool.false_and]

theorem renderList_numbers (ns : List Number) :
    renderList (ns.map fun n => .scalar (.number n)) = ns.map Number.render := by
  induction ns with
  | nil => rfl
  | cons n ns ih => rw [List.map_cons, renderList, ih, List.map_cons]; rfl

theorem allInstances_items {S : Scope} (p : Packed) (t : Ty) :
    allInstances S p.items t = S.acceptsFirst p.numbers t := by
  rw [Bool.eq_iff_iff, allInstances_iff, acceptsFirst_iff]
  exact List.forall_mem_map

/-! ## Unpacking -/

mutual

/-- The value with every packed array in it replaced by the array of its
numbers. -/
def unpacked : Value → Value
  | .null => .null
  | .scalar s => .scalar s
  | .array items => .array (unpackedList items)
  | .packed p => .array p.items
  | .tuple items => .tuple (unpackedList items)
  | .map entries => .map (unpackedEntries entries)
  | .struct fields => .struct (unpackedFields fields)

def unpackedList : List Value → List Value
  | [] => []
  | v :: vs => v.unpacked :: unpackedList vs

def unpackedEntries : List (Scalar × Value) → List (Scalar × Value)
  | [] => []
  | (key, v) :: entries => (key, v.unpacked) :: unpackedEntries entries

def unpackedFields : List (String × Value) → List (String × Value)
  | [] => []
  | (name, v) :: fields => (name, v.unpacked) :: unpackedFields fields

end

/-! ## Parts -/

theorem map_unpacked_items (p : Packed) : p.items.map unpacked = p.items := by
  rw [Packed.items, List.map_map]
  rfl

mutual

/-- What is inside is unpacked too. -/
theorem parts_unpacked : ∀ v : Value,
    v.unpacked.parts = v.parts.map unpacked
  | .null => rfl
  | .scalar _ => rfl
  | .array items => by
      rw [unpacked, parts, parts, partsOfList_unpacked items, List.map_cons,
        unpacked]
  | .packed p => by
      rw [unpacked, parts, parts, partsOfList_items, List.map_cons, unpacked,
        map_unpacked_items]
  | .tuple items => by
      rw [unpacked, parts, parts, partsOfList_unpacked items, List.map_cons,
        unpacked]
  | .map entries => by
      rw [unpacked, parts, parts, partsOfEntries_unpacked entries,
        List.map_cons, unpacked]
  | .struct fields => by
      rw [unpacked, parts, parts, partsOfFields_unpacked fields,
        List.map_cons, unpacked]

theorem partsOfList_unpacked : ∀ vs : List Value,
    partsOfList (unpackedList vs) = (partsOfList vs).map unpacked
  | [] => rfl
  | v :: vs => by
      rw [unpackedList, partsOfList, partsOfList, parts_unpacked v,
        partsOfList_unpacked vs, List.map_append]

theorem partsOfEntries_unpacked : ∀ entries : List (Scalar × Value),
    partsOfEntries (unpackedEntries entries)
      = (partsOfEntries entries).map unpacked
  | [] => rfl
  | (k, v) :: entries => by
      rw [unpackedEntries, partsOfEntries, partsOfEntries, parts_unpacked v,
        partsOfEntries_unpacked entries, List.map_cons, List.map_append,
        unpacked]

theorem partsOfFields_unpacked : ∀ fields : List (String × Value),
    partsOfFields (unpackedFields fields) = (partsOfFields fields).map unpacked
  | [] => rfl
  | (_, v) :: fields => by
      rw [unpackedFields, partsOfFields, partsOfFields, parts_unpacked v,
        partsOfFields_unpacked fields, List.map_append]

end

theorem unpacked_ne_packed (v : Value) (p : Packed) :
    v.unpacked ≠ .packed p := by
  cases v <;> simp [unpacked]

/-! ## Membership -/

mutual

theorem isInstance_unpacked {S : Scope} : ∀ (v : Value) (t : Ty),
    v.unpacked.isInstance S t = v.isInstance S t
  | .null, _ => by rw [unpacked]
  | .scalar _, _ => by rw [unpacked]
  | .array items, t => by
      simp only [unpacked, isInstance, allInstances_unpacked items]
  | .packed p, t => by simp only [unpacked, isInstance, allInstances_items]
  | .tuple items, t => by
      simp only [unpacked, isInstance, itemsAreInstances_unpacked items]
  | .map entries, t => by
      simp only [unpacked, isInstance, entriesAreInstances_unpacked entries]
  | .struct fields, t => by
      simp only [unpacked, isInstance, fieldIsInstance_unpacked fields]

theorem allInstances_unpacked {S : Scope} : ∀ (vs : List Value) (t : Ty),
    allInstances S (unpackedList vs) t = allInstances S vs t
  | [], _ => by rw [unpackedList]
  | v :: vs, t => by
      rw [unpackedList, allInstances, allInstances, isInstance_unpacked v t,
        allInstances_unpacked vs t]

theorem itemsAreInstances_unpacked {S : Scope} :
    ∀ (vs : List Value) (ts : List Ty),
      itemsAreInstances S (unpackedList vs) ts = itemsAreInstances S vs ts
  | [], _ => by rw [unpackedList]
  | _ :: _, [] => by simp only [unpackedList, itemsAreInstances]
  | v :: vs, t :: ts => by
      rw [unpackedList, itemsAreInstances, itemsAreInstances,
        isInstance_unpacked v t, itemsAreInstances_unpacked vs ts]

theorem entriesAreInstances_unpacked {S : Scope} :
    ∀ (entries : List (Scalar × Value)) (key : ScalarType) (value : Ty),
      entriesAreInstances S (unpackedEntries entries) key value
        = entriesAreInstances S entries key value
  | [], _, _ => by rw [unpackedEntries]
  | (k, v) :: entries, key, value => by
      rw [unpackedEntries, entriesAreInstances, entriesAreInstances,
        isInstance_unpacked v value,
        entriesAreInstances_unpacked entries key value]

theorem fieldIsInstance_unpacked {S : Scope} :
    ∀ (fields : List (String × Value)) (name : String) (t : Ty),
      fieldIsInstance S (unpackedFields fields) name t
        = fieldIsInstance S fields name t
  | [], _, _ => by rw [unpackedFields]
  | (given, v) :: fields, name, t => by
      rw [unpackedFields, fieldIsInstance, fieldIsInstance,
        isInstance_unpacked v t, fieldIsInstance_unpacked fields name t]

end

/-! ## Text -/

mutual

theorem render_unpacked : ∀ v : Value, v.unpacked.render = v.render
  | .null => by rw [unpacked]
  | .scalar _ => by rw [unpacked]
  | .array items => by rw [unpacked, render, render, renderList_unpacked items]
  | .packed p => by
      rw [unpacked, render, render, Packed.items, renderList_numbers]
  | .tuple items => by rw [unpacked, render, render, renderList_unpacked items]
  | .map entries => by
      rw [unpacked, render, render, renderEntries_unpacked entries]
  | .struct fields => by
      rw [unpacked, render, render, renderFields_unpacked fields]

theorem renderList_unpacked : ∀ vs : List Value,
    renderList (unpackedList vs) = renderList vs
  | [] => by rw [unpackedList]
  | v :: vs => by
      rw [unpackedList, renderList, renderList, render_unpacked v,
        renderList_unpacked vs]

theorem renderEntries_unpacked : ∀ entries : List (Scalar × Value),
    renderEntries (unpackedEntries entries) = renderEntries entries
  | [] => by rw [unpackedEntries]
  | (k, v) :: entries => by
      rw [unpackedEntries, renderEntries, renderEntries, render_unpacked v,
        renderEntries_unpacked entries]

theorem renderFields_unpacked : ∀ fields : List (String × Value),
    renderFields (unpackedFields fields) = renderFields fields
  | [] => by rw [unpackedFields]
  | (name, v) :: fields => by
      rw [unpackedFields, renderFields, renderFields, render_unpacked v,
        renderFields_unpacked fields]

end

/-! ## Equality -/

theorem length_unpackedFields (fields : List (String × Value)) :
    (unpackedFields fields).length = fields.length := by
  induction fields with
  | nil => rw [unpackedFields]
  | cons f fields ih => rw [unpackedFields, List.length_cons, ih, List.length_cons]

mutual

theorem beq_unpacked : ∀ v w : Value, (v.unpacked == w) = (v == w)
  | .null, _ => by rw [unpacked]
  | .scalar _, _ => by rw [unpacked]
  | .array items, w => by
      show Value.beq _ w = Value.beq _ w
      simp only [unpacked, Value.beq, beqList_unpacked items]
  | .packed p, w => by
      show Value.beq _ w = Value.beq _ w
      simp only [unpacked, Value.beq, Packed.items, beqList_numbers]
  | .tuple items, w => by
      show Value.beq _ w = Value.beq _ w
      cases w <;> simp only [unpacked, Value.beq, beqList_unpacked items]
  | .map entries, w => by
      show Value.beq _ w = Value.beq _ w
      cases w <;> simp only [unpacked, Value.beq, beqEntries_unpacked entries]
  | .struct fields, w => by
      show Value.beq _ w = Value.beq _ w
      cases w <;> simp only [unpacked, Value.beq, length_unpackedFields,
        fieldsWithin_unpacked fields]

theorem beqList_unpacked : ∀ vs ws : List Value,
    beqList (unpackedList vs) ws = beqList vs ws
  | [], _ => by rw [unpackedList]
  | _ :: _, [] => by simp only [unpackedList, beqList]
  | v :: vs, w :: ws => by
      have hv : Value.beq v.unpacked w = Value.beq v w := beq_unpacked v w
      rw [unpackedList, beqList, beqList, hv, beqList_unpacked vs ws]

theorem beqEntries_unpacked : ∀ es fs : List (Scalar × Value),
    beqEntries (unpackedEntries es) fs = beqEntries es fs
  | [], _ => by rw [unpackedEntries]
  | _ :: _, [] => by simp only [unpackedEntries, beqEntries]
  | (k, v) :: es, (l, w) :: fs => by
      have hv : Value.beq v.unpacked w = Value.beq v w := beq_unpacked v w
      rw [unpackedEntries, beqEntries, beqEntries, hv, beqEntries_unpacked es fs]

theorem fieldsWithin_unpacked : ∀ fs gs : List (String × Value),
    fieldsWithin (unpackedFields fs) gs = fieldsWithin fs gs
  | [], _ => by rw [unpackedFields]
  | (name, v) :: fs, gs => by
      have hv : ∀ w, Value.beq v.unpacked w = Value.beq v w := beq_unpacked v
      simp only [unpackedFields, fieldsWithin, hv, fieldsWithin_unpacked fs gs]

end

/-! ## Natural types -/

/-- No packed array among the values is empty. -/
def NoEmptyPacked (vs : List Value) : Prop :=
  ∀ p, .packed p ∈ vs → p.numbers ≠ []

theorem firstType_items {p : Packed} (h : p.numbers ≠ []) :
    firstType p.items = .scalar p.elementType := by
  obtain ⟨n, ns, hnumbers⟩ := List.exists_cons_of_ne_nil h
  have hn : n ∈ p.numbers := hnumbers ▸ List.mem_cons_self
  rw [Packed.items, hnumbers, List.map_cons, firstType, naturalType,
    Scalar.naturalType, Packed.naturalType_of_mem hn]

mutual

theorem naturalType_unpacked : ∀ v : Value, NoEmptyPacked v.parts →
    v.unpacked.naturalType = v.naturalType
  | .null, _ => by rw [unpacked]
  | .scalar _, _ => by rw [unpacked]
  | .array items, h => by
      rw [unpacked, naturalType, naturalType, firstType_unpacked items
        fun p hp => h p (List.mem_cons_of_mem _ hp)]
  | .packed p, h => by
      rw [unpacked, naturalType, naturalType,
        firstType_items (h p (mem_parts_self _))]
  | .tuple items, h => by
      rw [unpacked, naturalType, naturalType, naturalTypes_unpacked items
        fun p hp => h p (List.mem_cons_of_mem _ hp)]
  | .map entries, h => by
      rw [unpacked, naturalType, naturalType, mapType_unpacked entries
        fun p hp => h p (List.mem_cons_of_mem _ hp)]
  | .struct fields, h => by
      rw [unpacked, naturalType, naturalType, fieldTypes_unpacked fields
        fun p hp => h p (List.mem_cons_of_mem _ hp)]

theorem firstType_unpacked : ∀ vs : List Value,
    NoEmptyPacked (partsOfList vs) →
      firstType (unpackedList vs) = firstType vs
  | [], _ => by rw [unpackedList]
  | v :: _, h => by
      rw [unpackedList, firstType, firstType, naturalType_unpacked v
        fun p hp => h p (List.mem_append_left _ hp)]

theorem naturalTypes_unpacked : ∀ vs : List Value,
    NoEmptyPacked (partsOfList vs) →
      naturalTypes (unpackedList vs) = naturalTypes vs
  | [], _ => by rw [unpackedList]
  | v :: vs, h => by
      rw [unpackedList, naturalTypes, naturalTypes,
        naturalType_unpacked v fun p hp => h p (List.mem_append_left _ hp),
        naturalTypes_unpacked vs fun p hp => h p (List.mem_append_right _ hp)]

theorem mapType_unpacked : ∀ entries : List (Scalar × Value),
    NoEmptyPacked (partsOfEntries entries) →
      mapType (unpackedEntries entries) = mapType entries
  | [], _ => by rw [unpackedEntries]
  | (_, v) :: _, h => by
      rw [unpackedEntries, mapType, mapType, naturalType_unpacked v
        fun p hp => h p (List.mem_cons_of_mem _ (List.mem_append_left _ hp))]

theorem fieldTypes_unpacked : ∀ fields : List (String × Value),
    NoEmptyPacked (partsOfFields fields) →
      fieldTypes (unpackedFields fields) = fieldTypes fields
  | [], _ => by rw [unpackedFields]
  | (_, v) :: fields, h => by
      rw [unpackedFields, fieldTypes, fieldTypes,
        naturalType_unpacked v fun p hp => h p (List.mem_append_left _ hp),
        fieldTypes_unpacked fields
          fun p hp => h p (List.mem_append_right _ hp)]

end

/-! ## Whatever is asked -/

/-- A value and the one without packed arrays are instances of the same
types, have the same text and are equal to the same values. They also have
equal natural types, unless a packed array in the value is empty. -/
theorem unpacked_indistinguishable (v : Value) :
    (∀ p, .packed p ∉ v.unpacked.parts)
      ∧ (∀ (S : Scope) (t : Ty), v.isInstance S t = v.unpacked.isInstance S t)
      ∧ v.render = v.unpacked.render
      ∧ (∀ w : Value, (v == w) = (v.unpacked == w))
      ∧ (NoEmptyPacked v.parts →
          (v.naturalType == v.unpacked.naturalType) = true) := by
  refine ⟨fun p hp => ?_, ?_, (render_unpacked v).symm, ?_, fun h => ?_⟩
  · rw [parts_unpacked] at hp
    obtain ⟨u, -, hu⟩ := List.mem_map.mp hp
    exact u.unpacked_ne_packed p hu
  · exact fun S t => (isInstance_unpacked v t).symm
  · exact fun w => (beq_unpacked v w).symm
  · rw [naturalType_unpacked v h]
    exact Ty.beq_self _

/-- Packed, an empty array knows the type of its numbers. -/
example : (Value.packed (.int [])).naturalType = .array (.scalar .int)
    ∧ (Value.packed (.int [])).unpacked.naturalType = .array .any :=
  ⟨rfl, rfl⟩

/-- Packed arrays in the fields of a struct, in a map and in a tuple, as
instances of a type whose numbers may be null. -/
theorem unpacked_indistinguishable_nested :
    let v : Value := .struct
      [("a", .packed (.tinyInt [1, -1])),
        ("b", .map [(.text .string "k", .tuple [.packed (.int [2]), .null])])]
    let w : Value := .struct
      [("b", .map [(.text .string "k",
          .tuple [.array [.number (.int 2)], .null])]),
        ("a", .array [.number (.tinyInt 1), .number (.tinyInt (-1))])]
    let t : Ty := .struct (.plain none) [("a", .array
      (.union (.plain none) [.scalar .tinyInt, .null]))]
    NoEmptyPacked v.parts
      ∧ (v == w) = true ∧ (v.unpacked == w) = true
      ∧ v.isInstance ⟨[]⟩ t = true ∧ v.unpacked.isInstance ⟨[]⟩ t = true
      ∧ (v.naturalType == v.unpacked.naturalType) = true := by
  intro v w t
  obtain ⟨-, hinstance, -, hbeq, hnatural⟩ := v.unpacked_indistinguishable
  have hfull : NoEmptyPacked v.parts := by
    intro p hp
    have hparts : v.parts = [v, .packed (.tinyInt [1, -1]),
      .number (.tinyInt 1), .number (.tinyInt (-1)),
      .map [(.text .string "k", .tuple [.packed (.int [2]), .null])],
      .scalar (.text .string "k"), .tuple [.packed (.int [2]), .null],
      .packed (.int [2]), .number (.int 2), .null] := rfl
    rw [hparts] at hp
    simp [v, number] at hp
    rcases hp with rfl | rfl <;> decide
  have hvw : (v == w) = true := by decide
  have hvt : v.isInstance ⟨[]⟩ t = true := by decide
  exact ⟨hfull, hvw, (hbeq w).symm.trans hvw, hvt,
    (hinstance _ t).symm.trans hvt, hnatural hfull⟩

end Value

end Schemata
