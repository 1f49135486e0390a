import Schemata.Ty.Contents

/-!
# Contents and parts

The contents of a type are what is among its parts: a target is listed
exactly if some part refers to it, an identity exactly if some part is a
definition with it, every listed definition is a part, and the size is the
number of parts. Of several parts with one identity the first is listed.
-/

namespace Schemata

/-- The test by which a definition is found. -/
def Ty.hasId (id : DefId) (d : Ty) : Bool := d.defId? == some id

/-! ## Two types together -/

namespace Contents

theorem mem_references_append {a b : Contents} {id : DefId} :
    id ∈ (a.append b).references ↔
      id ∈ a.references ∨ id ∈ b.references := by
  simp only [append, List.mem_append, List.mem_filter]
  by_cases h : id ∈ a.references <;> simp [h]

theorem mem_definitions_append {a b : Contents} {d : Ty} :
    d ∈ (a.append b).definitions ↔
      d ∈ a.definitions ∨
        d ∈ b.definitions ∧ defines a.definitions d = false := by
  simp [append]

/-- A definition with this identity is listed. -/
def Defines (c : Contents) (id : DefId) : Prop :=
  ∃ d ∈ c.definitions, d.defId? = some id

theorem defines_append {a b : Contents} {id : DefId} :
    (a.append b).Defines id ↔ a.Defines id ∨ b.Defines id := by
  constructor
  · rintro ⟨d, hd, hid⟩
    rcases mem_definitions_append.mp hd with hd | ⟨hd, _⟩
    · exact .inl ⟨d, hd, hid⟩
    · exact .inr ⟨d, hd, hid⟩
  · rintro (⟨d, hd, hid⟩ | ⟨d, hd, hid⟩)
    · exact ⟨d, mem_definitions_append.mpr (.inl hd), hid⟩
    · cases h : defines a.definitions d with
      | false => exact ⟨d, mem_definitions_append.mpr (.inr ⟨hd, h⟩), hid⟩
      | true =>
        -- the first list has the identity already
        obtain ⟨e, he, hed⟩ := List.any_eq_true.mp h
        exact ⟨e, mem_definitions_append.mpr (.inl he), by simp_all⟩

theorem mem_references_own {t : Ty} {id : DefId} :
    id ∈ (own t).references ↔ t.target? = some id := by
  simp [own, Option.mem_toList]

theorem defines_own {t : Ty} {id : DefId} :
    (own t).Defines id ↔ t.defId? = some id := by
  cases h : t.defId? <;> simp [Defines, own, h]

theorem eq_of_mem_definitions_own {t d : Ty}
    (h : d ∈ (own t).definitions) : d = t := by
  simp only [own] at h
  split at h <;> simp_all

theorem find?_append (a b : Contents) (id : DefId) :
    (a.append b).definitions.find? (Ty.hasId id)
      = (a.definitions.find? (Ty.hasId id)).or
        (b.definitions.find? (Ty.hasId id)) := by
  rw [append, List.find?_append]
  cases ha : a.definitions.find? (Ty.hasId id) with
  | some d => rfl
  | none =>
      -- nothing with this identity is filtered out
      rw [List.find?_filter, Option.none_or, Option.none_or]
      congr 1
      funext d
      cases hd : Ty.hasId id d with
      | false => simp
      | true =>
          have hnew : defines a.definitions d = false := by
            rw [defines, List.any_eq_false]
            intro e he
            rw [beq_iff_eq.mp hd]
            exact List.find?_eq_none.mp ha e he
          simp [hnew]

theorem find?_own (t : Ty) (id : DefId) :
    (own t).definitions.find? (Ty.hasId id) = [t].find? (Ty.hasId id) := by
  cases h : t.defId? <;> simp [own, Ty.hasId, h]

end Contents

/-! ## All parts -/

namespace Ty

open Contents

mutual

theorem mem_references_contents {id : DefId} : ∀ t : Ty,
    id ∈ t.contents.references ↔ ∃ p ∈ t.parts, p.target? = some id
  | .any => by simp [contents, parts, mem_references_own]
  | .null => by simp [contents, parts, mem_references_own]
  | .scalar _ => by simp [contents, parts, mem_references_own]
  | .array e => by
    simp [contents, parts, mem_references_append, mem_references_own,
      mem_references_contents e]
  | .tuple es => by
    simp [contents, parts, mem_references_append, mem_references_own,
      mem_references_list es]
  | .map _ e => by
    simp [contents, parts, mem_references_append, mem_references_own,
      mem_references_contents e]
  | .struct _ fs => by
    simp [contents, parts, mem_references_append, mem_references_own,
      mem_references_fields fs]
  | .union _ vs => by
    simp [contents, parts, mem_references_append, mem_references_own,
      mem_references_list vs]
  | .ref .. => by simp [contents, parts, mem_references_own]

theorem mem_references_list {id : DefId} : ∀ ts : List Ty,
    id ∈ (contentsOfList ts).references ↔
      ∃ p ∈ partsOfList ts, p.target? = some id
  | [] => by simp [contentsOfList, partsOfList, Contents.empty]
  | t :: ts => by
    simp [contentsOfList, partsOfList, mem_references_append,
      mem_references_contents t, mem_references_list ts, or_and_right,
      exists_or]

theorem mem_references_fields {id : DefId} : ∀ fs : List (String × Ty),
    id ∈ (contentsOfFields fs).references ↔
      ∃ p ∈ partsOfFields fs, p.target? = some id
  | [] => by simp [contentsOfFields, partsOfFields, Contents.empty]
  | (_, t) :: fs => by
    simp [contentsOfFields, partsOfFields, mem_references_append,
      mem_references_contents t, mem_references_fields fs, or_and_right,
      exists_or]

end

mutual

theorem defines_contents {id : DefId} : ∀ t : Ty,
    t.contents.Defines id ↔ ∃ p ∈ t.parts, p.defId? = some id
  | .any => by simp [contents, parts, defines_own]
  | .null => by simp [contents, parts, defines_own]
  | .scalar _ => by simp [contents, parts, defines_own]
  | .array e => by
    simp [contents, parts, defines_append, defines_own, defines_contents e]
  | .tuple es => by
    simp [contents, parts, defines_append, defines_own, defines_list es]
  | .map _ e => by
    simp [contents, parts, defines_append, defines_own, defines_contents e]
  | .struct _ fs => by
    simp [contents, parts, defines_append, defines_own, defines_fields fs]
  | .union _ vs => by
    simp [contents, parts, defines_append, defines_own, defines_list vs]
  | .ref .. => by simp [contents, parts, defines_own]

theorem defines_list {id : DefId} : ∀ ts : List Ty,
    (contentsOfList ts).Defines id ↔
      ∃ p ∈ partsOfList ts, p.defId? = some id
  | [] => by simp [contentsOfList, partsOfList, Contents.empty, Defines]
  | t :: ts => by
    simp [contentsOfList, partsOfList, defines_append, defines_contents t,
      defines_list ts, or_and_right, exists_or]

theorem defines_fields {id : DefId} : ∀ fs : List (String × Ty),
    (contentsOfFields fs).Defines id ↔
      ∃ p ∈ partsOfFields fs, p.defId? = some id
  | [] => by simp [contentsOfFields, partsOfFields, Contents.empty, Defines]
  | (_, t) :: fs => by
    simp [contentsOfFields, partsOfFields, defines_append,
      defines_contents t, defines_fields fs, or_and_right, exists_or]

end

/-- A listed definition of `t` together with more is `t` itself or was
listed before. -/
theorem mem_definitions_own_append {t d : Ty} {c : Contents}
    (h : d ∈ ((own t).append c).definitions) :
    d = t ∨ d ∈ c.definitions := by
  rcases mem_definitions_append.mp h with h | ⟨h, _⟩
  · exact .inl (eq_of_mem_definitions_own h)
  · exact .inr h

mutual

theorem mem_parts_of_mem_definitions {d : Ty} : ∀ t : Ty,
    d ∈ t.contents.definitions → d ∈ t.parts
  | .any, h => by simp [contents, own, defId?] at h
  | .null, h => by simp [contents, own, defId?] at h
  | .scalar _, h => by simp [contents, own, defId?] at h
  | .array e, h => by
    rw [contents] at h
    rcases mem_definitions_own_append h with rfl | h
    · simp [parts]
    · simp [parts, mem_parts_of_mem_definitions e h]
  | .tuple es, h => by
    rw [contents] at h
    rcases mem_definitions_own_append h with rfl | h
    · simp [parts]
    · simp [parts, mem_partsOfList_of_mem_definitions es h]
  | .map _ e, h => by
    rw [contents] at h
    rcases mem_definitions_own_append h with rfl | h
    · simp [parts]
    · rcases mem_definitions_own_append h with rfl | h
      · simp [parts]
      · simp [parts, mem_parts_of_mem_definitions e h]
  | .struct _ fs, h => by
    rw [contents] at h
    rcases mem_definitions_own_append h with rfl | h
    · simp [parts]
    · simp [parts, mem_partsOfFields_of_mem_definitions fs h]
  | .union _ vs, h => by
    rw [contents] at h
    rcases mem_definitions_own_append h with rfl | h
    · simp [parts]
    · simp [parts, mem_partsOfList_of_mem_definitions vs h]
  | .ref .., h => by simp [contents, own, defId?] at h

theorem mem_partsOfList_of_mem_definitions {d : Ty} : ∀ ts : List Ty,
    d ∈ (contentsOfList ts).definitions → d ∈ partsOfList ts
  | [], h => by simp [contentsOfList, Contents.empty] at h
  | t :: ts, h => by
    rw [contentsOfList] at h
    rcases mem_definitions_append.mp h with h | ⟨h, _⟩
    · simp [partsOfList, mem_parts_of_mem_definitions t h]
    · simp [partsOfList, mem_partsOfList_of_mem_definitions ts h]

theorem mem_partsOfFields_of_mem_definitions {d : Ty} :
    ∀ fs : List (String × Ty),
      d ∈ (contentsOfFields fs).definitions → d ∈ partsOfFields fs
  | [], h => by simp [contentsOfFields, Contents.empty] at h
  | (_, t) :: fs, h => by
    rw [contentsOfFields] at h
    rcases mem_definitions_append.mp h with h | ⟨h, _⟩
    · simp [partsOfFields, mem_parts_of_mem_definitions t h]
    · simp [partsOfFields, mem_partsOfFields_of_mem_definitions fs h]

end

mutual

theorem size_contents : ∀ t : Ty, t.contents.size = t.parts.length
  | .any => rfl
  | .null => rfl
  | .scalar _ => rfl
  | .array e => by
    simp [contents, parts, append, own, size_contents e, Nat.add_comm]
  | .tuple es => by
    simp [contents, parts, append, own, size_contentsOfList es, Nat.add_comm]
  | .map _ e => by
    simp [contents, parts, append, own, size_contents e, Nat.add_comm]
  | .struct _ fs => by
    simp [contents, parts, append, own, size_contentsOfFields fs,
      Nat.add_comm]
  | .union _ vs => by
    simp [contents, parts, append, own, size_contentsOfList vs, Nat.add_comm]
  | .ref .. => rfl

theorem size_contentsOfList : ∀ ts : List Ty,
    (contentsOfList ts).size = (partsOfList ts).length
  | [] => rfl
  | t :: ts => by
    simp [contentsOfList, partsOfList, append, size_contents t,
      size_contentsOfList ts]

theorem size_contentsOfFields : ∀ fs : List (String × Ty),
    (contentsOfFields fs).size = (partsOfFields fs).length
  | [] => rfl
  | (_, t) :: fs => by
    simp [contentsOfFields, partsOfFields, append, size_contents t,
      size_contentsOfFields fs]

end

mutual

theorem find?_contents (id : DefId) : ∀ t : Ty,
    t.contents.definitions.find? (hasId id) = t.parts.find? (hasId id)
  | .any => find?_own ..
  | .null => find?_own ..
  | .scalar _ => find?_own ..
  | .array e => by
    rw [contents, parts, find?_append, find?_own, find?_contents id e,
      ← List.find?_append, List.singleton_append]
  | .tuple es => by
    rw [contents, parts, find?_append, find?_own, find?_contentsOfList id es,
      ← List.find?_append, List.singleton_append]
  | .map k e => by
    rw [contents, parts, find?_append, find?_append, find?_own, find?_own,
      find?_contents id e, ← List.find?_append, ← List.find?_append,
      List.singleton_append, List.singleton_append]
  | .struct _ fs => by
    rw [contents, parts, find?_append, find?_own,
      find?_contentsOfFields id fs, ← List.find?_append,
      List.singleton_append]
  | .union _ vs => by
    rw [contents, parts, find?_append, find?_own, find?_contentsOfList id vs,
      ← List.find?_append, List.singleton_append]
  | .ref .. => find?_own ..

theorem find?_contentsOfList (id : DefId) : ∀ ts : List Ty,
    (contentsOfList ts).definitions.find? (hasId id)
      = (partsOfList ts).find? (hasId id)
  | [] => rfl
  | t :: ts => by
    rw [contentsOfList, partsOfList, find?_append, find?_contents id t,
      find?_contentsOfList id ts, ← List.find?_append]

theorem find?_contentsOfFields (id : DefId) : ∀ fs : List (String × Ty),
    (contentsOfFields fs).definitions.find? (hasId id)
      = (partsOfFields fs).find? (hasId id)
  | [] => rfl
  | (_, t) :: fs => by
    rw [contentsOfFields, partsOfFields, find?_append, find?_contents id t,
      find?_contentsOfFields id fs, ← List.find?_append]

end

end Ty

end Schemata
