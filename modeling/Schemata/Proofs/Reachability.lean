import Mathlib
import Schemata.Proofs.Evaluation

/-!
# What a type leads to

Comparisons and membership descend into components and follow
references. `Scope.Reaches` is everything they can come to from some
types. Two conditions on it recur:

- it is *closed* if every reference in it can be followed
  (`Scope.Closed`);
- it is *coherent* if recursive definitions in it that are equal by form
  and name have equal members (`Scope.Coherent`), which nominal equality
  takes for granted.

Proofs about comparisons use what follows from closedness in a
consistent world, for any set of types closed under both ways to go on
(`Scope.Linked`).
-/

namespace Schemata

/-- Structs with equal fields, or unions with equal variants. -/
def Ty.SameMembers : Ty → Ty → Prop
  | .struct _ fs, .struct _ gs => SameFields fs gs
  | .union _ vs, .union _ ws => SameVariants vs ws
  | _, _ => False

instance (fs gs : List (String × Ty)) : Decidable (Ty.SameFields fs gs) :=
  inferInstanceAs (Decidable (_ ∧ _))

instance (vs ws : List Ty) : Decidable (Ty.SameVariants vs ws) :=
  inferInstanceAs (Decidable (_ ∧ _))

instance : ∀ p q : Ty, Decidable (p.SameMembers q)
  | .struct _ fs, .struct _ gs =>
      inferInstanceAs (Decidable (Ty.SameFields fs gs))
  | .union _ vs, .union _ ws =>
      inferInstanceAs (Decidable (Ty.SameVariants vs ws))
  | .any, _ | .null, _ | .scalar _, _ | .array _, _ | .tuple _, _
  | .map .., _ | .ref .., _ => isFalse nofun
  | .struct .., .any | .struct .., .null | .struct .., .scalar _
  | .struct .., .array _ | .struct .., .tuple _ | .struct .., .map ..
  | .struct .., .union .. | .struct .., .ref .. => isFalse nofun
  | .union .., .any | .union .., .null | .union .., .scalar _
  | .union .., .array _ | .union .., .tuple _ | .union .., .map ..
  | .union .., .struct .. | .union .., .ref .. => isFalse nofun

namespace Scope

/-- What can be reached from the types of the list. -/
inductive Reaches (S : Scope) (start : List Ty) : Ty → Prop where
  | start {t} (h : t ∈ start) : Reaches S start t
  | component {t c} (h : Reaches S start t) (hc : c ∈ t.components) :
      Reaches S start c
  | follow {form name id d} (h : Reaches S start (.ref form name id))
      (hd : S.find? id = some d) : Reaches S start d

/-- Every reference that can be reached can be followed. -/
def Closed (S : Scope) (start : List Ty) : Prop :=
  ∀ form name id, S.Reaches start (.ref form name id) → (S.find? id).isSome

/-- Two recursive definitions that can be reached have the same members
if they have the same form and name. -/
def Coherent (S : Scope) (start : List Ty) : Prop :=
  ∀ p q, S.Reaches start p → S.Reaches start q →
    p.defId?.isSome → q.defId?.isSome → p.nominal? = q.nominal? →
    p.SameMembers q

/-! ## Definitions in scope -/

/-- A definition among the parts of what is held is the one that
references to it find. -/
theorem find?_of_part {held : List Ty} {handles : List Handle}
    {id : DefId} {d : Ty}
    (hc : Consistent (· ∈ Ty.partsOfList held) handles)
    (hd : d ∈ Ty.partsOfList held) (hid : d.defId? = some id) :
    (ofHeld held).find? id = some d := by
  cases hfind : (ofHeld held).find? id with
  | some e =>
      have he := mem_parts_of_find? hfind
      rw [hc.unique e d id he hd (defId?_of_find? hfind) hid]
  | none => exact absurd hid (find?_eq_none_iff.mp hfind d hd)

/-! ## Staying within -/

/-- What can be reached from parts of held types stays among them, if the
definitions in scope are among them. -/
theorem Reaches.mem_partsOfList {S : Scope} {held start : List Ty} {p : Ty}
    (hstart : ∀ t ∈ start, t ∈ Ty.partsOfList held)
    (hfind : ∀ id d, S.find? id = some d → d ∈ Ty.partsOfList held)
    (h : S.Reaches start p) : p ∈ Ty.partsOfList held := by
  induction h with
  | start h => exact hstart _ h
  | component _ hc ih =>
      exact Ty.mem_partsOfList_trans (Ty.mem_parts_of_component hc) ih
  | follow _ hd _ => exact hfind _ _ hd

theorem Reaches.mem_parts {S : Scope} {start : List Ty} {p : Ty}
    (h : S.Reaches start p) :
    p ∈ Ty.partsOfList (start ++ S.definitions) := by
  refine h.mem_partsOfList (fun t ht => ?_) fun id d hd => ?_
  · exact Ty.mem_partsOfList_self (List.mem_append_left _ ht)
  · have hmem := mem_definitions_of_find? hd
    exact Ty.mem_partsOfList_self (List.mem_append_right _ hmem)

theorem Reaches.here {held start : List Ty}
    (hstart : ∀ t ∈ start, t ∈ Ty.partsOfList held) {p : Ty}
    (h : (ofHeld held).Reaches start p) : p ∈ Ty.partsOfList held :=
  h.mem_partsOfList hstart fun _ _ hd => mem_parts_of_find? hd

/-- It is enough to look at the parts of the types and of all
definitions. -/
theorem closed_of_parts {S : Scope} {start : List Ty}
    (h : ∀ p ∈ Ty.partsOfList (start ++ S.definitions),
      ∀ id ∈ p.target?, (S.find? id).isSome) : S.Closed start :=
  fun _ _ id hreach => h _ hreach.mem_parts id rfl

theorem coherent_of_parts {S : Scope} {start : List Ty}
    (h : ∀ p ∈ Ty.partsOfList (start ++ S.definitions),
      ∀ q ∈ Ty.partsOfList (start ++ S.definitions),
      p.defId?.isSome → q.defId?.isSome → p.nominal? = q.nominal? →
      p.SameMembers q) : S.Coherent start :=
  fun p q hp hq => h p hp.mem_parts q hq.mem_parts

/-- A set of regular and grounded types that is closed under components
and under references, each of which leads to a definition of its form and
name; a definition is what references to it lead to. -/
structure Linked (S : Scope) (here : Ty → Prop) : Prop where
  component : ∀ {t c}, here t → c ∈ t.components → here c
  follow : ∀ {form name id}, here (.ref form name id) →
    ∃ d, S.find? id = some d ∧ here d ∧ d.nominal? = some (form, name)
  find : ∀ {d id}, here d → d.defId? = some id → S.find? id = some d
  regular : ∀ {t}, here t → t.Regular
  grounded : ∀ {t}, here t → t.Grounded

theorem Closed.linked {held start : List Ty} {handles : List Handle}
    (hc : Consistent (· ∈ Ty.partsOfList held) handles)
    (hstart : ∀ t ∈ start, t ∈ Ty.partsOfList held)
    (hclosed : (ofHeld held).Closed start) :
    (ofHeld held).Linked ((ofHeld held).Reaches start) where
  component := .component
  follow {form name id} h := by
    obtain ⟨d, hd⟩ := Option.isSome_iff_exists.mp (hclosed form name id h)
    refine ⟨d, hd, h.follow hd, ?_⟩
    have hpart := mem_parts_of_find? hd
    exact hc.named form name id d (h.here hstart) hpart (defId?_of_find? hd)
  find h hid := find?_of_part hc (h.here hstart) hid
  regular h := hc.regular _ (h.here hstart)
  grounded h := hc.grounded _ (h.here hstart)

namespace Linked

variable {S : Scope} {here : Ty → Prop}

theorem part (h : S.Linked here) {p t : Ty} (ht : here t)
    (hp : p ∈ t.parts) : here p := by
  induction t using Ty.component_induction with
  | step t ih =>
      rcases Ty.mem_parts_iff.mp hp with rfl | ⟨c, hc, hp⟩
      · exact ht
      · exact ih c hc (h.component ht hc) hp

theorem wellFormed (h : S.Linked here) {t : Ty} (ht : here t) : t.WellFormed :=
  fun _ hp => h.regular (h.part ht hp)

/-- Following a reference leads to something else that is here and has
the same form and name. -/
theorem resolve (h : S.Linked here) {t : Ty} (ht : here t) :
    here (S.resolve t) ∧ (S.resolve t).nominal? = t.nominal?
      ∧ (S.resolve t).target? = none := by
  unfold Scope.resolve
  split
  · next form name id =>
      obtain ⟨d, hd, hhere, hname⟩ := h.follow ht
      have hid := defId?_of_find? hd
      rw [hd]
      refine ⟨hhere, hname, ?_⟩
      show d.target? = none
      cases d <;> simp_all [Ty.target?, Ty.defId?]
  · next hnot =>
      refine ⟨ht, rfl, ?_⟩
      cases t with
      | ref form name id => exact absurd rfl (hnot form name id)
      | _ => rfl

/-- A reference and its target are equal to the same types. -/
theorem beq_resolve_left (h : S.Linked here) {a b : Ty} (ha : here a) :
    (S.resolve a == b) = true ↔ (a == b) = true := by
  unfold Scope.resolve
  split
  · obtain ⟨d, hd, -, hname⟩ := h.follow ha
    rw [hd]
    exact (Ty.nominal_beq_iff hname).trans (Ty.nominal_beq_iff rfl).symm
  · exact Iff.rfl

theorem beq_resolve_right (h : S.Linked here) {a b : Ty} (hb : here b) :
    (a == S.resolve b) = true ↔ (a == b) = true := by
  unfold Scope.resolve
  split
  · next form name id =>
      obtain ⟨d, hd, -, hname⟩ := h.follow hb
      rw [hd]
      constructor
      · intro heq
        have hleft := (Ty.nominal?_eq_of_beq heq).trans hname
        exact (Ty.nominal_beq_iff hleft).mpr rfl
      · intro heq
        exact (Ty.nominal_beq_iff (Ty.nominal?_eq_of_beq heq)).mpr hname
  · exact Iff.rfl

theorem resolve_resolve (h : S.Linked here) {t : Ty} (ht : here t) :
    S.resolve (S.resolve t) = S.resolve t := by
  obtain ⟨-, -, href⟩ := h.resolve ht
  generalize S.resolve t = u at href
  cases u with
  | ref form name id => cases href
  | _ => rfl

end Linked

end Scope

/-- What types evaluated in a session lead to is linked if it is
closed. -/
theorem Session.Reachable.linked {s : Session} (hs : s.Reachable)
    {es : List TypeExpr} {ts start : List Ty} {S : Scope}
    (heval : s.evalTypes es = .ok (ts, S))
    (hstart : ∀ t ∈ start, t ∈ ts) (hclosed : S.Closed start) :
    S.Linked (S.Reaches start) := by
  obtain ⟨rfl, hconsistent⟩ := hs.consistent heval
  refine hclosed.linked hconsistent fun t ht => ?_
  exact Ty.mem_partsOfList_self (List.mem_append_right _ (hstart t ht))

end Schemata
