import Mathlib
import Schemata.Definition
import Schemata.Proofs.Equality

/-!
# What holds of everything that is held

The types that are held at some moment share definitions, refer to each
other and may be in the middle of a definition. `Consistent` is what can
be said about all their parts together:

- every node is regular, and a recursive one is grounded: its members do
  not all, respectively not at all, insist on a value of itself;
- two definitions with one identity are the same;
- a reference to a definition that is held has its form and name;
- a reference to a definition under construction is the handle of it,
  and nothing that is held has its identity yet.

It speaks of a set of parts and not of a list of types, so that giving
something up is monotonicity (`Consistent.mono`). What can be added is
said once and for all: nodes that are neither definitions nor references
(`Consistent.add`), handles (`Consistent.addHandle`), and what a handle
is completed to, which ends its construction (`Consistent.complete`).
-/

namespace Schemata

/-- Of a recursive node: no field of a struct, and not every variant of a
union, can only be satisfied by a value that holds one of the node
itself. -/
def Ty.Grounded : Ty → Prop
  | .struct (.recursive _ id) fields =>
      ∀ f ∈ fields, f.2.forcing (· == id) = false
  | .union (.recursive _ id) variants =>
      ∃ v ∈ variants, v.forcing (· == id) = false
  | _ => True

theorem Ty.grounded_of_defId?_none {t : Ty} (h : t.defId? = none) :
    t.Grounded := by
  cases t with
  | struct label fields =>
      cases label <;> simp_all [defId?, Label.id?, Grounded]
  | union label variants =>
      cases label <;> simp_all [defId?, Label.id?, Grounded]
  | _ => trivial

/-- A regular node that neither defines nor refers to anything. -/
def Ty.Plain (t : Ty) : Prop := t.defId? = none ∧ t.target? = none ∧ t.Regular

/-- What a definition under construction may be completed to: a plain
node, or a grounded one with the identity, form and name of the handle. -/
structure Handle.Completed (k : Handle) (t : Ty) : Prop where
  regular : t.Regular
  grounded : t.Grounded
  noReference : t.target? = none
  identity : t.defId? = none
    ∨ t.defId? = some k.id ∧ t.nominal? = k.ref.nominal?

/-- The parts that are `here`, while the definitions of `handles` are
under construction. -/
structure Consistent (here : Ty → Prop) (handles : List Handle) : Prop where
  regular : ∀ p, here p → p.Regular
  grounded : ∀ p, here p → p.Grounded
  unique : ∀ p q id, here p → here q →
    p.defId? = some id → q.defId? = some id → p = q
  named : ∀ form name id d, here (.ref form name id) → here d →
    d.defId? = some id → d.nominal? = some (form, name)
  handleRef : ∀ h ∈ handles, ∀ form name, here (.ref form name h.id) →
    Ty.ref form name h.id = h.ref
  handleNew : ∀ h ∈ handles, ∀ d, here d → d.defId? ≠ some h.id
  handlesDistinct : (handles.map Handle.id).Nodup

namespace Consistent

variable {here : Ty → Prop} {handles : List Handle}

theorem empty : Consistent (fun _ => False) [] where
  regular _ h := h.elim
  grounded _ h := h.elim
  unique _ _ _ h := h.elim
  named _ _ _ _ h := h.elim
  handleRef _ h := by cases h
  handleNew _ h := by cases h
  handlesDistinct := List.nodup_nil

theorem mono {here' : Ty → Prop} (hsub : ∀ p, here' p → here p)
    (h : Consistent here handles) : Consistent here' handles where
  regular p hp := h.regular p (hsub p hp)
  grounded p hp := h.grounded p (hsub p hp)
  unique p q id hp hq := h.unique p q id (hsub p hp) (hsub q hq)
  named form name id d hr hd := h.named form name id d (hsub _ hr) (hsub d hd)
  handleRef k hk form name hr := h.handleRef k hk form name (hsub _ hr)
  handleNew k hk d hd := h.handleNew k hk d (hsub d hd)
  handlesDistinct := h.handlesDistinct

/-- Plain nodes may always be added. -/
theorem add (new : Ty → Prop) (h : Consistent here handles)
    (hnew : ∀ p, new p → p.Plain) :
    Consistent (fun p => new p ∨ here p) handles where
  regular p hp := hp.elim (fun hp => (hnew p hp).2.2) (h.regular p)
  grounded p hp := by
    rcases hp with hp | hp
    · exact Ty.grounded_of_defId?_none (hnew p hp).1
    · exact h.grounded p hp
  unique p q id hp hq hpid hqid := by
    rcases hp with hp | hp
    · rw [(hnew p hp).1] at hpid; cases hpid
    · rcases hq with hq | hq
      · rw [(hnew q hq).1] at hqid; cases hqid
      · exact h.unique p q id hp hq hpid hqid
  named form name id d hr hd hid := by
    rcases hr with hr | hr
    · have := (hnew _ hr).2.1; cases this
    · rcases hd with hd | hd
      · rw [(hnew d hd).1] at hid; cases hid
      · exact h.named form name id d hr hd hid
  handleRef k hk form name hr := by
    rcases hr with hr | hr
    · have := (hnew _ hr).2.1; cases this
    · exact h.handleRef k hk form name hr
  handleNew k hk d hd := by
    rcases hd with hd | hd
    · rw [(hnew d hd).1]; nofun
    · exact h.handleNew k hk d hd
  handlesDistinct := h.handlesDistinct

theorem handle_eq_of_id {k k' : Handle} (h : (handles.map Handle.id).Nodup)
    (hk : k ∈ handles) (hk' : k' ∈ handles) (hid : k.id = k'.id) : k = k' :=
  List.inj_on_of_nodup_map h hk hk' hid

/-- The reference that a handle stands for may be used while the handle
is there. -/
theorem addHandle {k : Handle} (h : Consistent here handles)
    (hk : k ∈ handles) :
    Consistent (fun p => p = k.ref ∨ here p) handles where
  regular p hp := hp.elim (fun hp => by subst hp; trivial) (h.regular p)
  grounded p hp := hp.elim (fun hp => by subst hp; trivial) (h.grounded p)
  unique p q id hp hq hpid hqid := by
    rcases hp with rfl | hp
    · cases hpid
    · rcases hq with rfl | hq
      · cases hqid
      · exact h.unique p q id hp hq hpid hqid
  named form name id d hr hd hid := by
    rcases hd with rfl | hd
    · cases hid
    · rcases hr with hr | hr
      · obtain ⟨-, -, rfl⟩ := Ty.ref.inj hr
        exact absurd hid (h.handleNew k hk d hd)
      · exact h.named form name id d hr hd hid
  handleRef k' hk' form name hr := by
    rcases hr with hr | hr
    · obtain ⟨hform, hname, hid⟩ := Ty.ref.inj hr
      rw [hr, handle_eq_of_id h.handlesDistinct hk' hk hid]
    · exact h.handleRef k' hk' form name hr
  handleNew k' hk' d hd := by
    rcases hd with rfl | hd
    · nofun
    · exact h.handleNew k' hk' d hd
  handlesDistinct := h.handlesDistinct

/-- A new definition may be begun under an identity that nothing uses. -/
theorem enter {k : Handle} (h : Consistent here handles)
    (hnew : ∀ p, here p → p.defId? ≠ some k.id ∧ p.target? ≠ some k.id)
    (hid : k.id ∉ handles.map Handle.id) : Consistent here (k :: handles) where
  regular := h.regular
  grounded := h.grounded
  unique := h.unique
  named := h.named
  handleRef k' hk' form name hr := by
    rcases List.mem_cons.mp hk' with rfl | hk'
    · exact absurd rfl (hnew _ hr).2
    · exact h.handleRef k' hk' form name hr
  handleNew k' hk' d hd := by
    rcases List.mem_cons.mp hk' with rfl | hk'
    · exact (hnew d hd).1
    · exact h.handleNew k' hk' d hd
  handlesDistinct := List.nodup_cons.mpr ⟨hid, h.handlesDistinct⟩

/-- The handle is given up, with or without a result. -/
theorem leave {k : Handle} (h : Consistent here (k :: handles)) :
    Consistent here handles where
  regular := h.regular
  grounded := h.grounded
  unique := h.unique
  named := h.named
  handleRef k' hk' := h.handleRef k' (List.mem_cons_of_mem _ hk')
  handleNew k' hk' := h.handleNew k' (List.mem_cons_of_mem _ hk')
  handlesDistinct := (List.nodup_cons.mp h.handlesDistinct).2

/-- The definition that a handle stands for, when it is complete. -/
theorem define {k : Handle} {t : Ty} (h : Consistent here (k :: handles))
    (hid : t.defId? = some k.id) (hname : t.nominal? = k.ref.nominal?)
    (hregular : t.Regular) (hgrounded : t.Grounded) :
    Consistent (fun p => p = t ∨ here p) handles where
  regular p hp := hp.elim (fun hp => hp ▸ hregular) (h.regular p)
  grounded p hp := hp.elim (fun hp => hp ▸ hgrounded) (h.grounded p)
  unique p q id hp hq hpid hqid := by
    have hk := List.mem_cons_self (a := k) (l := handles)
    rcases hp with rfl | hp <;> rcases hq with rfl | hq
    · rfl
    · obtain rfl := Option.some.inj (hid.symm.trans hpid)
      exact absurd hqid (h.handleNew k hk q hq)
    · obtain rfl := Option.some.inj (hid.symm.trans hqid)
      exact absurd hpid (h.handleNew k hk p hp)
    · exact h.unique p q id hp hq hpid hqid
  named form name id d hr hd hdid := by
    rcases hr with hr | hr
    · subst hr; cases hid
    · rcases hd with rfl | hd
      · obtain rfl := Option.some.inj (hid.symm.trans hdid)
        rw [hname, ← h.handleRef k (List.mem_cons_self ..) form name hr]
        rfl
      · exact h.named form name id d hr hd hdid
  handleRef k' hk' form name hr := by
    rcases hr with hr | hr
    · subst hr; cases hid
    · exact h.handleRef k' (List.mem_cons_of_mem _ hk') form name hr
  handleNew k' hk' d hd := by
    rcases hd with rfl | hd
    · rw [hid]
      intro heq
      have hnd := (List.nodup_cons.mp h.handlesDistinct).1
      exact hnd (List.mem_map.mpr ⟨k', hk', (Option.some.inj heq).symm⟩)
    · exact h.handleNew k' (List.mem_cons_of_mem _ hk') d hd
  handlesDistinct := (List.nodup_cons.mp h.handlesDistinct).2

/-- Completing a definition, whether it turned out to be recursive or
not, ends its construction. -/
theorem complete {k : Handle} {t : Ty} (h : Consistent here (k :: handles))
    (ht : k.Completed t) : Consistent (fun p => p = t ∨ here p) handles := by
  rcases ht.identity with hnone | ⟨hid, hname⟩
  · have hplain : t.Plain := ⟨hnone, ht.noReference, ht.regular⟩
    exact h.leave.add (· = t) fun p hp => hp ▸ hplain
  · exact h.define hid hname ht.regular ht.grounded

end Consistent

end Schemata
