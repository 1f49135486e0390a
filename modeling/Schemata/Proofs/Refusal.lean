import Mathlib
import Schemata.Proofs.Membership
import Schemata.Proofs.Reachability
import Schemata.Proofs.UnconditionalCycles

/-!
# Refused definitions have no values

A definition is refused for an unconditional cycle while it does not exist:
references to it cannot be followed, and what it would have held is a list
of members. Suppose it came into being all the same. Then no value would be
an instance of it (`Handle.not_isInstance_of_isCycle`), so the refusal takes
nothing away.

The argument is an infinite descent that is an induction on membership. A
value of a type that forces the definition has, for each rule of
`Scope.Forces`, a part of it or itself that is a value of what the rule goes
on with, and at the reference to the definition it is a value of the whole
definition, which forces itself (`Scope.Forces.not_member`). The derivation
is read in the scope of the refusal and the value in a later one. In between
a reference may have come to resolve to nothing, but not to something else
(`Scope.KeepsTargets`).

The later scope can be the one in which the definition is held besides all
that was held. In a list of types the first part with an identity is found
(`Scope.find?_ofHeld`), so this scope differs from the one of the refusal in
the new definition only.
-/

namespace Schemata

open Value (Member)

namespace Scope

variable {S S' : Scope} {target : DefId} {node : Ty}

/-! ## Infinite descent -/

/-- References that `t` leads to in `S` lead to the same definition in `S'`
or cannot be followed there. Nothing is said of references to `target`. -/
def KeepsTargets (S S' : Scope) (target : DefId) (t : Ty) : Prop :=
  ∀ form name id d d', S.Reaches [t] (.ref form name id) → id ≠ target →
    S.find? id = some d → S'.find? id = some d' → d' = d

/-- Where a node is found that forces itself, nothing that forces it has a
member. -/
theorem Forces.not_member (hnode : S'.find? target = some node)
    (hforces : S.Forces target node) (hkeeps : S.KeepsTargets S' target node)
    {v : Value} {t : Ty} (h : Member S' v t) (hreach : S.Reaches [node] t) :
    ¬S.Forces target t := by
  induction h with
  | @tuple items elements hlen _ ih =>
      intro h
      cases h with
      | element he hforce =>
          have hzip : (items.zip elements).map Prod.snd = elements :=
            List.map_snd_zip (Nat.le_of_eq hlen.symm)
          have hreach := hreach.component he
          rw [← hzip] at he
          obtain ⟨pair, hpair, rfl⟩ := List.mem_map.mp he
          exact ih pair hpair hreach hforce
  | struct _ ih =>
      intro h
      cases h with
      | field hf hforce =>
          exact ih _ hf (hreach.component (List.mem_map_of_mem hf)) hforce
  | union hw _ ih =>
      intro h
      cases h with
      | variants hall => exact ih (hreach.component hw) (hall _ hw)
  | @ref v form name id d hd _ ih =>
      intro h
      by_cases hid : id = target
      · -- the whole definition again, with the same value
        subst hid
        obtain rfl := Option.some.inj (hnode.symm.trans hd)
        exact ih (.start List.mem_cons_self) hforces
      · cases h with
        | self => exact hid rfl
        | follow hd' hforce =>
            obtain rfl := hkeeps form name id _ d hreach hid hd' hd
            exact ih (.follow hreach hd') hforce
  | _ =>
      intro h
      cases h

/-! ## The scope with the definition -/

theorem parts_hold (held : List Ty) (node : Ty) :
    Ty.partsOfList (held ++ [node])
      = Ty.partsOfList held ++ node :: Ty.partsOfList node.components := by
  rw [Ty.partsOfList_append, Ty.partsOfList, Ty.partsOfList, List.append_nil,
    Ty.parts_eq]

theorem find?_hold_self {held : List Ty} (hid : node.defId? = some target)
    (hfresh : ∀ p ∈ Ty.partsOfList held, p.defId? ≠ some target) :
    (ofHeld (held ++ [node])).find? target = some node := by
  have hnone : (Ty.partsOfList held).find? (Ty.hasId target) = none := by
    rw [List.find?_eq_none]
    intro p hp hhas
    exact hfresh p hp (beq_iff_eq.mp hhas)
  have hhas : Ty.hasId target node = true := beq_iff_eq.mpr hid
  rw [find?_ofHeld, parts_hold, List.find?_append, hnone, Option.none_or,
    List.find?_cons_of_pos hhas]

theorem find?_hold_other {held : List Ty} {id : DefId}
    (hid : node.defId? ≠ some id) :
    (ofHeld (held ++ [node])).find? id
      = (ofHeld (held ++ node.components)).find? id := by
  have hhas : ¬Ty.hasId id node = true := fun h => hid (beq_iff_eq.mp h)
  rw [find?_ofHeld, find?_ofHeld, parts_hold, Ty.partsOfList_append,
    List.find?_append, List.find?_append, List.find?_cons_of_neg hhas]

/-- Holding a definition besides its members changes only what is found for
its own identity. -/
theorem keepsTargets_hold {held : List Ty} (hid : node.defId? = some target) :
    (ofHeld (held ++ node.components)).KeepsTargets
      (ofHeld (held ++ [node])) target node := by
  intro form name id d d' _ hne hd hd'
  have hother : node.defId? ≠ some id := by
    rw [hid]
    exact fun heq => hne (Option.some.inj heq).symm
  rw [find?_hold_other hother] at hd'
  exact Option.some.inj (hd'.symm.trans hd)

end Scope

/-! ## Nothing is lost -/

namespace Handle

/-- The node that would have come into being, but for the refusal. -/
inductive Refused (h : Handle) (held : List Ty) : Ty → Prop where
  | struct {label fields} (hcycle : IsCycle (h.defineStruct held fields)) :
      Refused h held (.struct label fields)
  | union {label variants} (hcycle : IsCycle (h.defineUnion held variants)) :
      Refused h held (.union label (Ty.distinct variants))

variable {h : Handle} {held : List Ty} {node : Ty}

theorem Refused.forces (hrefused : h.Refused held node) :
    (Scope.ofHeld (held ++ node.components)).Forces h.id node := by
  cases hrefused with
  | struct hcycle =>
      obtain ⟨f, hf, hforces⟩ := exists_forces_of_isCycle rfl hcycle
      exact .field hf hforces
  | union hcycle => exact .variants (forall_forces_of_isCycle rfl hcycle)

/-- Wherever a refused definition existed with the members it was refused
for, and references to it led to it, it would have no instance. One such
place is the scope of all that was held and the definition. -/
theorem not_isInstance_of_isCycle (hrefused : h.Refused held node) :
    (∀ S : Scope, S.find? h.id = some node →
      (Scope.ofHeld (held ++ node.components)).KeepsTargets S h.id node →
      ∀ v : Value,
        v.isInstance S node = false ∧ v.isInstance S h.ref = false)
    ∧ (node.defId? = some h.id →
      (∀ p ∈ Ty.partsOfList held, p.defId? ≠ some h.id) →
      ∀ v : Value,
        v.isInstance (Scope.ofHeld (held ++ [node])) node = false) := by
  have hnode : ∀ S : Scope, S.find? h.id = some node →
      (Scope.ofHeld (held ++ node.components)).KeepsTargets S h.id node →
      ∀ v : Value, ¬Member S v node := by
    intro S hfind hkeeps v hv
    exact Scope.Forces.not_member hfind hrefused.forces hkeeps hv
      (.start List.mem_cons_self) hrefused.forces
  constructor
  · intro S hfind hkeeps v
    rw [← Bool.not_eq_true, ← Bool.not_eq_true, Value.isInstance_iff,
      Value.isInstance_iff]
    refine ⟨hnode S hfind hkeeps v, fun hv => ?_⟩
    cases hv with
    | ref hd hv =>
        obtain rfl := Option.some.inj (hfind.symm.trans hd)
        exact hnode S hfind hkeeps v hv
  · intro hid hfresh v
    rw [← Bool.not_eq_true, Value.isInstance_iff]
    exact hnode _ (Scope.find?_hold_self hid hfresh)
      (Scope.keepsTargets_hold hid) v

/-- A struct whose only field is another recursive struct, which may leave
itself out but not the first one. -/
theorem not_isInstance_of_isCycle_nested :
    let a : Handle := ⟨.struct, some "A", 1⟩
    let inner : Ty := .struct (.recursive "B" 2)
      [("a", a.ref),
       ("b", .union (.plain none) [.ref .struct "B" 2, .null])]
    let outer : Ty := .struct (.recursive "A" 1) [("f", inner)]
    IsCycle (a.defineStruct [] [("f", inner)])
      ∧ (⟨[outer, inner]⟩ : Scope).find? 1 = some outer
      ∧ ∀ v : Value, v.isInstance ⟨[outer, inner]⟩ outer = false := by
  intro a inner outer
  have hcycle : IsCycle (a.defineStruct [] [("f", inner)]) := by
    refine ⟨.unconditionalCycle a.name
      (Ty.fieldText "f" inner.signature), ?_, ?_⟩
    · cbv
    · cbv
  have hscope : Scope.ofHeld [outer] = ⟨[outer, inner]⟩ := by cbv
  refine ⟨hcycle, rfl, ?_⟩
  rw [← hscope]
  exact (not_isInstance_of_isCycle (.struct hcycle)).2 rfl fun p hp => by
    cases hp

end Handle

end Schemata
