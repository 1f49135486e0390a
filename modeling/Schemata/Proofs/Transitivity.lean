import Mathlib
import Schemata.Proofs.Derivation
import Schemata.Proofs.Interchange
import Schemata.Proofs.UnionLaws

/-!
# Subtyping without references is a preorder

A type without a reference inside of it has no recursive definition inside
of it either (`Ty.Derivable.acyclic`). On such types nothing is ever
recorded by the search, so the rules relate subtyping to itself
(`Scope.isSubtype_iff_plainRule`).

Two derivations are composed by looking at the second one first. If it ends
with equality, with `Any` or in a variant on the right, the first one is
used as it is. Otherwise the middle type is a union or a struct that is
taken apart on the left, and the first derivation must have put it
together, or else it took apart a union on its own left. Each of these
cases composes derivations for types of which at least one is smaller and
none is larger. Equality reorders fields and variants, so a derivation that
ends with it is composed by the congruence of subtyping
(`Scope.isSubtype_alike`).
-/

namespace Schemata

namespace Ty

/-- No part is a reference. -/
def ReferenceFree (t : Ty) : Prop := ∀ p ∈ t.parts, p.target? = none

/-- A well-formed type with neither definitions nor references inside. -/
structure Acyclic (t : Ty) : Prop where
  wellFormed : t.WellFormed
  plain : ∀ p ∈ t.parts, p.isRecursive = false

theorem Acyclic.component {c t : Ty} (h : t.Acyclic)
    (hc : c ∈ t.components) : c.Acyclic where
  wellFormed := h.wellFormed.component hc
  plain p hp := h.plain p (mem_parts_trans hp (mem_parts_of_component hc))

theorem Acyclic.top {t : Ty} (h : t.Acyclic) : t.isRecursive = false :=
  h.plain t (mem_parts_self t)

/-- Only definitions and references are recursive, and a definition has a
reference inside of it. -/
theorem Derivable.acyclic {t : Ty} (h : t.Derivable)
    (hfree : t.ReferenceFree) : t.Acyclic where
  wellFormed := h.wellFormed
  plain p hp := by
    rw [isRecursive_eq_or, hfree p hp, Option.isSome_none, Bool.or_false]
    by_contra hid
    obtain ⟨q, hq, htarget⟩ := (h.sealed p hp).tied (eq_true_of_ne_false hid)
    rw [hfree q (mem_parts_trans hq hp)] at htarget
    cases htarget

end Ty

namespace Scope

/-! ## The rules -/

/-- The rules of subtyping, when nothing has to be recorded. -/
inductive PlainRule (sub : Ty → Ty → Prop) : Ty → Ty → Prop where
  | equal {a b} (h : (a == b) = true) : PlainRule sub a b
  | toAny {a} : PlainRule sub a .any
  | toUnion {a label variants v} (hv : v ∈ variants) (h : sub a v) :
      PlainRule sub a (.union label variants)
  | ofUnion {b label variants} (h : ∀ v ∈ variants, sub v b) :
      PlainRule sub (.union label variants) b
  | fields {la fields lb required}
      (h : ∀ g ∈ required, ∃ t, fields.lookup g.1 = some t ∧ sub t g.2) :
      PlainRule sub (.struct la fields) (.struct lb required)

variable {S : Scope} {a b c : Ty}

theorem resolve_of_acyclic (h : a.Acyclic) : S.resolve a = a := by
  cases a with
  | ref form name target => cases h.top
  | _ => rfl

/-- Where nothing is recursive, nothing is recorded. -/
theorem expands_plain {P P' : Pending} {recursive : Bool}
    (hP : P.Expands recursive a b P') (h : recursive = false) : P' = P := by
  rcases hP with ⟨-, rfl⟩ | ⟨hrecursive, -⟩
  · rfl
  · simp [h] at hrecursive

theorem assumes_plain {P P' : Pending} {recursive : Bool}
    (hP : P.Assumes recursive a b P') (h : recursive = false) : P' = P := by
  rcases hP with ⟨-, rfl⟩ | ⟨hrecursive, -⟩
  · rfl
  · simp [h] at hrecursive

theorem isSubtype_iff_plainRule (ha : a.Acyclic) (hb : b.Acyclic) :
    S.isSubtype a b = true ↔
      PlainRule (fun x y => S.isSubtype x y = true) a b := by
  have hplain : (a.isRecursive || b.isRecursive) = false :=
    Bool.or_eq_false_iff.mpr ⟨ha.top, hb.top⟩
  rw [isSubtype_iff_subtypeUnder, subtypeUnder_iff, resolve_of_acyclic ha,
    resolve_of_acyclic hb]
  simp only [isSubtype_iff_subtypeUnder]
  constructor
  · rintro (h | rfl | h)
    · exact .equal h
    · exact .toAny
    · cases h with
      | toUnion hP hv hsub =>
          obtain rfl := expands_plain hP hb.top
          exact .toUnion hv hsub
      | ofUnion hP hsub =>
          obtain rfl := expands_plain hP ha.top
          exact .ofUnion hsub
      | assumed _ hmem => cases hmem
      | fields hP hsub =>
          obtain rfl := assumes_plain hP hplain
          exact .fields hsub
  · intro h
    cases h with
    | equal h => exact Or.inl h
    | toAny => exact Or.inr (Or.inl rfl)
    | toUnion hv hsub =>
        exact Or.inr (Or.inr (.toUnion (Or.inl ⟨hb.top, rfl⟩) hv hsub))
    | ofUnion hsub =>
        exact Or.inr (Or.inr (.ofUnion (Or.inl ⟨ha.top, rfl⟩) hsub))
    | fields hsub =>
        exact Or.inr (Or.inr (.fields (Or.inl ⟨hplain, rfl⟩) hsub))

/-! ## Equal types -/

theorem defId?_of_acyclic (h : a.Acyclic) : a.defId? = none := by
  have htop := h.top
  rw [Ty.isRecursive_eq_or, Bool.or_eq_false_iff] at htop
  simpa using htop.1

theorem linked_acyclic (S : Scope) : S.Linked Ty.Acyclic where
  component ht hc := ht.component hc
  follow h := by cases h.top
  find h hid := by
    rw [defId?_of_acyclic h] at hid
    cases hid
  regular h := h.wellFormed.regular
  grounded h := Ty.grounded_of_defId?_none (defId?_of_acyclic h)

theorem agree_acyclic : Agree Ty.Acyclic := by
  intro p q hp _ hid
  rw [defId?_of_acyclic hp] at hid
  cases hid

/-- Equal types have the same supertypes. -/
theorem isSubtype_congr_left (ha : a.Acyclic) (hb : b.Acyclic)
    (hc : c.Acyclic) (h : (a == b) = true) :
    S.isSubtype a c = S.isSubtype b c :=
  isSubtype_alike S.linked_acyclic agree_acyclic ⟨ha, hb, h⟩
    ⟨hc, hc, Ty.beq_self c⟩

/-- Equal types have the same subtypes. -/
theorem isSubtype_congr_right (ha : a.Acyclic) (hb : b.Acyclic)
    (hc : c.Acyclic) (h : (b == c) = true) :
    S.isSubtype a b = S.isSubtype a c :=
  isSubtype_alike S.linked_acyclic agree_acyclic ⟨ha, ha, Ty.beq_self a⟩
    ⟨hb, hc, h⟩

/-! ## Composition -/

theorem isSubtype_refl (S : Scope) (a : Ty) : S.isSubtype a a = true :=
  isSubtype_iff.mpr ⟨1, subtypeWithin_succ.mpr (Or.inl (Ty.beq_self a))⟩

theorem isSubtype_any (S : Scope) (a : Ty) : S.isSubtype a .any = true :=
  isSubtype_iff.mpr ⟨1, subtypeWithin_succ.mpr (Or.inr (Or.inl rfl))⟩

/-- Derivations can be composed for types that have at most `n` parts
together. -/
def TransWithin (S : Scope) (n : Nat) : Prop :=
  ∀ {a b c : Ty}, a.Acyclic → b.Acyclic → c.Acyclic →
    a.parts.length + b.parts.length + c.parts.length ≤ n →
    S.isSubtype a b = true → S.isSubtype b c = true → S.isSubtype a c = true

theorem TransWithin.fields {n : Nat} (ih : S.TransWithin n)
    {la lb lc : Label} {fs gs hs : List (String × Ty)}
    (ha : (Ty.struct la fs).Acyclic) (hb : (Ty.struct lb gs).Acyclic)
    (hc : (Ty.struct lc hs).Acyclic)
    (hn : (Ty.struct la fs).parts.length + (Ty.struct lb gs).parts.length
      + (Ty.struct lc hs).parts.length ≤ n + 1)
    (hab : ∀ g ∈ gs, ∃ t, fs.lookup g.1 = some t ∧ S.isSubtype t g.2 = true)
    (hbc : ∀ h ∈ hs, ∃ t, gs.lookup h.1 = some t ∧ S.isSubtype t h.2 = true) :
    ∀ h ∈ hs, ∃ t, fs.lookup h.1 = some t ∧ S.isSubtype t h.2 = true := by
  intro h hh
  obtain ⟨u, hu, hsub⟩ := hbc h hh
  have hmem := mem_of_lookup hu
  obtain ⟨t, ht, hsub'⟩ := hab _ hmem
  have hct : t ∈ (Ty.struct la fs).components :=
    List.mem_map.mpr ⟨_, mem_of_lookup ht, rfl⟩
  have hcu : u ∈ (Ty.struct lb gs).components :=
    List.mem_map.mpr ⟨_, hmem, rfl⟩
  have hch : h.2 ∈ (Ty.struct lc hs).components :=
    List.mem_map.mpr ⟨h, hh, rfl⟩
  have hlt := Ty.length_parts_component_lt hct
  have hlu := Ty.length_parts_component_lt hcu
  have hlh := Ty.length_parts_component_lt hch
  refine ⟨t, ht, ?_⟩
  exact ih (ha.component hct) (hb.component hcu) (hc.component hch) (by omega)
    hsub' hsub

theorem transWithin (S : Scope) (n : Nat) : S.TransWithin n := by
  induction n with
  | zero =>
      intro a b c _ _ _ hn
      rw [Ty.parts_eq a, List.length_cons] at hn
      omega
  | succ n ih =>
      intro a b c ha hb hc hn hab hbc
      -- a union on the left is taken apart before anything else
      have hleft : ∀ {label variants}, a = .union label variants →
          (∀ v ∈ variants, S.isSubtype v b = true) →
          S.isSubtype a c = true := by
        rintro label variants rfl hall
        refine (isSubtype_iff_plainRule ha hc).mpr (.ofUnion fun v hv => ?_)
        have hcv : v ∈ (Ty.union label variants).components := hv
        have hlt := Ty.length_parts_component_lt hcv
        exact ih (ha.component hcv) hb hc (by omega) (hall v hv) hbc
      cases (isSubtype_iff_plainRule hb hc).mp hbc with
      | equal h => rwa [← isSubtype_congr_right ha hb hc h]
      | toAny => exact S.isSubtype_any a
      | @toUnion _ label variants v hv hsub =>
          have hcv : v ∈ (Ty.union label variants).components := hv
          have hlt := Ty.length_parts_component_lt hcv
          refine (isSubtype_iff_plainRule ha hc).mpr (.toUnion hv ?_)
          exact ih ha hb (hc.component hcv) (by omega) hab hsub
      | @ofUnion _ label variants hall =>
          cases (isSubtype_iff_plainRule ha hb).mp hab with
          | equal h => rwa [isSubtype_congr_left ha hb hc h]
          | @toUnion _ _ _ v hv hsub =>
              have hcv : v ∈ (Ty.union label variants).components := hv
              have hlt := Ty.length_parts_component_lt hcv
              exact ih ha (hb.component hcv) hc (by omega) hsub (hall v hv)
          | ofUnion hall' => exact hleft rfl hall'
      | fields hfields =>
          cases (isSubtype_iff_plainRule ha hb).mp hab with
          | equal h => rwa [isSubtype_congr_left ha hb hc h]
          | ofUnion hall' => exact hleft rfl hall'
          | fields hfields' =>
              refine (isSubtype_iff_plainRule ha hc).mpr (.fields ?_)
              exact ih.fields ha hb hc hn hfields' hfields

/-- Every type is a subtype of itself and of `Any`; and of types without
references, in any scope, a subtype of a subtype is a subtype. -/
theorem isSubtype_preorder (S : Scope) :
    (∀ a, S.isSubtype a a = true) ∧ (∀ a, S.isSubtype a .any = true)
    ∧ ∀ a b c : Ty, a.Derivable → b.Derivable → c.Derivable →
        a.ReferenceFree → b.ReferenceFree → c.ReferenceFree →
        S.isSubtype a b = true → S.isSubtype b c = true →
        S.isSubtype a c = true := by
  refine ⟨S.isSubtype_refl, S.isSubtype_any, ?_⟩
  intro a b c ha hb hc hfa hfb hfc hab hbc
  exact S.transWithin _ (ha.acyclic hfa) (hb.acyclic hfb) (hc.acyclic hfc)
    (Nat.le_refl _) hab hbc

/-- A struct that fits a variant of a union after a field is widened, and a
union whose variants fit another one after fields are dropped. -/
theorem isSubtype_trans_variants :
    let a : Ty := .struct (.plain (some "A"))
      [("x", .scalar .int), ("y", .null)]
    let b : Ty := .union (.plain none)
      [.struct (.plain none) [("x", .union (.plain none) [.scalar .int, .null])],
        .null]
    let c : Ty := .union (.plain (some "C")) [.null, .struct (.plain none) []]
    let S : Scope := .ofHeld [a, b, c]
    (a.Derivable ∧ b.Derivable ∧ c.Derivable)
    ∧ (a.ReferenceFree ∧ b.ReferenceFree ∧ c.ReferenceFree)
    ∧ S.isSubtype a b = true ∧ S.isSubtype b c = true
    ∧ S.isSubtype a c = true := by
  intro a b c S
  have heval : TypeExpr.evalList Session.empty.context
      [.struct (some "A") [("x", .scalar .int), ("y", .null)],
        .union none [.struct none [("x", .nullable (.scalar .int))], .null],
        .union (some "C") [.null, .struct none []]] = .ok [a, b, c] := by cbv
  have hderivable : ∀ t ∈ [a, b, c], t.Derivable :=
    TypeExpr.evalList_derivable _ Session.Reachable.empty.derives heval
  have ha : a.Derivable := hderivable a (by simp)
  have hb : b.Derivable := hderivable b (by simp)
  have hc : c.Derivable := hderivable c (by simp)
  have hfa : a.ReferenceFree := by unfold Ty.ReferenceFree; decide
  have hfb : b.ReferenceFree := by unfold Ty.ReferenceFree; decide
  have hfc : c.ReferenceFree := by unfold Ty.ReferenceFree; decide
  have hab : S.isSubtype a b = true := by decide +kernel
  have hbc : S.isSubtype b c = true := by decide +kernel
  refine ⟨⟨ha, hb, hc⟩, ⟨hfa, hfb, hfc⟩, hab, hbc, ?_⟩
  exact S.isSubtype_preorder.2.2 a b c ha hb hc hfa hfb hfc hab hbc

end Scope

end Schemata
