import Mathlib
import Schemata.Proofs.Transitivity
import Schemata.Proofs.UnionAlgebra

/-!
# Unions are least upper bounds

Among the types without references, the union of two types is the least
type that both are subtypes of, and the nullable type is the least one that
the type and `Null` are subtypes of (`Scope.unionOf_least_above`).

Operands are taken apart, so it is not the operands that are variants of the
result. But an anonymous union is a subtype of `c` exactly if all its
variants are, and any other type stands for itself
(`isSubtype_iff_flattened`). So it suffices that in the variants of the
result and in those of the operands the same types are found
(`LeastAbove.of_sameTypes`). From right to left this is a rule; from left to
right it takes transitivity, because `c` may be reached from the union by
other rules.

A type that accepts null already is its own nullable type. It may do so by
a variant of a named union, which is not taken apart; then `Null` is a
subtype by that variant.
-/

namespace Schemata

namespace Ty

/-- A plain node on top of types without references is one. -/
theorem acyclic_node {t : Ty} (hregular : t.Regular)
    (hplain : t.isRecursive = false) (hc : ∀ c ∈ t.components, c.Acyclic) :
    t.Acyclic where
  wellFormed p hp := by
    rcases mem_parts_iff.mp hp with rfl | ⟨c, hmem, hp⟩
    · exact hregular
    · exact (hc c hmem).wellFormed p hp
  plain p hp := by
    rcases mem_parts_iff.mp hp with rfl | ⟨c, hmem, hp⟩
    · exact hplain
    · exact (hc c hmem).plain p hp

theorem acyclic_null : Acyclic .null :=
  acyclic_node trivial rfl fun _ hc => (List.not_mem_nil hc).elim

theorem Acyclic.flattened {t : Ty} (h : t.Acyclic) :
    ∀ v ∈ t.flattened, v.Acyclic := by
  intro v hv
  rcases mem_flattened hv with rfl | hv
  · exact h
  · exact h.component hv

end Ty

namespace Scope

variable {S : Scope} {a b c t u : Ty}

/-! ## Variants -/

theorem isSubtype_of_beq (h : (a == b) = true) : S.isSubtype a b = true :=
  isSubtype_iff.mpr ⟨1, subtypeWithin_succ.mpr (Or.inl h)⟩

theorem isSubtype_trans (ha : a.Acyclic) (hb : b.Acyclic) (hc : c.Acyclic)
    (hab : S.isSubtype a b = true) (hbc : S.isSubtype b c = true) :
    S.isSubtype a c = true :=
  S.transWithin _ ha hb hc (Nat.le_refl _) hab hbc

theorem isSubtype_of_mem_flattened (ha : a.Acyclic) {v : Ty}
    (hv : v ∈ a.flattened) : S.isSubtype v a = true := by
  have hplain := (isSubtype_iff_plainRule (S := S) (ha.flattened v hv) ha).mpr
  unfold Ty.flattened at hv
  split at hv
  · exact hplain (.toUnion hv (S.isSubtype_refl v))
  · obtain rfl := List.mem_singleton.mp hv
    exact S.isSubtype_refl v

/-- A type is below another one exactly if what it stands for is. -/
theorem isSubtype_iff_flattened (ha : a.Acyclic) (hc : c.Acyclic) :
    S.isSubtype a c = true ↔ ∀ v ∈ a.flattened, S.isSubtype v c = true := by
  constructor
  · intro hac v hv
    exact isSubtype_trans (ha.flattened v hv) ha hc
      (isSubtype_of_mem_flattened ha hv) hac
  · intro hall
    have hplain := (isSubtype_iff_plainRule (S := S) ha hc).mpr
    unfold Ty.flattened at hall
    split at hall
    · exact hplain (.ofUnion hall)
    · exact hall a (List.mem_singleton.mpr rfl)

/-! ## Least upper bounds -/

/-- Above all of `ts`, and below all types without references that are. -/
structure LeastAbove (S : Scope) (ts : List Ty) (u : Ty) : Prop where
  above : ∀ t ∈ ts, S.isSubtype t u = true
  least : ∀ c : Ty, c.Acyclic → (∀ t ∈ ts, S.isSubtype t c = true) →
    S.isSubtype u c = true

/-- A type that stands for what others stand for is the least above them. -/
theorem LeastAbove.of_sameTypes {ts : List Ty} (hts : ∀ t ∈ ts, t.Acyclic)
    (hu : u.Acyclic) (h : Ty.SameTypes u.flattened (ts.flatMap Ty.flattened)) :
    S.LeastAbove ts u where
  above t ht := by
    refine (isSubtype_iff_flattened (hts t ht) hu).mpr fun v hv => ?_
    obtain ⟨w, hw, hvw⟩ := h.back v (List.mem_flatMap.mpr ⟨t, ht, hv⟩)
    exact isSubtype_trans ((hts t ht).flattened v hv) (hu.flattened w hw) hu
      (isSubtype_of_beq hvw) (isSubtype_of_mem_flattened hu hw)
  least c hc hall := by
    refine (isSubtype_iff_flattened hu hc).mpr fun w hw => ?_
    obtain ⟨v, hv, hwv⟩ := h.found w hw
    obtain ⟨t, ht, hv⟩ := List.mem_flatMap.mp hv
    have hvc := (isSubtype_iff_flattened (hts t ht) hc).mp (hall t ht) v hv
    exact isSubtype_trans (hu.flattened w hw) ((hts t ht).flattened v hv) hc
      (isSubtype_of_beq hwv) hvc

theorem leastAbove_unionOf (ha : a.Acyclic) (hb : b.Acyclic)
    (h : Ty.unionOf a b = .ok u) : S.LeastAbove [a, b] u := by
  obtain ⟨hlen, rfl⟩ := Ty.unionOf_ok h
  have hu : (Ty.union (.plain none) (Ty.joined a b)).Acyclic := by
    refine Ty.acyclic_node ⟨hlen, Ty.distinct_pairwise _⟩ rfl fun v hv => ?_
    rcases List.mem_append.mp (Ty.mem_of_mem_distinct hv) with hv | hv
    · exact ha.flattened v hv
    · exact hb.flattened v hv
  refine .of_sameTypes (by simp [ha, hb]) hu ?_
  rw [List.flatMap_cons, List.flatMap_singleton]
  exact Ty.SameTypes.distinct (a.flattened ++ b.flattened)

/-- A variant is below its union, also if the union is recursive or is
referred to, as long as it is equal to what it leads to. -/
theorem isSubtype_of_variant {v : Ty} {label : Label} {variants : List Ty}
    (ht : S.resolve t = .union label variants) (hv : v ∈ variants)
    (hbeq : (S.resolve v == v) = true) : S.isSubtype v t = true := by
  refine isSubtype_iff_subtypeUnder.mpr (subtypeUnder_iff.mpr ?_)
  refine Or.inr (Or.inr ?_)
  rw [ht, rule_empty_union_right]
  exact Or.inl ⟨v, hv, subtypeUnder_iff.mpr (Or.inl hbeq)⟩

/-- What accepts null has `Null` below it. -/
theorem isSubtype_null_of_nullable (hbeq : (S.resolve t == t) = true)
    (h : S.isNullable t = true) : S.isSubtype .null t = true := by
  unfold isNullable at h
  split at h
  · next ht =>
      rw [ht] at hbeq
      exact isSubtype_of_beq hbeq
  · next ht =>
      rw [ht] at hbeq
      rw [Ty.any_beq_iff.mp hbeq]
      exact S.isSubtype_any .null
  · next label variants ht =>
      obtain ⟨v, hv, hnull⟩ := List.any_eq_true.mp h
      cases v with
      | null => exact isSubtype_of_variant ht hv (Ty.beq_self .null)
      | _ => cases hnull
  · cases h

/-- Where null has to be added, it is added by a union. -/
theorem unionOf_null (ht : t.WellFormed) (h : S.isNullable t = false) :
    Ty.unionOf t .null = .ok (S.nullable t) := by
  rw [nullable_eq h]
  refine Ty.unionOf_of_le (Nat.le_of_not_lt fun hlt => ?_)
  have hbeq :=
    ((Ty.length_joined_lt_iff ht Ty.acyclic_null.wellFormed).mp hlt).1
  obtain rfl := Ty.null_beq_iff.mp (Ty.beq_symm ht hbeq)
  cases h

theorem leastAbove_nullable (ht : t.Acyclic) :
    S.LeastAbove [t, .null] (S.nullable t) := by
  cases h : S.isNullable t with
  | true =>
      rw [nullable_of_nullable h]
      have hbeq : (S.resolve t == t) = true := by
        rw [resolve_of_acyclic ht]
        exact Ty.beq_self t
      have hnull := isSubtype_null_of_nullable hbeq h
      refine ⟨by simp [hnull, S.isSubtype_refl t], fun c _ hall => ?_⟩
      exact hall t List.mem_cons_self
  | false =>
      exact leastAbove_unionOf ht Ty.acyclic_null (unionOf_null ht.wellFormed h)

/-- In every scope, and among types without references: the union of two
types is above both and below whatever is above both, and the nullable type
is above the type and `Null` and below whatever is above them. -/
theorem unionOf_least_above (S : Scope) :
    (∀ a b u : Ty, a.Derivable → b.Derivable → a.ReferenceFree →
      b.ReferenceFree → Ty.unionOf a b = .ok u →
      S.isSubtype a u = true ∧ S.isSubtype b u = true
      ∧ ∀ c : Ty, c.Derivable → c.ReferenceFree →
        S.isSubtype a c = true → S.isSubtype b c = true →
        S.isSubtype u c = true)
    ∧ ∀ t : Ty, t.Derivable → t.ReferenceFree →
      S.isSubtype t (S.nullable t) = true
      ∧ S.isSubtype .null (S.nullable t) = true
      ∧ ∀ c : Ty, c.Derivable → c.ReferenceFree →
        S.isSubtype t c = true → S.isSubtype .null c = true →
        S.isSubtype (S.nullable t) c = true := by
  constructor
  · intro a b u ha hb hfa hfb hu
    obtain ⟨habove, hleast⟩ :=
      leastAbove_unionOf (S := S) (ha.acyclic hfa) (hb.acyclic hfb) hu
    refine ⟨habove a (by simp), habove b (by simp), ?_⟩
    intro c hc hfc hac hbc
    exact hleast c (hc.acyclic hfc) (by simp [hac, hbc])
  · intro t ht hft
    obtain ⟨habove, hleast⟩ := leastAbove_nullable (S := S) (ht.acyclic hft)
    refine ⟨habove t (by simp), habove .null (by simp), ?_⟩
    intro c hc hfc htc hnc
    exact hleast c (hc.acyclic hfc) (by simp [htc, hnc])

/-- An anonymous union that is taken apart, and a named one that is not and
already accepts null; both fit into a third one. -/
theorem unionOf_least_above_named :
    let a : Ty := .union (.plain none)
      [.scalar .int, .struct (.plain none) [("x", .scalar .int)]]
    let b : Ty := .union (.plain (some "N")) [.scalar .string, .null]
    let c : Ty := .union (.plain (some "C"))
      [.null, .struct (.plain none) [], .scalar .string, .scalar .int]
    let u : Ty := .union (.plain none)
      [.scalar .int, .struct (.plain none) [("x", .scalar .int)], b]
    let S : Scope := .ofHeld [a, b, c]
    (a.Derivable ∧ b.Derivable ∧ c.Derivable)
    ∧ (a.ReferenceFree ∧ b.ReferenceFree ∧ c.ReferenceFree)
    ∧ Ty.unionOf a b = .ok u
    ∧ S.isSubtype a u = true ∧ S.isSubtype b u = true
    ∧ S.isSubtype u c = true
    ∧ S.nullable b = b ∧ S.isSubtype .null (S.nullable b) = true
    ∧ S.isSubtype (S.nullable a) c = true := by
  intro a b c u S
  have heval : TypeExpr.evalList Session.empty.context
      [.union none [.scalar .int, .struct none [("x", .scalar .int)]],
        .union (some "N") [.scalar .string, .null],
        .union (some "C")
          [.null, .struct none [], .scalar .string, .scalar .int]]
      = .ok [a, b, c] := by cbv
  have hderivable : ∀ t ∈ [a, b, c], t.Derivable :=
    TypeExpr.evalList_derivable _ Session.Reachable.empty.derives heval
  have ha : a.Derivable := hderivable a (by simp)
  have hb : b.Derivable := hderivable b (by simp)
  have hc : c.Derivable := hderivable c (by simp)
  have hfa : a.ReferenceFree := by unfold Ty.ReferenceFree; decide
  have hfb : b.ReferenceFree := by unfold Ty.ReferenceFree; decide
  have hfc : c.ReferenceFree := by unfold Ty.ReferenceFree; decide
  have hu : Ty.unionOf a b = .ok u := by cbv
  have hac : S.isSubtype a c = true := by decide +kernel
  have hbc : S.isSubtype b c = true := by decide +kernel
  have hnc : S.isSubtype .null c = true := by decide +kernel
  obtain ⟨hunion, hnullable⟩ := S.unionOf_least_above
  obtain ⟨hau, hbu, hleast⟩ := hunion a b u ha hb hfa hfb hu
  refine ⟨⟨ha, hb, hc⟩, ⟨hfa, hfb, hfc⟩, hu, hau, hbu, ?_, ?_, ?_, ?_⟩
  · exact hleast c hc hfc hac hbc
  · cbv
  · exact (hnullable b hb hfb).2.1
  · exact (hnullable a ha hfa).2.2 c hc hfc hac hnc

end Scope

end Schemata
