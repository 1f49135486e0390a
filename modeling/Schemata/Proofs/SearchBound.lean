import Mathlib
import Schemata.Proofs.Parts
import Schemata.Proofs.Reachability
import Schemata.Proofs.Subtyping

/-!
# The search for a subtype has steps enough

`Scope.isSubtype` gives the search a number of steps that is computed
from the sizes of the types. What the search would find with any number
of steps it finds with these (`isSubtype_iff`).

More steps never hurt (`subtypeWithin_mono`). For the converse, all
types that are met are parts of the two types or of a definition
(`Covers`), and the measure of a comparison is made of

- the pairs of such parts that are not recorded yet, each worth more
  than the two types can have parts together;
- the number of parts of the two types, where a recursive type counts
  for nothing: what comes before its rule is applied is settled by the
  pair that is recorded.

Every comparison that is opened has a smaller measure (`Opens.cost_lt`).
A pair of structs that is recorded already is not opened again.
-/

namespace Schemata

namespace Scope

variable {S : Scope}

theorem subtypeWithin_mono {n m : Nat} (hnm : n ≤ m) :
    ∀ {P : Pending} {a b : Ty}, S.subtypeWithin n P a b = true →
      S.subtypeWithin m P a b = true := by
  induction n generalizing m with
  | zero =>
      intro P a b h
      cases h
  | succ n ih =>
      intro P a b h
      obtain ⟨m, rfl⟩ : ∃ k, m = k + 1 := ⟨m - 1, by omega⟩
      refine subtypeWithin_succ.mpr ?_
      rcases subtypeWithin_succ.mp h with h | h | h
      · exact Or.inl h
      · exact Or.inr (Or.inl h)
      · exact Or.inr (Or.inr (h.imp fun P' x y => ih (by omega)))

/-! ## The measure -/

/-- The parts of the two types and of all definitions. -/
def allParts (S : Scope) (a b : Ty) : List Ty :=
  a.parts ++ b.parts ++ Ty.partsOfList S.definitions

/-- A list with all definitions and the components of each of its types,
which is longer than each of them is large. -/
structure Covers (S : Scope) (W : List Ty) : Prop where
  component : ∀ {t c}, t ∈ W → c ∈ t.components → c ∈ W
  definition : ∀ {d}, d ∈ S.definitions → d ∈ W
  bound : ∀ {t}, t ∈ W → t.parts.length ≤ W.length

theorem mem_allParts {a b p : Ty} :
    p ∈ S.allParts a b ↔
      ∃ t, (t = a ∨ t = b ∨ t ∈ S.definitions) ∧ p ∈ t.parts := by
  simp only [allParts, List.mem_append, Ty.mem_partsOfList]
  constructor
  · rintro ((h | h) | ⟨t, ht, h⟩)
    · exact ⟨a, Or.inl rfl, h⟩
    · exact ⟨b, Or.inr (Or.inl rfl), h⟩
    · exact ⟨t, Or.inr (Or.inr ht), h⟩
  · rintro ⟨t, rfl | rfl | ht, h⟩
    · exact Or.inl (Or.inl h)
    · exact Or.inl (Or.inr h)
    · exact Or.inr ⟨t, ht, h⟩

theorem covers_allParts (S : Scope) (a b : Ty) : S.Covers (S.allParts a b) where
  component {t c} ht hc := by
    obtain ⟨u, hu, ht⟩ := mem_allParts.mp ht
    have hpart := Ty.mem_parts_trans (Ty.mem_parts_of_component hc) ht
    exact mem_allParts.mpr ⟨u, hu, hpart⟩
  definition {d} hd :=
    mem_allParts.mpr ⟨d, Or.inr (Or.inr hd), Ty.mem_parts_self d⟩
  bound {t} ht := by
    obtain ⟨u, hu, ht⟩ := mem_allParts.mp ht
    refine Nat.le_trans (Ty.length_parts_le ht) ?_
    simp only [allParts, List.length_append]
    rcases hu with rfl | rfl | hu
    · omega
    · omega
    · have hle := Ty.length_parts_le_of_mem hu
      omega

theorem length_allParts (S : Scope) (a b : Ty) :
    (S.allParts a b).length = a.size + b.size + S.size := by
  simp only [allParts, List.length_append, Ty.size_eq, size, Ty.contentsOf_eq,
    Ty.size_contents, Ty.size_contentsOfList]

theorem Covers.resolve {W : List Ty} (hW : S.Covers W) {t : Ty} (ht : t ∈ W) :
    S.resolve t ∈ W := by
  rcases S.resolve_cases t with heq | ⟨_, _, id, d, rfl, hd, hr⟩
  · rw [heq]
    exact ht
  · rw [hr]
    exact hW.definition (mem_definitions_of_find? hd)

/-- The parts that count: none of a recursive type. -/
def weight (t : Ty) : Nat := if t.isRecursive then 0 else t.parts.length

theorem weight_resolve (t : Ty) : weight (S.resolve t) = weight t := by
  rcases S.resolve_cases t with heq | ⟨_, _, id, d, rfl, hd, hr⟩
  · rw [heq]
  · have hrecursive := Ty.isRecursive_of_defId? (defId?_of_find? hd)
    rw [hr, weight, if_pos hrecursive]
    rfl

theorem Covers.weight_le {W : List Ty} (hW : S.Covers W) {t : Ty} (ht : t ∈ W) :
    weight t ≤ W.length := by
  unfold weight
  split
  · exact Nat.zero_le _
  · exact hW.bound ht

/-- A component weighs less than a type that is not recursive. -/
theorem weight_component_lt {c t : Ty} (hc : c ∈ t.components)
    (ht : t.isRecursive = false) : weight c < weight t := by
  have hlt := Ty.length_parts_component_lt hc
  unfold weight
  rw [ht]
  split
  · exact Nat.lt_of_le_of_lt (Nat.zero_le _) hlt
  · exact hlt

open Classical in
/-- The number of pairs that are not recorded. -/
noncomputable def unrecorded (W : List Ty) (pairs : List (Ty × Ty)) : Nat :=
  ((W.toFinset ×ˢ W.toFinset).filter
    fun pair => pairs.contains pair = false).card

theorem unrecorded_le (W : List Ty) (pairs : List (Ty × Ty)) :
    unrecorded W pairs ≤ W.length * W.length := by
  classical
  have hcard := W.toFinset_card_le
  calc unrecorded W pairs
      ≤ (W.toFinset ×ˢ W.toFinset).card := Finset.card_filter_le _ _
    _ = W.toFinset.card * W.toFinset.card := Finset.card_product _ _
    _ ≤ W.length * W.length := Nat.mul_le_mul hcard hcard

theorem contains_cons_self (a b : Ty) (pairs : List (Ty × Ty)) :
    ((a, b) :: pairs).contains (a, b) = true :=
  Pending.contains_iff.mpr
    ⟨_, List.mem_cons_self .., Ty.beq_self a, Ty.beq_self b⟩

theorem unrecorded_cons_lt {W : List Ty} {pairs : List (Ty × Ty)}
    {a b : Ty} (ha : a ∈ W) (hb : b ∈ W)
    (hnew : pairs.contains (a, b) = false) :
    unrecorded W ((a, b) :: pairs) < unrecorded W pairs := by
  classical
  apply Finset.card_lt_card
  refine ⟨fun pair hpair => ?_, fun hsub => ?_⟩
  · simp only [Finset.mem_filter, List.contains_cons,
      Bool.or_eq_false_iff] at hpair ⊢
    exact ⟨hpair.1, hpair.2.2⟩
  · have hin : (a, b) ∈ (W.toFinset ×ˢ W.toFinset).filter
        fun pair => pairs.contains pair = false := by
      simp [ha, hb, hnew]
    have hout := (Finset.mem_filter.mp (hsub hin)).2
    rw [contains_cons_self] at hout
    cases hout

/-- What a comparison can still cost. -/
noncomputable def cost (W : List Ty) (P : Pending) (a b : Ty) : Nat :=
  (unrecorded W P.unions + unrecorded W P.structs) * (2 * W.length + 1)
    + weight a + weight b + 1

section

variable {W : List Ty} {P P' : Pending} {recursive : Bool} {a b x y : Ty}

/-- One pair more is recorded, whatever the new types are. -/
theorem cost_lt_of_record (hW : S.Covers W) (hx : x ∈ W) (hy : y ∈ W)
    (h : unrecorded W P'.unions + unrecorded W P'.structs
      < unrecorded W P.unions + unrecorded W P.structs) :
    cost W P' x y < cost W P a b := by
  have hwx := hW.weight_le hx
  have hwy := hW.weight_le hy
  have hmul : (unrecorded W P'.unions + unrecorded W P'.structs + 1)
        * (2 * W.length + 1)
      ≤ (unrecorded W P.unions + unrecorded W P.structs)
        * (2 * W.length + 1) := Nat.mul_le_mul_right _ h
  rw [Nat.add_mul] at hmul
  unfold cost
  omega

theorem cost_lt_of_weight (h : weight x + weight y < weight a + weight b) :
    cost W P x y < cost W P a b := by
  unfold cost
  omega

theorem cost_lt_of_expands (hW : S.Covers W) (ha : a ∈ W) (hb : b ∈ W)
    (hx : x ∈ W) (hy : y ∈ W) (hP : P.Expands recursive a b P')
    (hplain : recursive = false → weight x + weight y < weight a + weight b) :
    cost W P' x y < cost W P a b := by
  rcases hP with ⟨hrecursive, rfl⟩ | ⟨-, hnew, rfl⟩
  · exact cost_lt_of_weight (hplain hrecursive)
  · refine cost_lt_of_record hW hx hy (Nat.add_lt_add_right ?_ _)
    exact unrecorded_cons_lt ha hb hnew

theorem cost_lt_of_assumes (hW : S.Covers W) (ha : a ∈ W) (hb : b ∈ W)
    (hx : x ∈ W) (hy : y ∈ W) (hP : P.Assumes recursive a b P')
    (hnew : recursive = true → P.structs.contains (a, b) = false)
    (hplain : recursive = false → weight x + weight y < weight a + weight b) :
    cost W P' x y < cost W P a b := by
  rcases hP with ⟨hrecursive, rfl⟩ | ⟨hrecursive, rfl⟩
  · exact cost_lt_of_weight (hplain hrecursive)
  · refine cost_lt_of_record hW hx hy (Nat.add_lt_add_left ?_ _)
    exact unrecorded_cons_lt ha hb (hnew hrecursive)

theorem cost_resolve : cost W P (S.resolve a) (S.resolve b) = cost W P a b := by
  rw [cost, weight_resolve, weight_resolve, cost]

end

/-! ## Enough steps -/

/-- The comparisons that are opened can cost less. -/
theorem Opens.cost_lt {W : List Ty} (hW : S.Covers W) {P P' : Pending}
    {a b x y : Ty} (ha : a ∈ W) (hb : b ∈ W) (h : Opens P a b P' x y) :
    x ∈ W ∧ y ∈ W ∧ cost W P' x y < cost W P a b := by
  cases h with
  | @toUnion _ label variants _ _ hP hv =>
      have hc : y ∈ (Ty.union label variants).components := hv
      have hv' := hW.component hb hc
      refine ⟨ha, hv', cost_lt_of_expands hW ha hb ha hv' hP fun hplain => ?_⟩
      exact Nat.add_lt_add_left (weight_component_lt hc hplain) _
  | @ofUnion _ label variants _ _ hP hv =>
      have hc : x ∈ (Ty.union label variants).components := hv
      have hv' := hW.component ha hc
      refine ⟨hv', hb, cost_lt_of_expands hW ha hb hv' hb hP fun hplain => ?_⟩
      exact Nat.add_lt_add_right (weight_component_lt hc hplain) _
  | @fields la fields lb required g _ _ hP hnew hg hx =>
      have hcx : x ∈ (Ty.struct la fields).components :=
        List.mem_map.mpr ⟨_, mem_of_lookup hx, rfl⟩
      have hcg : g.2 ∈ (Ty.struct lb required).components :=
        List.mem_map.mpr ⟨g, hg, rfl⟩
      have hx' := hW.component ha hcx
      have hg' := hW.component hb hcg
      refine ⟨hx', hg', ?_⟩
      refine cost_lt_of_assumes hW ha hb hx' hg' hP hnew fun hplain => ?_
      obtain ⟨hla, hlb⟩ := Bool.or_eq_false_iff.mp hplain
      exact Nat.add_lt_add (weight_component_lt hcx hla)
        (weight_component_lt hcg hlb)

/-- A comparison that succeeds does so with as many steps as it can
cost. -/
theorem subtypeWithin_of_cost_le {W : List Ty} (hW : S.Covers W) {n : Nat} :
    ∀ {m : Nat} {P : Pending} {a b : Ty}, a ∈ W → b ∈ W →
      cost W P a b ≤ m → S.subtypeWithin n P a b = true →
      S.subtypeWithin m P a b = true := by
  induction n with
  | zero =>
      intro m P a b _ _ _ h
      cases h
  | succ n ih =>
      intro m P a b ha hb hm h
      obtain ⟨m, rfl⟩ : ∃ k, m = k + 1 := by
        refine ⟨m - 1, ?_⟩
        unfold cost at hm
        omega
      refine subtypeWithin_succ.mpr ?_
      rcases subtypeWithin_succ.mp h with h | h | h
      · exact Or.inl h
      · exact Or.inr (Or.inl h)
      · refine Or.inr (Or.inr (h.opens.imp ?_))
        rintro P' x y ⟨hsub, hopens⟩
        obtain ⟨hx, hy, hlt⟩ :=
          hopens.cost_lt hW (hW.resolve ha) (hW.resolve hb)
        rw [cost_resolve] at hlt
        exact ih hx hy (by omega) hsub

theorem left_mem_allParts (S : Scope) (a b : Ty) : a ∈ S.allParts a b :=
  mem_allParts.mpr ⟨a, Or.inl rfl, Ty.mem_parts_self a⟩

theorem right_mem_allParts (S : Scope) (a b : Ty) : b ∈ S.allParts a b :=
  mem_allParts.mpr ⟨b, Or.inr (Or.inl rfl), Ty.mem_parts_self b⟩

theorem cost_le_subtypeSteps (S : Scope) (a b : Ty) :
    cost (S.allParts a b) .empty a b ≤ S.subtypeSteps a b := by
  have hW := S.covers_allParts a b
  have ha := hW.weight_le (S.left_mem_allParts a b)
  have hb := hW.weight_le (S.right_mem_allParts a b)
  have hpairs : unrecorded (S.allParts a b) Pending.empty.unions
      + unrecorded (S.allParts a b) Pending.empty.structs
      ≤ 2 * ((S.allParts a b).length * (S.allParts a b).length) := by
    have hunions := unrecorded_le (S.allParts a b) Pending.empty.unions
    have hstructs := unrecorded_le (S.allParts a b) Pending.empty.structs
    omega
  unfold cost subtypeSteps
  simp only [← S.length_allParts a b]
  generalize (S.allParts a b).length = k at *
  have hmul := Nat.mul_le_mul_right (2 * k + 1) hpairs
  nlinarith

/-- The search is given steps enough. -/
theorem isSubtype_iff {a b : Ty} :
    S.isSubtype a b = true ↔ ∃ n, S.subtypeWithin n .empty a b = true := by
  constructor
  · exact fun h => ⟨_, h⟩
  · rintro ⟨n, h⟩
    exact subtypeWithin_of_cost_le (S.covers_allParts a b)
      (S.left_mem_allParts a b) (S.right_mem_allParts a b)
      (S.cost_le_subtypeSteps a b) h

end Scope

end Schemata
