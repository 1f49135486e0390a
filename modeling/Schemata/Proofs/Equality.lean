import Mathlib
import Schemata.Proofs.Parts
import Schemata.Ty.Build

/-!
# Equality of types is an equivalence

`==` compares recursive definitions and references by form and name and
everything else by structure, where two structs or unions are the same
if they have as many members and every member of the first is found in
the second. This file opens that comparison once, constructor by
constructor (`nominal_beq_iff`, `array_beq_iff`, …), so that nothing
later looks into `Ty.beq`.

Transitivity follows the first type. Symmetry does not: from "each
member of the first is found in the second" it has to be shown that
nothing in the second was left out. That needs members that are
pairwise different, as they are in every type that can be built
(`Ty.Regular`), and a counting argument (`exists_perm_forall₂`).
-/

namespace Schemata

/-! ## Regular types -/

/-- The parameters are within their limits. -/
def ScalarType.WithinLimits : ScalarType → Prop
  | .decimal precision scale =>
      1 ≤ precision ∧ precision ≤ Limit.decimalPrecision ∧ scale ≤ precision
  | .char length => 1 ≤ length ∧ length ≤ Limit.charLength
  | .varchar length => 1 ≤ length ∧ length ≤ Limit.varcharLength
  | _ => True

namespace Ty

/-- What the constructors make sure of for one node of a type. A variant
is compared with those before it. -/
def Regular : Ty → Prop
  | .scalar s => s.WithinLimits
  | .struct _ fields => (fields.map Prod.fst).Nodup
  | .union _ variants => Limit.unionVariants ≤ variants.length
      ∧ variants.Pairwise fun v w => (w == v) = false
  | _ => True

/-- Every part is regular. -/
def WellFormed (t : Ty) : Prop := ∀ p ∈ t.parts, p.Regular

theorem WellFormed.regular {t : Ty} (h : t.WellFormed) : t.Regular :=
  h t (mem_parts_self t)

theorem WellFormed.part {p t : Ty} (h : t.WellFormed) (hp : p ∈ t.parts) :
    p.WellFormed :=
  fun _ hq => h _ (mem_parts_trans hq hp)

theorem WellFormed.component {c t : Ty} (h : t.WellFormed)
    (hc : c ∈ t.components) : c.WellFormed :=
  h.part (mem_parts_of_component hc)

/-! ## The comparison, opened -/

/-- As many fields, each of them in the other list with an equal type. -/
def SameFields (fs gs : List (String × Ty)) : Prop :=
  fs.length = gs.length
    ∧ ∀ f ∈ fs, ∃ g ∈ gs, g.1 = f.1 ∧ (f.2 == g.2) = true

/-- As many variants, each of them equal to one of the other list. -/
def SameVariants (vs ws : List Ty) : Prop :=
  vs.length = ws.length ∧ ∀ v ∈ vs, ∃ w ∈ ws, (v == w) = true

theorem fieldsWithin_iff {fs gs : List (String × Ty)} :
    fieldsWithin fs gs = true ↔
      ∀ f ∈ fs, ∃ g ∈ gs, g.1 = f.1 ∧ (f.2 == g.2) = true := by
  induction fs with
  | nil => simp [fieldsWithin]
  | cons f fs ih =>
      rw [fieldsWithin, Bool.and_eq_true, ih]
      simp [List.any_eq_true, beq_eq]

theorem variantsWithin_iff {vs ws : List Ty} :
    variantsWithin vs ws = true ↔ ∀ v ∈ vs, ∃ w ∈ ws, (v == w) = true := by
  induction vs with
  | nil => simp [variantsWithin]
  | cons v vs ih =>
      rw [variantsWithin, Bool.and_eq_true, ih]
      simp [List.any_eq_true, beq_eq]

theorem beqList_iff : ∀ {ss ts : List Ty},
    beqList ss ts = true ↔ List.Forall₂ (fun s t => (s == t) = true) ss ts
  | [], [] => by simp [beqList]
  | [], _ :: _ => by simp [beqList]
  | _ :: _, [] => by simp [beqList]
  | s :: ss, t :: ts => by
      rw [beqList, Bool.and_eq_true, @beqList_iff ss ts,
        List.forall₂_cons, beq_eq]

theorem any_beq_iff {b : Ty} : (Ty.any == b) = true ↔ b = .any := by
  rw [beq_eq, Ty.beq]
  cases b <;> simp [isAny]

theorem null_beq_iff {b : Ty} : (Ty.null == b) = true ↔ b = .null := by
  rw [beq_eq, Ty.beq]
  cases b <;> simp [isNull]

theorem scalar_beq_iff {s : ScalarType} {b : Ty} :
    (Ty.scalar s == b) = true ↔ b = .scalar s := by
  rw [beq_eq, Ty.beq]
  cases b <;> simp [scalar?]

theorem array_beq_iff {s b : Ty} :
    (Ty.array s == b) = true ↔ ∃ t, b = .array t ∧ (s == t) = true := by
  rw [beq_eq, Ty.beq]
  cases b <;> simp [element?, beq_eq]

theorem tuple_beq_iff {ss : List Ty} {b : Ty} :
    (Ty.tuple ss == b) = true ↔
      ∃ ts, b = .tuple ts ∧ List.Forall₂ (fun s t => (s == t) = true) ss ts := by
  rw [beq_eq, Ty.beq]
  cases b <;> simp [elements?, beqList_iff]

theorem map_beq_iff {k : ScalarType} {s b : Ty} :
    (Ty.map k s == b) = true ↔ ∃ t, b = .map k t ∧ (s == t) = true := by
  rw [beq_eq, Ty.beq]
  cases b with
  | map l t => by_cases h : l = k <;> simp [key?, value?, beq_eq, h]
  | _ => simp [key?]

theorem struct_beq_iff {name : Option String} {fs : List (String × Ty)}
    {b : Ty} :
    (Ty.struct (.plain name) fs == b) = true ↔
      ∃ name' gs, b = .struct (.plain name') gs ∧ SameFields fs gs := by
  rw [beq_eq, Ty.beq]
  cases b with
  | struct label gs =>
      cases label <;> simp [plainFields?, SameFields, fieldsWithin_iff]
  | _ => simp [plainFields?]

theorem union_beq_iff {name : Option String} {vs : List Ty} {b : Ty} :
    (Ty.union (.plain name) vs == b) = true ↔
      ∃ name' ws, b = .union (.plain name') ws ∧ SameVariants vs ws := by
  rw [beq_eq, Ty.beq]
  cases b with
  | union label ws =>
      cases label <;> simp [plainVariants?, SameVariants, variantsWithin_iff]
  | _ => simp [plainVariants?]

/-- Recursive definitions and references are equal to what has their form
and name. -/
theorem nominal_beq_iff {a b : Ty} {k : Form × String}
    (h : a.nominal? = some k) : (a == b) = true ↔ b.nominal? = some k := by
  rw [beq_eq]
  cases a with
  | struct label fields => cases label <;> simp_all [Ty.beq, nominal?]
  | union label variants => cases label <;> simp_all [Ty.beq, nominal?]
  | ref form name target => simp_all [Ty.beq, nominal?]
  | _ => simp [nominal?] at h

theorem beq_self (t : Ty) : (t == t) = true := by
  rw [beq_eq]
  exact beq_refl t

/-- Equal types have the same form and name, or none. -/
theorem nominal?_eq_of_beq {a b : Ty} (h : (a == b) = true) :
    a.nominal? = b.nominal? := by
  cases hk : a.nominal? with
  | some k => exact ((nominal_beq_iff hk).mp h).symm
  | none =>
      cases a with
      | any => obtain rfl := any_beq_iff.mp h; rfl
      | null => obtain rfl := null_beq_iff.mp h; rfl
      | scalar s => obtain rfl := scalar_beq_iff.mp h; rfl
      | array s => obtain ⟨t, rfl, -⟩ := array_beq_iff.mp h; rfl
      | tuple ss => obtain ⟨ts, rfl, -⟩ := tuple_beq_iff.mp h; rfl
      | map k s => obtain ⟨t, rfl, -⟩ := map_beq_iff.mp h; rfl
      | struct label fs =>
          cases label with
          | plain name => obtain ⟨n, gs, rfl, -⟩ := struct_beq_iff.mp h; rfl
          | recursive name id => simp [nominal?] at hk
      | union label vs =>
          cases label with
          | plain name => obtain ⟨n, ws, rfl, -⟩ := union_beq_iff.mp h; rfl
          | recursive name id => simp [nominal?] at hk
      | ref form name target => simp [nominal?] at hk

theorem isRecursive_eq (t : Ty) : t.isRecursive = t.nominal?.isSome := by
  cases t with
  | struct label fields => cases label <;> rfl
  | union label variants => cases label <;> rfl
  | _ => rfl

/-! ## Transitivity -/

theorem SameFields.trans {fs gs hs : List (String × Ty)}
    (ih : ∀ f ∈ fs, ∀ s t : Ty,
      (f.2 == s) = true → (s == t) = true → (f.2 == t) = true)
    (h₁ : SameFields fs gs) (h₂ : SameFields gs hs) : SameFields fs hs := by
  refine ⟨h₁.1.trans h₂.1, fun f hf => ?_⟩
  obtain ⟨g, hg, hgf, hfg⟩ := h₁.2 f hf
  obtain ⟨k, hk, hkg, hgk⟩ := h₂.2 g hg
  exact ⟨k, hk, hkg.trans hgf, ih f hf _ _ hfg hgk⟩

theorem SameVariants.trans {vs ws xs : List Ty}
    (ih : ∀ v ∈ vs, ∀ s t : Ty,
      (v == s) = true → (s == t) = true → (v == t) = true)
    (h₁ : SameVariants vs ws) (h₂ : SameVariants ws xs) : SameVariants vs xs := by
  refine ⟨h₁.1.trans h₂.1, fun v hv => ?_⟩
  obtain ⟨w, hw, hvw⟩ := h₁.2 v hv
  obtain ⟨x, hx, hwx⟩ := h₂.2 w hw
  exact ⟨x, hx, ih v hv _ _ hvw hwx⟩

theorem forall₂_trans {α : Type} {R : α → α → Prop} {ss ts us : List α}
    (ih : ∀ r ∈ ss, ∀ s t, R r s → R s t → R r t)
    (h₁ : List.Forall₂ R ss ts) (h₂ : List.Forall₂ R ts us) :
    List.Forall₂ R ss us := by
  induction h₁ generalizing us with
  | nil =>
      cases h₂
      exact .nil
  | cons hst _ ihl =>
      cases h₂ with
      | cons htu hrest =>
          obtain ⟨hhead, htail⟩ := List.forall_mem_cons.mp ih
          exact .cons (hhead _ _ hst htu) (ihl htail hrest)

theorem beq_trans {a b c : Ty} (hab : (a == b) = true)
    (hbc : (b == c) = true) : (a == c) = true := by
  induction a using component_induction generalizing b c with
  | step a ih =>
      cases hk : a.nominal? with
      | some k =>
          have hb := (nominal_beq_iff hk).mp hab
          exact (nominal_beq_iff hk).mpr ((nominal_beq_iff hb).mp hbc)
      | none =>
          cases a with
          | any => obtain rfl := any_beq_iff.mp hab; exact hbc
          | null => obtain rfl := null_beq_iff.mp hab; exact hbc
          | scalar s => obtain rfl := scalar_beq_iff.mp hab; exact hbc
          | array s =>
              obtain ⟨t, rfl, hst⟩ := array_beq_iff.mp hab
              obtain ⟨u, rfl, htu⟩ := array_beq_iff.mp hbc
              have hsu := ih s (by simp [components]) hst htu
              exact array_beq_iff.mpr ⟨u, rfl, hsu⟩
          | tuple ss =>
              obtain ⟨ts, rfl, hst⟩ := tuple_beq_iff.mp hab
              obtain ⟨us, rfl, htu⟩ := tuple_beq_iff.mp hbc
              refine tuple_beq_iff.mpr ⟨us, rfl, forall₂_trans ?_ hst htu⟩
              exact fun r hr s t h₁ h₂ => ih r hr h₁ h₂
          | map k s =>
              obtain ⟨t, rfl, hst⟩ := map_beq_iff.mp hab
              obtain ⟨u, rfl, htu⟩ := map_beq_iff.mp hbc
              have hsu := ih s (by simp [components]) hst htu
              exact map_beq_iff.mpr ⟨u, rfl, hsu⟩
          | struct label fs =>
              cases label with
              | recursive name id => simp [nominal?] at hk
              | plain name =>
                  obtain ⟨n, gs, rfl, hfg⟩ := struct_beq_iff.mp hab
                  obtain ⟨m, hs, rfl, hgh⟩ := struct_beq_iff.mp hbc
                  refine struct_beq_iff.mpr ⟨m, hs, rfl, hfg.trans ?_ hgh⟩
                  intro f hf s t h₁ h₂
                  exact ih f.2 (List.mem_map.mpr ⟨f, hf, rfl⟩) h₁ h₂
          | union label vs =>
              cases label with
              | recursive name id => simp [nominal?] at hk
              | plain name =>
                  obtain ⟨n, ws, rfl, hvw⟩ := union_beq_iff.mp hab
                  obtain ⟨m, xs, rfl, hwx⟩ := union_beq_iff.mp hbc
                  refine union_beq_iff.mpr ⟨m, xs, rfl, hvw.trans ?_ hwx⟩
                  exact fun v hv s t h₁ h₂ => ih v hv h₁ h₂
          | ref form name target => simp [nominal?] at hk

/-! ## Symmetry -/

/-- If as many `ys` as `xs`, each `x` has a related `y`, and no `y` is
related to two different `xs`, then some order of the `ys` relates them to
the `xs` one by one. -/
theorem exists_perm_forall₂ {α β : Type} {R : α → β → Prop} :
    ∀ {xs : List α} {ys : List β}, xs.length = ys.length →
      (∀ x ∈ xs, ∃ y ∈ ys, R x y) →
      xs.Pairwise (fun x x' => ∀ y ∈ ys, R x y → ¬R x' y) →
      ∃ zs, zs.Perm ys ∧ List.Forall₂ R xs zs
  | [], ys, hlen, _, _ => by
      rw [List.length_eq_zero_iff.mp hlen.symm]
      exact ⟨[], .refl [], .nil⟩
  | x :: xs, ys, hlen, htotal, hinj => by
      obtain ⟨y, hy, hxy⟩ := htotal x (List.mem_cons_self ..)
      obtain ⟨hx, hinj⟩ := List.pairwise_cons.mp hinj
      -- take the partner of the first `x` out of the second list
      obtain ⟨l, r, rfl⟩ := List.append_of_mem hy
      have hlen' : xs.length = (l ++ r).length := by
        simp only [List.length_append, List.length_cons] at hlen ⊢
        omega
      have hsub : ∀ z ∈ l ++ r, z ∈ l ++ y :: r := by
        intro z hz
        simp only [List.mem_append, List.mem_cons] at hz ⊢
        tauto
      have htotal' : ∀ x' ∈ xs, ∃ z ∈ l ++ r, R x' z := by
        intro x' hx'
        obtain ⟨z, hz, hxz⟩ := htotal x' (List.mem_cons_of_mem _ hx')
        have hne : z ≠ y := fun h => hx x' hx' y hy hxy (h ▸ hxz)
        refine ⟨z, ?_, hxz⟩
        simp only [List.mem_append, List.mem_cons] at hz ⊢
        tauto
      have hinj' : xs.Pairwise fun x x' => ∀ z ∈ l ++ r, R x z → ¬R x' z :=
        hinj.imp fun h z hz => h z (hsub z hz)
      obtain ⟨zs, hperm, hzs⟩ := exists_perm_forall₂ hlen' htotal' hinj'
      exact ⟨y :: zs, (hperm.cons y).trans List.perm_middle.symm,
        .cons hxy hzs⟩

theorem exists_mem_of_forall₂ {α β : Type} {R : α → β → Prop} {xs : List α}
    {ys : List β} (h : List.Forall₂ R xs ys) {y : β} (hy : y ∈ ys) :
    ∃ x ∈ xs, R x y := by
  induction h with
  | nil => cases hy
  | @cons x y' xs ys hxy _ ih =>
      rcases List.mem_cons.mp hy with rfl | hy
      · exact ⟨x, List.mem_cons_self .., hxy⟩
      · obtain ⟨x', hx', hR⟩ := ih hy
        exact ⟨x', List.mem_cons_of_mem _ hx', hR⟩

/-- The same fields are equal one by one, in some order. -/
theorem SameFields.exists_perm {fs gs : List (String × Ty)}
    (hnd : (fs.map Prod.fst).Nodup) (h : SameFields fs gs) :
    ∃ hs, hs.Perm gs
      ∧ List.Forall₂ (fun f g => g.1 = f.1 ∧ (f.2 == g.2) = true) fs hs := by
  refine exists_perm_forall₂ h.1 h.2 ?_
  refine (List.pairwise_map.mp hnd).imp fun hne g _ h₁ h₂ => ?_
  exact hne (h₁.1.symm.trans h₂.1)

/-- The same variants are equal one by one, in some order. -/
theorem SameVariants.exists_perm {vs ws : List Ty}
    (hd : vs.Pairwise fun v w => (w == v) = false)
    (hsymm : ∀ v ∈ vs, ∀ t : Ty, (v == t) = true → (t == v) = true)
    (h : SameVariants vs ws) :
    ∃ xs, xs.Perm ws ∧ List.Forall₂ (fun v w => (v == w) = true) vs xs := by
  refine exists_perm_forall₂ h.1 h.2 ?_
  refine hd.imp_of_mem fun hv _ hne w _ hvw hvw' => ?_
  rw [beq_trans hvw' (hsymm _ hv w hvw)] at hne
  cases hne

theorem SameFields.symm {fs gs : List (String × Ty)}
    (hnd : (fs.map Prod.fst).Nodup)
    (ih : ∀ f ∈ fs, ∀ t : Ty, (f.2 == t) = true → (t == f.2) = true)
    (h : SameFields fs gs) : SameFields gs fs := by
  refine ⟨h.1.symm, fun g hg => ?_⟩
  obtain ⟨hs, hperm, hall⟩ := h.exists_perm hnd
  obtain ⟨f, hf, hname, hfg⟩ :=
    exists_mem_of_forall₂ hall (hperm.mem_iff.mpr hg)
  exact ⟨f, hf, hname.symm, ih f hf _ hfg⟩

theorem SameVariants.symm {vs ws : List Ty}
    (hd : vs.Pairwise fun v w => (w == v) = false)
    (ih : ∀ v ∈ vs, ∀ t : Ty, (v == t) = true → (t == v) = true)
    (h : SameVariants vs ws) : SameVariants ws vs := by
  refine ⟨h.1.symm, fun w hw => ?_⟩
  obtain ⟨xs, hperm, hall⟩ := h.exists_perm hd ih
  obtain ⟨v, hv, hvw⟩ := exists_mem_of_forall₂ hall (hperm.mem_iff.mpr hw)
  exact ⟨v, hv, ih v hv w hvw⟩

theorem forall₂_symm {α : Type} {R : α → α → Prop} {ss ts : List α}
    (ih : ∀ s ∈ ss, ∀ t, R s t → R t s) (h : List.Forall₂ R ss ts) :
    List.Forall₂ R ts ss := by
  induction h with
  | nil => exact .nil
  | cons hst _ ihl =>
      obtain ⟨hhead, htail⟩ := List.forall_mem_cons.mp ih
      exact .cons (hhead _ hst) (ihl htail)

/-- Only the first type has to be well formed: its members are the ones
that are counted. -/
theorem beq_symm {a b : Ty} (ha : a.WellFormed) (h : (a == b) = true) :
    (b == a) = true := by
  induction a using component_induction generalizing b with
  | step a ih =>
      have ih' : ∀ c ∈ a.components, ∀ t : Ty,
          (c == t) = true → (t == c) = true :=
        fun c hc t hct => ih c hc (ha.component hc) hct
      cases hk : a.nominal? with
      | some k => exact (nominal_beq_iff ((nominal_beq_iff hk).mp h)).mpr hk
      | none =>
          cases a with
          | any => obtain rfl := any_beq_iff.mp h; exact h
          | null => obtain rfl := null_beq_iff.mp h; exact h
          | scalar s => obtain rfl := scalar_beq_iff.mp h; exact h
          | array s =>
              obtain ⟨t, rfl, hst⟩ := array_beq_iff.mp h
              have hts := ih' s (by simp [components]) t hst
              exact array_beq_iff.mpr ⟨s, rfl, hts⟩
          | tuple ss =>
              obtain ⟨ts, rfl, hst⟩ := tuple_beq_iff.mp h
              exact tuple_beq_iff.mpr ⟨ss, rfl, forall₂_symm ih' hst⟩
          | map k s =>
              obtain ⟨t, rfl, hst⟩ := map_beq_iff.mp h
              have hts := ih' s (by simp [components]) t hst
              exact map_beq_iff.mpr ⟨s, rfl, hts⟩
          | struct label fs =>
              cases label with
              | recursive name id => simp [nominal?] at hk
              | plain name =>
                  obtain ⟨n, gs, rfl, hfg⟩ := struct_beq_iff.mp h
                  have hgf : SameFields gs fs := by
                    refine hfg.symm ha.regular fun f hf => ?_
                    exact ih' f.2 (List.mem_map.mpr ⟨f, hf, rfl⟩)
                  exact struct_beq_iff.mpr ⟨name, fs, rfl, hgf⟩
          | union label vs =>
              cases label with
              | recursive name id => simp [nominal?] at hk
              | plain name =>
                  obtain ⟨n, ws, rfl, hvw⟩ := union_beq_iff.mp h
                  have hwv := hvw.symm ha.regular.2 ih'
                  exact union_beq_iff.mpr ⟨name, vs, rfl, hwv⟩
          | ref form name target => simp [nominal?] at hk

end Ty

end Schemata
