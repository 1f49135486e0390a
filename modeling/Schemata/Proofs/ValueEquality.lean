import Mathlib
import Schemata.Proofs.Quantity
import Schemata.Proofs.Unpacking

/-!
# Equality of values is a partial equivalence

`==` is symmetric and transitive, and a value is equal to itself exactly if
nothing in it is one of the patterns of floating point that are not numbers
(`Value.beq_partial_equivalence`).

The comparison is opened once, constructor by constructor
(`scalar_beq_iff`, `items_beq_iff`, …); packed arrays and others are opened
by the same lemma, so that there is no difference from there on. Every proof
is then an induction over what a value holds directly
(`Value.components`, `Value.component_induction`).

Structs are compared in one direction, by looking up the fields of the first
in the second. For symmetry nothing in the second may be left over, and that
is where the names of the first have to be distinct; there are as many in the
second, so all of them are found. Transitivity needs no such thing.
-/

namespace Schemata

/-! ## Numbers -/

theorem Binary.quantity_eq_none_iff_reading {f : Format} (x : Binary f) :
    x.quantity? = none ↔ x.reading = .notNumber := by
  unfold quantity?
  split <;> simp [*]

namespace Number

/-- One of the patterns of floating point that are not numbers. -/
def IsNaN : Number → Prop
  | .float x => x.reading = .notNumber
  | .double x => x.reading = .notNumber
  | _ => False

theorem quantity_eq_none_iff {n : Number} : n.quantity? = none ↔ n.IsNaN := by
  cases n with
  | float x => exact x.quantity_eq_none_iff_reading
  | double x => exact x.quantity_eq_none_iff_reading
  | _ => simp [quantity?, IsNaN]

theorem beq_self_iff {n : Number} : (n == n) = true ↔ ¬n.IsNaN := by
  rw [← quantity_eq_none_iff, ← ne_eq, Option.ne_none_iff_exists', beq_iff]
  simp

theorem beq_symm {m n : Number} (h : (m == n) = true) : (n == m) = true := by
  obtain ⟨hkind, q, hm, hn⟩ := beq_iff.mp h
  exact beq_iff.mpr ⟨hkind.symm, q, hn, hm⟩

theorem beq_trans {m n k : Number} (hmn : (m == n) = true)
    (hnk : (n == k) = true) : (m == k) = true := by
  obtain ⟨hkind, q, hm, hn⟩ := beq_iff.mp hmn
  obtain ⟨hkind', q', hn', hk⟩ := beq_iff.mp hnk
  obtain rfl := Option.some.inj (hn.symm.trans hn')
  exact beq_iff.mpr ⟨hkind.trans hkind', q, hm, hk⟩

end Number

/-! ## Scalars -/

namespace Scalar

/-- Numbers compare as numbers, and other scalars are equal if they are the
same. -/
theorem beq_iff {s t : Scalar} : (s == t) = true ↔
    (∃ m n, s = .number m ∧ t = .number n ∧ (m == n) = true)
      ∨ ((∀ n, s ≠ .number n) ∧ s = t) := by
  show s.beq t = true ↔ _
  cases s <;> cases t <;> simp [Scalar.beq]

theorem beq_symm {s t : Scalar} (h : (s == t) = true) : (t == s) = true := by
  rcases beq_iff.mp h with ⟨m, n, rfl, rfl, hmn⟩ | ⟨hs, rfl⟩
  · exact beq_iff.mpr (Or.inl ⟨n, m, rfl, rfl, Number.beq_symm hmn⟩)
  · exact h

theorem beq_trans {s t u : Scalar} (hst : (s == t) = true)
    (htu : (t == u) = true) : (s == u) = true := by
  rcases beq_iff.mp hst with ⟨m, n, rfl, rfl, hmn⟩ | ⟨hs, rfl⟩
  · rcases beq_iff.mp htu with ⟨n', k, hn, rfl, hnk⟩ | ⟨ht, rfl⟩
    · obtain rfl := number.inj hn
      exact beq_iff.mpr (Or.inl ⟨m, k, rfl, rfl, Number.beq_trans hmn hnk⟩)
    · exact hst
  · exact htu

theorem beq_self_iff {s : Scalar} :
    (s == s) = true ↔ ∀ n, s = .number n → ¬n.IsNaN := by
  rw [beq_iff]
  cases s with
  | number m => simp [Number.beq_self_iff]
  | _ => simp

end Scalar

namespace Value

/-! ## The comparison, opened -/

/-- As many fields, each of them found in the other list with an equal
value. -/
def SameFields (fs gs : List (String × Value)) : Prop :=
  fs.length = gs.length
    ∧ ∀ f ∈ fs, ∃ w, gs.lookup f.1 = some w ∧ (f.2 == w) = true

/-- Equal keys with equal values. -/
def SameEntry (e f : Scalar × Value) : Prop :=
  (e.1 == f.1) = true ∧ (e.2 == f.2) = true

theorem beq_eq (v w : Value) : (v == w) = v.beq w := rfl

theorem beqList_iff : ∀ {vs ws : List Value}, beqList vs ws = true ↔
    List.Forall₂ (fun v w => (v == w) = true) vs ws
  | [], [] => by simp [beqList]
  | [], _ :: _ => by simp [beqList]
  | _ :: _, [] => by simp [beqList]
  | v :: vs, w :: ws => by
      rw [beqList, Bool.and_eq_true, @beqList_iff vs ws, List.forall₂_cons,
        beq_eq]

theorem beqEntries_iff : ∀ {es fs : List (Scalar × Value)},
    beqEntries es fs = true ↔ List.Forall₂ SameEntry es fs
  | [], [] => by simp [beqEntries]
  | [], _ :: _ => by simp [beqEntries]
  | _ :: _, [] => by simp [beqEntries]
  | (k, v) :: es, (l, w) :: fs => by
      rw [beqEntries, Bool.and_eq_true, Bool.and_eq_true,
        @beqEntries_iff es fs, List.forall₂_cons, SameEntry, beq_eq]

theorem fieldsWithin_iff {fs gs : List (String × Value)} :
    fieldsWithin fs gs = true ↔
      ∀ f ∈ fs, ∃ w, gs.lookup f.1 = some w ∧ (f.2 == w) = true := by
  induction fs with
  | nil => simp [fieldsWithin]
  | cons f fs ih =>
      rw [fieldsWithin, Bool.and_eq_true, ih, List.forall_mem_cons]
      cases gs.lookup f.1 <;> simp [beq_eq]

theorem null_beq_iff {w : Value} : (Value.null == w) = true ↔ w = .null := by
  rw [beq_eq]
  cases w <;> simp [Value.beq]

theorem scalar_beq_scalar (s t : Scalar) :
    (Value.scalar s == .scalar t) = (s == t) := rfl

theorem scalar_beq_iff {s : Scalar} {w : Value} :
    (Value.scalar s == w) = true ↔ ∃ t, w = .scalar t ∧ (s == t) = true := by
  rw [beq_eq]
  cases w <;> simp [Value.beq]

theorem items_beq_iff {v w : Value} {vs : List Value}
    (h : v.items? = some vs) : (v == w) = true ↔ ∃ ws, w.items? = some ws
      ∧ List.Forall₂ (fun v w => (v == w) = true) vs ws := by
  have hbeq : (v == w) = w.items?.any (beqList vs) := by
    cases v with
    | array items =>
        obtain rfl := Option.some.inj h
        rw [beq_eq, Value.beq]
        cases w.items? <;> rfl
    | packed p =>
        obtain rfl := Option.some.inj h
        rw [beq_eq, Value.beq, Packed.items]
        cases w.items? <;> simp [beqList_numbers]
    | _ => cases h
  rw [hbeq]
  cases w.items? <;> simp [beqList_iff]

theorem tuple_beq_iff {vs : List Value} {w : Value} :
    (Value.tuple vs == w) = true ↔ ∃ ws, w = .tuple ws
      ∧ List.Forall₂ (fun v w => (v == w) = true) vs ws := by
  rw [beq_eq]
  cases w <;> simp [Value.beq, beqList_iff]

theorem map_beq_iff {es : List (Scalar × Value)} {w : Value} :
    (Value.map es == w) = true ↔
      ∃ fs, w = .map fs ∧ List.Forall₂ SameEntry es fs := by
  rw [beq_eq]
  cases w <;> simp [Value.beq, beqEntries_iff]

theorem struct_beq_iff {fs : List (String × Value)} {w : Value} :
    (Value.struct fs == w) = true ↔ ∃ gs, w = .struct gs ∧ SameFields fs gs := by
  rw [beq_eq]
  cases w <;> simp [Value.beq, SameFields, fieldsWithin_iff]

/-! ## Transitivity -/

theorem SameFields.trans {fs gs hs : List (String × Value)}
    (ih : ∀ f ∈ fs, ∀ v w : Value,
      (f.2 == v) = true → (v == w) = true → (f.2 == w) = true)
    (h₁ : SameFields fs gs) (h₂ : SameFields gs hs) : SameFields fs hs := by
  refine ⟨h₁.1.trans h₂.1, fun f hf => ?_⟩
  obtain ⟨v, hv, hfv⟩ := h₁.2 f hf
  obtain ⟨w, hw, hvw⟩ := h₂.2 _ (mem_of_lookup hv)
  exact ⟨w, hw, ih f hf v w hfv hvw⟩

theorem beq_trans {u v w : Value} (huv : (u == v) = true)
    (hvw : (v == w) = true) : (u == w) = true := by
  induction u using component_induction generalizing v w with
  | step u ih =>
      have ih' : ∀ c ∈ u.components, ∀ v w : Value,
          (c == v) = true → (v == w) = true → (c == w) = true :=
        fun c hc v w => ih c hc
      have hitems : ∀ us, u.items? = some us → (u == w) = true := by
        intro us hus
        obtain ⟨vs, hvs, husvs⟩ := (items_beq_iff hus).mp huv
        obtain ⟨ws, hws, hvsws⟩ := (items_beq_iff hvs).mp hvw
        rw [components_of_items? hus] at ih'
        exact (items_beq_iff hus).mpr
          ⟨ws, hws, Ty.forall₂_trans ih' husvs hvsws⟩
      cases u with
      | null => exact null_beq_iff.mp huv ▸ hvw
      | scalar s =>
          obtain ⟨t, rfl, hst⟩ := scalar_beq_iff.mp huv
          obtain ⟨r, rfl, htr⟩ := scalar_beq_iff.mp hvw
          exact scalar_beq_iff.mpr ⟨r, rfl, Scalar.beq_trans hst htr⟩
      | array items => exact hitems items rfl
      | packed p => exact hitems p.items rfl
      | tuple us =>
          obtain ⟨vs, rfl, husvs⟩ := tuple_beq_iff.mp huv
          obtain ⟨ws, rfl, hvsws⟩ := tuple_beq_iff.mp hvw
          exact tuple_beq_iff.mpr ⟨ws, rfl, Ty.forall₂_trans ih' husvs hvsws⟩
      | map es =>
          obtain ⟨fs, rfl, hef⟩ := map_beq_iff.mp huv
          obtain ⟨gs, rfl, hfg⟩ := map_beq_iff.mp hvw
          refine map_beq_iff.mpr ⟨gs, rfl, Ty.forall₂_trans ?_ hef hfg⟩
          intro e he f g hef hfg
          refine ⟨Scalar.beq_trans hef.1 hfg.1, ih' e.2 ?_ _ _ hef.2 hfg.2⟩
          exact (mem_components_map he).2
      | struct fs =>
          obtain ⟨gs, rfl, hfg⟩ := struct_beq_iff.mp huv
          obtain ⟨hs, rfl, hgh⟩ := struct_beq_iff.mp hvw
          refine struct_beq_iff.mpr ⟨hs, rfl, hfg.trans ?_ hgh⟩
          exact fun f hf => ih' f.2 (List.mem_map_of_mem hf)

/-! ## Symmetry -/

/-- The fields of the first list have distinct names and are as many as
those of the second, so there is none in the second that is not found. -/
theorem SameFields.symm {fs gs : List (String × Value)}
    (hnd : (fs.map Prod.fst).Nodup)
    (ih : ∀ f ∈ fs, ∀ w : Value, (f.2 == w) = true → (w == f.2) = true)
    (h : SameFields fs gs) : SameFields gs fs := by
  obtain ⟨hlen, hfound⟩ := h
  have hsub : fs.map Prod.fst ⊆ gs.map Prod.fst := by
    intro name hname
    obtain ⟨f, hf, rfl⟩ := List.mem_map.mp hname
    obtain ⟨w, hw, -⟩ := hfound f hf
    exact List.mem_map.mpr ⟨_, mem_of_lookup hw, rfl⟩
  have hperm : (fs.map Prod.fst).Perm (gs.map Prod.fst) :=
    (List.subperm_of_subset hnd hsub).perm_of_length_le (by simp [hlen])
  refine ⟨hlen.symm, fun g hg => ?_⟩
  obtain ⟨f, hf, hname⟩ :=
    List.mem_map.mp (hperm.mem_iff.mpr (List.mem_map_of_mem hg))
  obtain ⟨w, hw, hfw⟩ := hfound f hf
  have hg' : gs.lookup g.1 = some g.2 := lookup_of_mem (hperm.nodup_iff.mp hnd) hg
  obtain rfl : g.2 = w := Option.some.inj (hg'.symm.trans (hname ▸ hw))
  exact ⟨f.2, hname ▸ lookup_of_mem hnd hf, ih f hf _ hfw⟩

theorem NamesDistinct.component {c v : Value} (h : v.NamesDistinct)
    (hc : c ∈ v.components) : c.NamesDistinct := by
  cases h with
  | null => cases hc
  | scalar => cases hc
  | array h => exact h c hc
  | packed =>
      obtain ⟨n, -, rfl⟩ := List.mem_map.mp hc
      exact .scalar
  | tuple h => exact h c hc
  | map h =>
      obtain ⟨e, he, hc⟩ := List.mem_flatMap.mp hc
      rcases List.mem_pair.mp hc with rfl | rfl
      · exact .scalar
      · exact h e he
  | struct _ h =>
      obtain ⟨f, hf, rfl⟩ := List.mem_map.mp hc
      exact h f hf

/-- Only the first value needs distinct names: its fields are the ones that
are counted. -/
theorem beq_symm {u v : Value} (hu : u.NamesDistinct)
    (h : (u == v) = true) : (v == u) = true := by
  induction u using component_induction generalizing v with
  | step u ih =>
      have ih' : ∀ c ∈ u.components, ∀ w : Value,
          (c == w) = true → (w == c) = true :=
        fun c hc w => ih c hc (hu.component hc)
      have hitems : ∀ us, u.items? = some us → (v == u) = true := by
        intro us hus
        obtain ⟨vs, hvs, huv⟩ := (items_beq_iff hus).mp h
        rw [components_of_items? hus] at ih'
        exact (items_beq_iff hvs).mpr ⟨us, hus, Ty.forall₂_symm ih' huv⟩
      cases u with
      | null => exact null_beq_iff.mp h ▸ h
      | scalar s =>
          obtain ⟨t, rfl, hst⟩ := scalar_beq_iff.mp h
          exact scalar_beq_iff.mpr ⟨s, rfl, Scalar.beq_symm hst⟩
      | array items => exact hitems items rfl
      | packed p => exact hitems p.items rfl
      | tuple us =>
          obtain ⟨vs, rfl, huv⟩ := tuple_beq_iff.mp h
          exact tuple_beq_iff.mpr ⟨us, rfl, Ty.forall₂_symm ih' huv⟩
      | map es =>
          obtain ⟨fs, rfl, hef⟩ := map_beq_iff.mp h
          refine map_beq_iff.mpr ⟨es, rfl, Ty.forall₂_symm ?_ hef⟩
          intro e he f hef
          exact ⟨Scalar.beq_symm hef.1, ih' e.2 (mem_components_map he).2 _ hef.2⟩
      | struct fs =>
          obtain ⟨gs, rfl, hfg⟩ := struct_beq_iff.mp h
          cases hu with
          | struct hnd _ =>
              refine struct_beq_iff.mpr ⟨fs, rfl, hfg.symm hnd ?_⟩
              exact fun f hf => ih' f.2 (List.mem_map_of_mem hf)

/-! ## Reflexivity -/

theorem sameFields_self_iff {fs : List (String × Value)}
    (hnd : (fs.map Prod.fst).Nodup) :
    SameFields fs fs ↔ ∀ f ∈ fs, (f.2 == f.2) = true := by
  rw [SameFields, and_iff_right rfl]
  refine forall₂_congr fun f hf => ?_
  simp [lookup_of_mem hnd hf]

/-- A value is equal to itself if what it holds directly is; a number must
be one. -/
theorem beq_self_iff_components {v : Value} (hv : v.NamesDistinct) :
    (v == v) = true ↔ (∀ n, v = .number n → ¬n.IsNaN)
      ∧ ∀ c ∈ v.components, (c == c) = true := by
  have hitems : ∀ vs, v.items? = some vs →
      ((v == v) = true ↔ ∀ c ∈ v.components, (c == c) = true) := by
    intro vs hvs
    rw [items_beq_iff hvs, components_of_items? hvs]
    simp [hvs, List.forall₂_same]
  cases hv with
  | null => simp [null_beq_iff, number, components]
  | scalar => simp [scalar_beq_iff, Scalar.beq_self_iff, number, components]
  | @array items _ => simpa [number] using hitems items rfl
  | @packed p => simpa [number] using hitems p.items rfl
  | @tuple items _ => simp [tuple_beq_iff, List.forall₂_same, number, components]
  | @map entries _ =>
      rw [map_beq_iff, components, List.forall_mem_flatMap]
      simp [List.forall₂_same, SameEntry, scalar_beq_scalar, number]
  | @struct fields hnd _ =>
      rw [struct_beq_iff, components, List.forall_mem_map]
      simp [sameFields_self_iff hnd, number]

theorem beq_self_iff {v : Value} (hv : v.NamesDistinct) :
    (v == v) = true ↔ ∀ n, .number n ∈ v.parts → ¬n.IsNaN := by
  induction v using component_induction with
  | step v ih =>
      rw [beq_self_iff_components hv]
      constructor
      · rintro ⟨hself, hall⟩ n hn
        rcases mem_parts_iff.mp hn with heq | ⟨c, hc, hn⟩
        · exact hself n heq.symm
        · exact (ih c hc (hv.component hc)).mp (hall c hc) n hn
      · intro h
        refine ⟨fun n heq => h n (heq ▸ mem_parts_self v), fun c hc => ?_⟩
        refine (ih c hc (hv.component hc)).mpr fun n hn => h n ?_
        exact mem_parts_iff.mpr (Or.inr ⟨c, hc, hn⟩)

/-- Equality is symmetric and transitive, and a value is equal to itself
exactly if none of its parts, at any depth, is a pattern that is not a
number. The names in a struct are distinct, as they are in every value that
can be built. -/
theorem beq_partial_equivalence :
    (∀ u v : Value, u.NamesDistinct → (u == v) = true → (v == u) = true)
    ∧ (∀ u v w : Value,
      (u == v) = true → (v == w) = true → (u == w) = true)
    ∧ ∀ v : Value, v.NamesDistinct →
      ((v == v) = true ↔ ∀ n, .number n ∈ v.parts → ¬n.IsNaN) :=
  ⟨fun _ _ => beq_symm, fun _ _ _ => beq_trans, fun _ => beq_self_iff⟩

/-- Fields in different orders, decimals of different scales, zeros of
different signs, in packed arrays and others; and a key that is not a
number. -/
theorem beq_partial_equivalence_nested :
    let u : Value := .struct [("price", .number (.decimal ⟨10, 1⟩)),
      ("sizes", .packed (.float [.zero false]))]
    let v : Value := .struct [("sizes", .array [.number (.float (.zero true))]),
      ("price", .number (.decimal ⟨100, 2⟩))]
    let w : Value := .struct [("price", .number (.decimal ⟨1, 0⟩)),
      ("sizes", .packed (.float [.zero true]))]
    let x : Value := .tuple [.map [(.number (.double .notNumber), u)]]
    (u.NamesDistinct ∧ (u == v) = true ∧ (v == u) = true)
      ∧ ((v == w) = true ∧ (u == w) = true)
      ∧ (u == u) = true
      ∧ (x.NamesDistinct ∧ (x == x) = false) := by
  intro u v w x
  obtain ⟨hsymm, htrans, hself⟩ := beq_partial_equivalence
  have hu : u.NamesDistinct :=
    .struct (by decide) (by simpa using ⟨.scalar, .packed⟩)
  have huv : (u == v) = true := by decide +kernel
  have hvw : (v == w) = true := by decide +kernel
  have huu : (u == u) = true := by
    have hparts : u.parts = [u, .number (.decimal ⟨10, 1⟩),
      .packed (.float [.zero false]), .number (.float (.zero false))] := rfl
    refine (hself u hu).mpr fun n hn => ?_
    rw [hparts] at hn
    simp [u, number] at hn
    rcases hn with rfl | rfl
    · exact id
    · exact Number.beq_self_iff.mp (by decide +kernel)
  have hx : x.NamesDistinct :=
    .tuple (List.forall_mem_singleton.mpr
      (.map (List.forall_mem_singleton.mpr hu)))
  refine ⟨⟨hu, huv, hsymm u v hu huv⟩, ⟨hvw, htrans u v w huv hvw⟩, huu, hx, ?_⟩
  refine Bool.eq_false_iff.mpr fun hxx => ?_
  have hkey : Value.number (.double .notNumber) ∈ x.parts :=
    List.mem_cons_of_mem _ (List.mem_cons_of_mem _ List.mem_cons_self)
  exact (hself x hx).mp hxx _ hkey (Binary.reading_notNumber (by decide +kernel))

end Value

end Schemata
