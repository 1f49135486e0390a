import Mathlib
import Schemata.Definition
import Schemata.Proofs.Consistency
import Schemata.Value.Natural
import Schemata.Value.Text

/-!
# What the constructors make sure of

Each checked way to build a type yields regular nodes, given regular
ones, and a definition that is accepted is grounded. The lemmas here say
for each of them what an answer looks like, so that the evaluation of
expressions never has to look into them.

Natural types are built without a check. Their fields have distinct
names because those of a struct value do (`Value.NamesDistinct`), which
in turn is how struct values are built.
-/

namespace Schemata

/-- A computation in steps has a result only if its first step has one. -/
theorem exists_of_bind_eq_ok {ε α β : Type} {x : Except ε α}
    {f : α → Except ε β} {b : β} (h : x >>= f = .ok b) :
    ∃ a, x = .ok a ∧ f a = .ok b := by
  cases x with
  | error e => cases h
  | ok a => exact ⟨a, rfl, h⟩

/-! ## Names -/

theorem Names.repeatedFrom?_eq_none {names : List String} :
    ∀ {seen : List String}, repeatedFrom? seen names = none ↔
      names.Nodup ∧ ∀ n ∈ names, n ∉ seen := by
  induction names with
  | nil => simp [repeatedFrom?]
  | cons name names ih =>
      intro seen
      rw [repeatedFrom?]
      by_cases h : name ∈ seen
      · simp [h]
      · simp only [List.contains_eq_mem, h, decide_false, Bool.false_eq_true,
          if_false, ih, List.nodup_cons, List.mem_cons, not_or]
        constructor
        · rintro ⟨hnd, hseen⟩
          refine ⟨⟨fun hmem => (hseen name hmem).1 rfl, hnd⟩, ?_⟩
          rintro n (rfl | hn)
          · exact h
          · exact (hseen n hn).2
        · rintro ⟨⟨hname, hnd⟩, hseen⟩
          refine ⟨hnd, fun n hn => ⟨?_, hseen n (Or.inr hn)⟩⟩
          rintro rfl
          exact hname hn

theorem Names.repeated?_eq_none {names : List String} :
    repeated? names = none ↔ names.Nodup := by
  simp [repeated?, repeatedFrom?_eq_none]

namespace Ty

theorem checkedFields_ok {owner : Option String}
    {fields checked : List (String × Ty)}
    (h : checkedFields owner fields = .ok checked) :
    checked = fields ∧ (fields.map Prod.fst).Nodup := by
  unfold checkedFields at h
  split at h
  · cases h
  · next hnone =>
      obtain rfl := Except.ok.inj h
      exact ⟨rfl, Names.repeated?_eq_none.mp hnone⟩

/-! ## Distinct variants -/

theorem contains_iff {t : Ty} {ts : List Ty} :
    ts.contains t = true ↔ ∃ u ∈ ts, (t == u) = true := by
  rw [List.contains_eq_any_beq, List.any_eq_true]

theorem foldl_addDistinct_pairwise {ts : List Ty} : ∀ {kept : List Ty},
    kept.Pairwise (fun v w => (w == v) = false) →
    (ts.foldl addDistinct kept).Pairwise fun v w => (w == v) = false := by
  induction ts with
  | nil => exact fun h => h
  | cons t ts ih =>
      intro kept h
      refine ih ?_
      unfold addDistinct
      split
      · exact h
      · next hnot =>
          refine List.pairwise_append.mpr ⟨h, List.pairwise_singleton .., ?_⟩
          intro k hk u hu
          obtain rfl := List.mem_singleton.mp hu
          by_contra hne
          exact hnot (contains_iff.mpr ⟨k, hk, by simpa using hne⟩)

theorem mem_foldl_addDistinct {ts : List Ty} {t : Ty} : ∀ {kept : List Ty},
    t ∈ ts.foldl addDistinct kept → t ∈ kept ∨ t ∈ ts := by
  induction ts with
  | nil => exact fun h => Or.inl h
  | cons u ts ih =>
      intro kept h
      rcases ih h with h | h
      · unfold addDistinct at h
        split at h
        · exact Or.inl h
        · rcases List.mem_append.mp h with h | h
          · exact Or.inl h
          · exact Or.inr (List.mem_cons.mpr (Or.inl (List.mem_singleton.mp h)))
      · exact Or.inr (List.mem_cons_of_mem _ h)

/-- Variants that are different already are all kept. -/
theorem foldl_addDistinct_eq {ts : List Ty} : ∀ (kept : List Ty),
    (kept ++ ts).Pairwise (fun v w => (w == v) = false) →
    ts.foldl addDistinct kept = kept ++ ts := by
  induction ts with
  | nil => intro kept _; simp
  | cons t ts ih =>
      intro kept h
      have hnot : kept.contains t ≠ true := by
        intro hc
        obtain ⟨u, hu, htu⟩ := contains_iff.mp hc
        have := (List.pairwise_append.mp h).2.2 u hu t (List.mem_cons_self ..)
        rw [htu] at this
        cases this
      rw [List.foldl_cons, addDistinct, if_neg hnot, ih _ (by simpa using h)]
      simp

theorem mem_of_mem_distinct {ts : List Ty} {t : Ty} (h : t ∈ distinct ts) :
    t ∈ ts :=
  (mem_foldl_addDistinct h).resolve_left List.not_mem_nil

theorem distinct_pairwise (ts : List Ty) :
    (distinct ts).Pairwise fun v w => (w == v) = false :=
  foldl_addDistinct_pairwise List.Pairwise.nil

theorem checkedVariants_ok {variants checked : List Ty}
    (h : checkedVariants variants = .ok checked) :
    checked = distinct variants
      ∧ ∀ label, (Ty.union label checked).Regular := by
  unfold checkedVariants at h
  simp only at h
  split at h
  · cases h
  · next hlen =>
      obtain rfl := (Except.ok.inj h).symm
      exact ⟨rfl, fun _ => ⟨Nat.le_of_not_lt hlen, distinct_pairwise variants⟩⟩

theorem structOf_ok {name : Option String} {fields : List (String × Ty)}
    {t : Ty} (h : structOf name fields = .ok t) :
    t = .struct (.plain name) fields ∧ (fields.map Prod.fst).Nodup := by
  obtain ⟨checked, hchecked, hrest⟩ := exists_of_bind_eq_ok h
  obtain ⟨rfl, hnd⟩ := checkedFields_ok hchecked
  exact ⟨(Except.ok.inj hrest).symm, hnd⟩

theorem unionOfList_ok {name : Option String} {variants : List Ty} {t : Ty}
    (h : unionOfList name variants = .ok t) :
    t = .union (.plain name) (distinct variants) ∧ t.Regular := by
  obtain ⟨checked, hchecked, hrest⟩ := exists_of_bind_eq_ok h
  obtain ⟨rfl, hregular⟩ := checkedVariants_ok hchecked
  obtain rfl := Except.ok.inj hrest
  exact ⟨rfl, hregular _⟩

theorem mem_flattened {t v : Ty} (h : v ∈ t.flattened) :
    v = t ∨ v ∈ t.components := by
  unfold flattened at h
  split at h
  · exact Or.inr h
  · exact Or.inl (List.mem_singleton.mp h)

/-! ## Scalars and maps -/

theorem decimal_ok_iff {precision scale : Nat} {t : Ty} :
    decimal precision scale = .ok t ↔
      t = .scalar (.decimal precision scale)
        ∧ (ScalarType.decimal precision scale).WithinLimits := by
  unfold decimal ScalarType.WithinLimits
  constructor
  · intro h
    split at h
    · cases h
    · split at h
      · cases h
      · exact ⟨(Except.ok.inj h).symm, by omega⟩
  · rintro ⟨rfl, hlow, hhigh, hscale⟩
    rw [if_neg (by omega), if_neg (by omega)]

/-- A type with a length is built if the length is within its limit. -/
theorem sized_ok {length limit : Nat} {s : ScalarType} {e : Error} {t : Ty}
    (h : (if length = 0 ∨ limit < length then .error e
      else .ok (.scalar s)) = Except.ok t) :
    t = .scalar s ∧ 1 ≤ length ∧ length ≤ limit := by
  split at h
  · cases h
  · exact ⟨(Except.ok.inj h).symm, by omega⟩

theorem ofScalar_ok {s : ScalarType} {t : Ty} (h : ofScalar s = .ok t) :
    ∃ s, t = .scalar s ∧ s.WithinLimits := by
  cases s with
  | decimal precision scale => exact ⟨_, decimal_ok_iff.mp h⟩
  | char length => exact ⟨.char length, sized_ok h⟩
  | varchar length => exact ⟨.varchar length, sized_ok h⟩
  | _ => exact ⟨_, (Except.ok.inj h).symm, trivial⟩

theorem mapOf_ok {key value t : Ty} (h : mapOf key value = .ok t) :
    ∃ s, key = .scalar s ∧ t = .map s value := by
  unfold mapOf at h
  split at h
  · next s => exact ⟨s, rfl, (Except.ok.inj h).symm⟩
  · cases h

end Ty

/-! ## Null -/

namespace Scope

/-- What accepts no null is different from `Null` in all its variants. -/
theorem null_ne_of_not_nullable {S : Scope} {t v : Ty}
    (h : S.isNullable t = false) (hv : v ∈ t.flattened) :
    (Ty.null == v) = false := by
  by_contra hne
  obtain rfl := Ty.null_beq_iff.mp (by simpa using hne)
  unfold Ty.flattened at hv
  split at hv
  · next variants =>
      have : variants.any Ty.isNull = true := List.any_eq_true.mpr ⟨_, hv, rfl⟩
      simp [isNullable, resolve, this] at h
  · obtain rfl := List.mem_singleton.mp hv
    simp [isNullable, resolve] at h

theorem flattened_pairwise {t : Ty} (ht : t.Regular) :
    t.flattened.Pairwise (fun v w => (w == v) = false)
      ∧ 1 ≤ t.flattened.length := by
  unfold Ty.flattened
  split
  · next variants =>
      refine ⟨ht.2, Nat.le_trans ?_ ht.1⟩
      decide
  · exact ⟨List.pairwise_singleton .., Nat.le_refl _⟩

/-- Where null has to be added, nothing is equal to it. -/
theorem distinct_flattened_null {S : Scope} {t : Ty} (ht : t.Regular)
    (h : S.isNullable t = false) :
    Ty.distinct (t.flattened ++ [.null]) = t.flattened ++ [.null] := by
  have hall : (t.flattened ++ [Ty.null]).Pairwise
      fun v w => (w == v) = false := by
    refine List.pairwise_append.mpr
      ⟨(flattened_pairwise ht).1, List.pairwise_singleton .., ?_⟩
    intro v hv w hw
    obtain rfl := List.mem_singleton.mp hw
    exact null_ne_of_not_nullable h hv
  exact Ty.foldl_addDistinct_eq [] hall

/-- The nullable type is the type itself or an anonymous union of its
variants with `Null`. -/
theorem nullable_cases (S : Scope) {t : Ty} (ht : t.Regular) :
    S.nullable t = t ∨ ∃ variants, S.nullable t = .union (.plain none) variants
      ∧ (Ty.union (.plain none) variants).Regular
      ∧ ∀ v ∈ variants, v = .null ∨ v = t ∨ v ∈ t.components := by
  unfold nullable
  split
  · exact Or.inl rfl
  · next hnot =>
      have heq := distinct_flattened_null ht (by simpa using hnot)
      have hlen := (flattened_pairwise ht).2
      refine Or.inr ⟨_, rfl, ⟨?_, Ty.distinct_pairwise _⟩, ?_⟩
      · rw [heq, List.length_append, List.length_singleton, Limit.unionVariants]
        omega
      · intro v hv
        rcases List.mem_append.mp (Ty.mem_of_mem_distinct hv) with hv | hv
        · exact Or.inr (Ty.mem_flattened hv)
        · exact Or.inl (List.mem_singleton.mp hv)

end Scope

/-! ## Definitions -/

namespace Ty

theorem anyForcing_iff {forced : DefId → Bool} {ts : List Ty} :
    anyForcing forced ts = true ↔ ∃ t ∈ ts, t.forcing forced = true := by
  induction ts with
  | nil => simp [anyForcing]
  | cons t ts ih => simp [anyForcing, ih]

theorem allForcing_iff {forced : DefId → Bool} {ts : List Ty} :
    allForcing forced ts = true ↔ ∀ t ∈ ts, t.forcing forced = true := by
  induction ts with
  | nil => simp [allForcing]
  | cons t ts ih => simp [allForcing, ih]

theorem anyFieldForcing_iff {forced : DefId → Bool}
    {fields : List (String × Ty)} :
    anyFieldForcing forced fields = true ↔
      ∃ f ∈ fields, f.2.forcing forced = true := by
  induction fields with
  | nil => simp [anyFieldForcing]
  | cons f fields ih => simp [anyFieldForcing, ih]

/-- If more definitions are forced, more types force one of them. -/
theorem forcing_mono {f g : DefId → Bool}
    (hfg : ∀ id, f id = true → g id = true) {t : Ty}
    (h : t.forcing f = true) : t.forcing g = true := by
  induction t using component_induction with
  | step t ih =>
      cases t with
      | tuple elements =>
          rw [forcing, anyForcing_iff] at h ⊢
          obtain ⟨e, he, hforce⟩ := h
          exact ⟨e, he, ih e he hforce⟩
      | struct label fields =>
          rw [forcing, anyFieldForcing_iff] at h ⊢
          obtain ⟨e, he, hforce⟩ := h
          exact ⟨e, he, ih e.2 (List.mem_map.mpr ⟨e, he, rfl⟩) hforce⟩
      | union label variants =>
          rw [forcing, allForcing_iff] at h ⊢
          exact fun v hv => ih v hv (h v hv)
      | ref form name target =>
          rw [forcing] at h ⊢
          exact hfg target h
      | _ => simp [forcing] at h

end Ty

/-- What does not force the definition under construction does not refer
to it in a forcing place either. -/
theorem Scope.forcing_of_not_forces {S : Scope} {target : DefId} {t : Ty}
    (h : S.forces target t = false) : t.forcing (· == target) = false := by
  by_contra hne
  have hforce : t.forcing (· == target) = true := by simpa using hne
  have : S.forces target t = true := by
    refine Ty.forcing_mono (fun id hid => ?_) hforce
    rw [forcedBy, hid, Bool.true_or]
  rw [h] at this
  cases this

namespace Handle

theorem label?_cases {h : Handle} {recursive : Bool} {label : Label}
    (hl : h.label? recursive = some label) :
    label = .plain h.name
      ∨ ∃ name, h.name = some name ∧ label = .recursive name h.id := by
  unfold label? at hl
  split at hl
  · exact Or.inl (Option.some.inj hl).symm
  · next name hname => exact Or.inr ⟨name, hname, (Option.some.inj hl).symm⟩
  · cases hl

theorem completed_struct {h : Handle} {recursive : Bool} {label : Label}
    {fields : List (String × Ty)} (hl : h.label? recursive = some label)
    (hform : h.form = .struct) (hnd : (fields.map Prod.fst).Nodup)
    (hforce : ∀ f ∈ fields, f.2.forcing (· == h.id) = false) :
    h.Completed (.struct label fields) := by
  rcases label?_cases hl with rfl | ⟨name, hname, rfl⟩
  · exact ⟨hnd, trivial, rfl, Or.inl rfl⟩
  · refine ⟨hnd, hforce, rfl, Or.inr ⟨rfl, ?_⟩⟩
    rw [ref, hname, hform]
    rfl

theorem completed_union {h : Handle} {recursive : Bool} {label : Label}
    {variants : List Ty} (hl : h.label? recursive = some label)
    (hform : h.form = .union) (hregular : (Ty.union label variants).Regular)
    (hforce : ∃ v ∈ variants, v.forcing (· == h.id) = false) :
    h.Completed (.union label variants) := by
  rcases label?_cases hl with rfl | ⟨name, hname, rfl⟩
  · exact ⟨hregular, trivial, rfl, Or.inl rfl⟩
  · refine ⟨hregular, hforce, rfl, Or.inr ⟨rfl, ?_⟩⟩
    rw [ref, hname, hform]
    rfl

/-- What a struct is completed to, and what has been checked then. -/
theorem exists_label_of_defineStruct {h : Handle} {held : List Ty}
    {fields : List (String × Ty)} {t : Ty}
    (hok : h.defineStruct held fields = .ok t) :
    let S := Scope.ofHeld (held ++ fields.map Prod.snd)
    ∃ label, t = .struct label fields ∧ (fields.map Prod.fst).Nodup
      ∧ h.label? (fields.any fun f => S.mentions h.id f.2) = some label
      ∧ ∀ f ∈ fields, S.forces h.id f.2 = false := by
  obtain ⟨checked, hchecked, hrest⟩ := exists_of_bind_eq_ok hok
  obtain ⟨rfl, hnd⟩ := Ty.checkedFields_ok hchecked
  simp only at hrest
  split at hrest
  · next label hlabel =>
      split at hrest
      · cases hrest
      · next hnone =>
          obtain rfl := Except.ok.inj hrest
          refine ⟨label, rfl, hnd, hlabel, fun f hf => ?_⟩
          simpa using List.find?_eq_none.mp hnone f hf
  · cases hrest

/-- What a union is completed to, and what has been checked then. -/
theorem exists_label_of_defineUnion {h : Handle} {held variants : List Ty}
    {t : Ty} (hok : h.defineUnion held variants = .ok t) :
    let S := Scope.ofHeld (held ++ Ty.distinct variants)
    ∃ label, t = .union label (Ty.distinct variants) ∧ t.Regular
      ∧ h.label? ((Ty.distinct variants).any (S.mentions h.id)) = some label
      ∧ ∃ v ∈ Ty.distinct variants, S.forces h.id v = false := by
  obtain ⟨checked, hchecked, hrest⟩ := exists_of_bind_eq_ok hok
  obtain ⟨rfl, hregular⟩ := Ty.checkedVariants_ok hchecked
  simp only at hrest
  split at hrest
  · next label hlabel =>
      split at hrest
      · cases hrest
      · next hnot =>
          obtain rfl := Except.ok.inj hrest
          refine ⟨label, rfl, hregular label, hlabel, ?_⟩
          simpa using hnot
  · cases hrest

theorem defineStruct_ok {h : Handle} {held : List Ty}
    {fields : List (String × Ty)} {t : Ty} (hform : h.form = .struct)
    (hok : h.defineStruct held fields = .ok t) :
    h.Completed t ∧ t.components = fields.map Prod.snd := by
  obtain ⟨label, rfl, hnd, hlabel, hforces⟩ := exists_label_of_defineStruct hok
  refine ⟨completed_struct hlabel hform hnd fun f hf => ?_, rfl⟩
  exact Scope.forcing_of_not_forces (hforces f hf)

theorem defineUnion_ok {h : Handle} {held : List Ty} {variants : List Ty}
    {t : Ty} (hform : h.form = .union)
    (hok : h.defineUnion held variants = .ok t) :
    h.Completed t ∧ t.components = Ty.distinct variants := by
  obtain ⟨label, rfl, hregular, hlabel, v, hv, hforces⟩ :=
    exists_label_of_defineUnion hok
  refine ⟨completed_union hlabel hform hregular ⟨v, hv, ?_⟩, rfl⟩
  exact Scope.forcing_of_not_forces hforces

end Handle

/-! ## Values and their natural types -/

/-- The fields of every struct inside of the value have distinct names. -/
inductive Value.NamesDistinct : Value → Prop where
  | null : NamesDistinct .null
  | scalar {s} : NamesDistinct (.scalar s)
  | array {items} (h : ∀ v ∈ items, NamesDistinct v) :
      NamesDistinct (.array items)
  | packed {p} : NamesDistinct (.packed p)
  | tuple {items} (h : ∀ v ∈ items, NamesDistinct v) :
      NamesDistinct (.tuple items)
  | map {entries} (h : ∀ e ∈ entries, NamesDistinct e.2) :
      NamesDistinct (.map entries)
  | struct {fields} (hnd : (fields.map Prod.fst).Nodup)
      (h : ∀ f ∈ fields, NamesDistinct f.2) : NamesDistinct (.struct fields)

namespace Value

theorem mem_setField {fields : List (String × Value)} {name : String}
    {v : Value} {f : String × Value} (h : f ∈ setField fields name v) :
    f = (name, v) ∨ f ∈ fields := by
  induction fields with
  | nil => exact Or.inl (List.mem_singleton.mp h)
  | cons g fields ih =>
      rw [setField] at h
      split at h
      · next heq =>
          rcases List.mem_cons.mp h with rfl | h
          · exact Or.inl (by rw [eq_of_beq heq])
          · exact Or.inr (List.mem_cons_of_mem _ h)
      · rcases List.mem_cons.mp h with rfl | h
        · exact Or.inr (List.mem_cons_self ..)
        · exact (ih h).imp_right (List.mem_cons_of_mem _)

theorem setField_names_nodup {fields : List (String × Value)}
    (name : String) (v : Value) (h : (fields.map Prod.fst).Nodup) :
    ((setField fields name v).map Prod.fst).Nodup := by
  induction fields with
  | nil => simp [setField]
  | cons g fields ih =>
      obtain ⟨hg, hrest⟩ := List.nodup_cons.mp h
      rw [setField]
      split
      · exact h
      · next hne =>
          refine List.nodup_cons.mpr ⟨fun hmem => ?_, ih hrest⟩
          obtain ⟨f, hf, hfg⟩ := List.mem_map.mp hmem
          rcases mem_setField hf with rfl | hf
          · exact hne (by simpa using hfg.symm)
          · exact hg (List.mem_map.mpr ⟨f, hf, hfg⟩)

/-- Setting fields one after the other keeps the names distinct. -/
theorem foldl_setField_namesDistinct {fields : List (String × Value)}
    (h : ∀ f ∈ fields, f.2.NamesDistinct) : ∀ {kept : List (String × Value)},
    (Value.struct kept).NamesDistinct →
    (Value.struct (fields.foldl
      (fun kept f => setField kept f.1 f.2) kept)).NamesDistinct := by
  induction fields with
  | nil => exact fun hkept => hkept
  | cons g fields ih =>
      intro kept hkept
      obtain ⟨hg, hrest⟩ := List.forall_mem_cons.mp h
      cases hkept with
      | struct hnd hkept =>
          refine ih hrest (.struct (setField_names_nodup g.1 g.2 hnd) ?_)
          intro f hf
          rcases mem_setField hf with rfl | hf
          · exact hg
          · exact hkept f hf

theorem structOf_namesDistinct {fields : List (String × Value)}
    (h : ∀ f ∈ fields, f.2.NamesDistinct) :
    (structOf fields).NamesDistinct := by
  have hempty : (Value.struct []).NamesDistinct :=
    .struct List.nodup_nil fun _ hf => (List.not_mem_nil hf).elim
  exact foldl_setField_namesDistinct h hempty

theorem mem_setEntry {entries : List (Scalar × Value)} {key : Scalar}
    {v : Value} {e : Scalar × Value} (h : e ∈ setEntry entries key v) :
    e.2 = v ∨ e ∈ entries := by
  induction entries with
  | nil => exact Or.inl (by rw [List.mem_singleton.mp h])
  | cons g entries ih =>
      rw [setEntry] at h
      split at h
      · rcases List.mem_cons.mp h with rfl | h
        · exact Or.inl rfl
        · exact Or.inr (List.mem_cons_of_mem _ h)
      · rcases List.mem_cons.mp h with rfl | h
        · exact Or.inr (List.mem_cons_self ..)
        · exact (ih h).imp_right (List.mem_cons_of_mem _)

theorem addEntries_namesDistinct {entries : List (Value × Value)}
    {kept result : List (Scalar × Value)}
    (hok : addEntries kept entries = .ok result)
    (hall : ∀ e ∈ entries, e.2.NamesDistinct)
    (hkept : ∀ e ∈ kept, e.2.NamesDistinct) :
    ∀ e ∈ result, e.2.NamesDistinct := by
  fun_induction addEntries kept entries with
  | case1 kept => exact Except.ok.inj hok ▸ hkept
  | case2 kept key v entries ih =>
      obtain ⟨hv, hrest⟩ := List.forall_mem_cons.mp hall
      refine ih hok hrest fun e he => ?_
      rcases mem_setEntry he with heq | he
      · exact heq ▸ hv
      · exact hkept e he
  | case3 => cases hok

theorem mapOf_namesDistinct {entries : List (Value × Value)} {v : Value}
    (hok : mapOf entries = .ok v) (h : ∀ e ∈ entries, e.2.NamesDistinct) :
    v.NamesDistinct := by
  obtain ⟨kept, hkept, hok⟩ := exists_of_bind_eq_ok hok
  obtain rfl := (Except.ok.inj hok).symm
  refine .map (addEntries_namesDistinct hkept h ?_)
  exact fun _ he => (List.not_mem_nil he).elim

theorem textOf_namesDistinct {kind : TextKind} {content : String} {v : Value}
    (hok : textOf kind content = .ok v) : v.NamesDistinct := by
  cases kind <;> simp only [textOf] at hok
  case string => exact Except.ok.inj hok ▸ .scalar
  all_goals
    split at hok
    · cases hok
    · exact Except.ok.inj hok ▸ .scalar

end Value

theorem Scalar.naturalType_withinLimits (s : Scalar) :
    s.naturalType.WithinLimits := by
  cases s with
  | number n =>
      cases n <;> simp only [naturalType, Number.naturalType,
        ScalarType.WithinLimits, ScalarType.coveringDecimal,
        Limit.decimalPrecision]
      omega
  | text kind content =>
      cases kind <;> simp only [naturalType, ScalarType.WithinLimits,
        ScalarType.coveringChar, ScalarType.coveringVarchar,
        Limit.charLength, Limit.varcharLength] <;> omega
  | _ => trivial

namespace Value

theorem naturalTypes_eq (vs : List Value) :
    naturalTypes vs = vs.map naturalType := by
  induction vs with
  | nil => rfl
  | cons v vs ih => rw [naturalTypes, ih, List.map_cons]

theorem fieldTypes_eq (fields : List (String × Value)) :
    fieldTypes fields = fields.map fun f => (f.1, f.2.naturalType) := by
  induction fields with
  | nil => rfl
  | cons f fields ih => rw [fieldTypes, ih, List.map_cons]

/-- Natural types define nothing and refer to nothing. -/
theorem naturalType_plain {v : Value} (h : v.NamesDistinct) :
    ∀ p ∈ v.naturalType.parts, p.Plain := by
  have leaf : ∀ t : Ty, t.Plain → t.components = [] →
      ∀ p ∈ t.parts, p.Plain := by
    intro t ht hnil
    exact Ty.forall_parts ht (by simp [hnil])
  induction h with
  | null => exact leaf _ ⟨rfl, rfl, trivial⟩ rfl
  | scalar => exact leaf _ ⟨rfl, rfl, Scalar.naturalType_withinLimits _⟩ rfl
  | @array items _ ih =>
      rw [naturalType]
      refine Ty.forall_parts ⟨rfl, rfl, trivial⟩ fun c hc => ?_
      obtain rfl := List.mem_singleton.mp hc
      cases items with
      | nil => exact leaf _ ⟨rfl, rfl, trivial⟩ rfl
      | cons v vs => exact ih v (List.mem_cons_self ..)
  | @packed p =>
      refine Ty.forall_parts ⟨rfl, rfl, trivial⟩ fun c hc => ?_
      obtain rfl := List.mem_singleton.mp hc
      exact leaf _ ⟨rfl, rfl, by cases p <;> trivial⟩ rfl
  | tuple _ ih =>
      rw [naturalType, naturalTypes_eq]
      refine Ty.forall_parts ⟨rfl, rfl, trivial⟩ fun c hc => ?_
      obtain ⟨v, hv, rfl⟩ := List.mem_map.mp hc
      exact ih v hv
  | @map entries _ ih =>
      rw [naturalType]
      cases entries with
      | nil => exact leaf _ ⟨rfl, rfl, trivial⟩ rfl
      | cons e entries =>
          refine Ty.forall_parts ⟨rfl, rfl, trivial⟩ fun c hc => ?_
          rcases List.mem_cons.mp hc with rfl | hc
          · exact leaf _ ⟨rfl, rfl, Scalar.naturalType_withinLimits _⟩ rfl
          · obtain rfl := List.mem_singleton.mp hc
            exact ih e (List.mem_cons_self ..)
  | @struct fields hnd _ ih =>
      rw [naturalType, fieldTypes_eq]
      refine Ty.forall_parts ⟨rfl, rfl, ?_⟩ fun c hc => ?_
      · show ((fields.map fun f => (f.1, f.2.naturalType)).map Prod.fst).Nodup
        rwa [List.map_map]
      · obtain ⟨f, hf, rfl⟩ := List.mem_map.mp hc
        obtain ⟨g, hg, rfl⟩ := List.mem_map.mp hf
        exact ih g hg

end Value

end Schemata
