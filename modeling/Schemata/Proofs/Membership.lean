import Mathlib
import Schemata.Membership
import Schemata.Proofs.Parts
import Schemata.Proofs.Saturation

/-!
# Membership as a relation

`Value.Member` says by rules when a value is a member of a type; a
derivation is finite, so a reference or a union that only leads back to
itself has no members. `Value.isInstance` decides it
(`Value.isInstance_iff`), for every scope and every type, whether or
not the references can be followed.

The function first unfolds a type into alternatives and then looks at
the value. `Scope.Unfolds` is that first half as a relation. It depends
on the value in no way, and the computed set of definitions that can be
reached by unfolding alone is closed (`unfolded_saturated`), which is
why no derivation can be missed however the unions refer to each other.
-/

namespace Schemata

/-! ## The rules -/

/-- The scalars of a scalar type: those of its own kind, decimals with no
more digits than declared, and texts of any length. -/
inductive Scalar.Member : Scalar → ScalarType → Prop where
  | boolean {b} : Member (.boolean b) .boolean
  | tinyInt {n} : Member (.number (.tinyInt n)) .tinyInt
  | smallInt {n} : Member (.number (.smallInt n)) .smallInt
  | int {n} : Member (.number (.int n)) .int
  | bigInt {n} : Member (.number (.bigInt n)) .bigInt
  | float {x} : Member (.number (.float x)) .float
  | double {x} : Member (.number (.double x)) .double
  | decimal {d precision scale} (hp : d.precision ≤ precision)
      (hs : d.fractionDigits ≤ scale) :
      Member (.number (.decimal d)) (.decimal precision scale)
  | date {d} : Member (.date d) .date
  | timestamp {t} : Member (.timestamp t) .timestamp
  | char {content length} : Member (.text .char content) (.char length)
  | varchar {content length} :
      Member (.text .varchar content) (.varchar length)
  | string {content} : Member (.text .string content) .string

/-- When a value is a member of a type, while the definitions in `S` can
be followed. -/
inductive Value.Member (S : Scope) : Value → Ty → Prop where
  | any {v} : Member S v .any
  | null : Member S .null .null
  | scalar {s type} (h : s.Member type) : Member S (.scalar s) (.scalar type)
  | array {items element} (h : ∀ v ∈ items, Member S v element) :
      Member S (.array items) (.array element)
  | packed {p element} (h : ∀ n ∈ p.numbers, Member S (.number n) element) :
      Member S (.packed p) (.array element)
  | tuple {items elements} (hlen : items.length = elements.length)
      (h : ∀ p ∈ items.zip elements, Member S p.1 p.2) :
      Member S (.tuple items) (.tuple elements)
  | map {entries key value} (hk : ∀ e ∈ entries, e.1.Member key)
      (hv : ∀ e ∈ entries, Member S e.2 value) :
      Member S (.map entries) (.map key value)
  | struct {fields label declared}
      (h : ∀ f ∈ declared, Member S (Value.fieldOrNull fields f.1) f.2) :
      Member S (.struct fields) (.struct label declared)
  | union {v w label variants} (hw : w ∈ variants) (h : Member S v w) :
      Member S v (.union label variants)
  | ref {v form name id d} (hd : S.find? id = some d) (h : Member S v d) :
      Member S v (.ref form name id)

theorem Scalar.hasType_iff_member {s : Scalar} {type : ScalarType} :
    s.hasType type = true ↔ s.Member type := by
  constructor
  · intro h
    cases s with
    | boolean b => cases type <;> simp [hasType] at h; exact .boolean
    | date d => cases type <;> simp [hasType] at h; exact .date
    | timestamp t => cases type <;> simp [hasType] at h; exact .timestamp
    | text kind content =>
        cases kind <;> cases type <;> simp [hasType] at h <;> constructor
    | number n =>
        cases n <;> cases type <;> simp [hasType, Number.hasType] at h <;>
          constructor
        all_goals simp_all [Decimal.fits]
  · intro h
    cases h <;> simp_all [hasType, Number.hasType, Decimal.fits]

/-! ## Unfolding -/

/-- `o` is one of the alternatives of `t`: reached by choosing variants
and following references. -/
inductive Scope.Unfolds (S : Scope) : Ty → Ty → Prop where
  | refl (t) : Unfolds S t t
  | variant {w label variants o} (hw : w ∈ variants) (h : Unfolds S w o) :
      Unfolds S (.union label variants) o
  | follow {form name id d o} (hd : S.find? id = some d) (h : Unfolds S d o) :
      Unfolds S (.ref form name id) o

/-- Unions and references, which are members of no value's own kind. -/
def Ty.isIndirect : Ty → Bool
  | .union .. | .ref .. => true
  | _ => false

namespace Ty

mutual

theorem unfolds_of_anyOption {S : Scope} {test : Ty → Bool} : ∀ t : Ty,
    t.anyOption test = true → ∃ o, S.Unfolds t o ∧ test o = true
  | .union _ vs, h => by
      rw [anyOption] at h
      obtain ⟨w, hw, o, ho, htest⟩ := unfolds_of_anyOptionOfList vs h
      exact ⟨o, .variant hw ho, htest⟩
  | .any, h => ⟨_, .refl _, by simpa [anyOption] using h⟩
  | .null, h => ⟨_, .refl _, by simpa [anyOption] using h⟩
  | .scalar _, h => ⟨_, .refl _, by simpa [anyOption] using h⟩
  | .array _, h => ⟨_, .refl _, by simpa [anyOption] using h⟩
  | .tuple _, h => ⟨_, .refl _, by simpa [anyOption] using h⟩
  | .map .., h => ⟨_, .refl _, by simpa [anyOption] using h⟩
  | .struct .., h => ⟨_, .refl _, by simpa [anyOption] using h⟩
  | .ref .., h => ⟨_, .refl _, by simpa [anyOption] using h⟩

theorem unfolds_of_anyOptionOfList {S : Scope} {test : Ty → Bool} :
    ∀ ts : List Ty, anyOptionOfList test ts = true →
      ∃ t ∈ ts, ∃ o, S.Unfolds t o ∧ test o = true
  | [], h => by simp [anyOptionOfList] at h
  | t :: ts, h => by
      rw [anyOptionOfList, Bool.or_eq_true] at h
      rcases h with h | h
      · exact ⟨t, List.mem_cons_self .., unfolds_of_anyOption t h⟩
      · obtain ⟨u, hu, ho⟩ := unfolds_of_anyOptionOfList ts h
        exact ⟨u, List.mem_cons_of_mem _ hu, ho⟩

end

theorem anyOptionOfList_iff {test : Ty → Bool} {ts : List Ty} :
    anyOptionOfList test ts = true ↔ ∃ t ∈ ts, t.anyOption test = true := by
  induction ts with
  | nil => simp [anyOptionOfList]
  | cons t ts ih => simp [anyOptionOfList, ih]

theorem mem_optionTargetsOfList {id : DefId} {ts : List Ty} :
    id ∈ optionTargetsOfList ts ↔ ∃ t ∈ ts, id ∈ t.optionTargets := by
  induction ts with
  | nil => simp [optionTargetsOfList]
  | cons t ts ih => simp [optionTargetsOfList, ih]

mutual

theorem unfolds_of_optionTarget {S : Scope} {id : DefId} {d o : Ty}
    (hd : S.find? id = some d) (ho : S.Unfolds d o) : ∀ t : Ty,
    id ∈ t.optionTargets → S.Unfolds t o
  | .union _ vs, h => by
      rw [optionTargets] at h
      obtain ⟨w, hw, hwo⟩ := unfolds_of_optionTargetsOfList hd ho vs h
      exact .variant hw hwo
  | .ref _ _ target, h => by
      obtain rfl := List.mem_singleton.mp (by simpa only [optionTargets] using h)
      exact .follow hd ho
  | .any, h | .null, h | .scalar _, h | .array _, h | .tuple _, h | .map .., h
  | .struct .., h => by simp [optionTargets] at h

theorem unfolds_of_optionTargetsOfList {S : Scope} {id : DefId} {d o : Ty}
    (hd : S.find? id = some d) (ho : S.Unfolds d o) : ∀ ts : List Ty,
    id ∈ optionTargetsOfList ts → ∃ t ∈ ts, S.Unfolds t o
  | [], h => by simp [optionTargetsOfList] at h
  | t :: ts, h => by
      rw [optionTargetsOfList, List.mem_append] at h
      rcases h with h | h
      · exact ⟨t, List.mem_cons_self .., unfolds_of_optionTarget hd ho t h⟩
      · obtain ⟨u, hu, huo⟩ := unfolds_of_optionTargetsOfList hd ho ts h
        exact ⟨u, List.mem_cons_of_mem _ hu, huo⟩

end

end Ty

namespace Scope

/-! ## The alternatives are found -/

/-- Unfolding is finished when the search for definitions ends. -/
theorem unfolded_saturated (S : Scope) (start : List DefId) :
    Saturated (fun known => known.flatMap fun id =>
      ((S.find? id).map Ty.optionTargets).getD []) (S.unfolded start) := by
  refine saturated_saturate_of_edges S.ids ?_ ?_ start
  · intro id hne
    cases hd : S.find? id with
    | none => simp [hd] at hne
    | some d => exact mem_ids_of_find? hd
  · exact List.length_filterMap_le ..

theorem unfolds_of_mem_unfolded {S : Scope} {t : Ty} :
    ∀ id ∈ S.unfolded t.optionTargets, ∀ d o, S.find? id = some d →
      S.Unfolds d o → S.Unfolds t o := by
  refine saturate_induction ?_ ?_
  · intro known hknown id hid d o hd ho
    obtain ⟨id', hid', hmem⟩ := List.mem_flatMap.mp hid
    cases hd' : S.find? id' with
    | none => simp [hd'] at hmem
    | some d' =>
        simp only [hd', Option.map_some, Option.getD_some] at hmem
        have hunfolds := Ty.unfolds_of_optionTarget hd ho d' hmem
        exact hknown id' hid' d' o hd' hunfolds
  · intro id hid d o hd ho
    exact Ty.unfolds_of_optionTarget hd ho t hid

/-- An alternative is found in the type itself or in a definition of any
set that is closed under unfolding. -/
theorem anyOption_of_unfolds {S : Scope} (test : Ty → Bool) {known : List DefId}
    (hknown : Saturated (fun known => known.flatMap fun id =>
      ((S.find? id).map Ty.optionTargets).getD []) known)
    {t o : Ty} (ho : S.Unfolds t o) (hdirect : o.isIndirect = false)
    (htest : test o = true) (ht : ∀ id ∈ t.optionTargets, id ∈ known) :
    t.anyOption test = true
      ∨ ∃ id ∈ known, ∃ d, S.find? id = some d ∧ d.anyOption test = true := by
  induction ho with
  | refl t =>
      refine Or.inl ?_
      cases t <;> simp_all [Ty.isIndirect, Ty.anyOption]
  | @variant w label variants o hw _ ih =>
      have htargets : ∀ id ∈ w.optionTargets, id ∈ known := by
        intro id hid
        apply ht
        rw [Ty.optionTargets]
        exact Ty.mem_optionTargetsOfList.mpr ⟨_, hw, hid⟩
      rcases ih hdirect htest htargets with h | h
      · refine Or.inl ?_
        rw [Ty.anyOption]
        exact Ty.anyOptionOfList_iff.mpr ⟨_, hw, h⟩
      · exact Or.inr h
  | @follow form name id d o hd _ ih =>
      have hid : id ∈ known := ht id (by simp [Ty.optionTargets])
      have htargets : ∀ id' ∈ d.optionTargets, id' ∈ known := by
        intro id' hid'
        apply hknown
        exact List.mem_flatMap.mpr ⟨id, hid, by simpa [hd] using hid'⟩
      refine Or.inr ?_
      rcases ih hdirect htest htargets with h | h
      · exact ⟨id, hid, d, hd, h⟩
      · exact h

theorem accepts_iff {S : Scope} {t : Ty} {test : Ty → Bool}
    (htest : ∀ o, test o = true → o.isIndirect = false) :
    S.accepts t test = true ↔
      ∃ o, S.Unfolds t o ∧ o.isIndirect = false ∧ (o = .any ∨ test o = true) := by
  have hdirect : ∀ o : Ty, (o.isAny || test o) = true →
      o.isIndirect = false ∧ (o = .any ∨ test o = true) := by
    intro o ho
    rw [Bool.or_eq_true] at ho
    rcases ho with ho | ho
    · cases o <;> simp_all [Ty.isAny, Ty.isIndirect]
    · exact ⟨htest o ho, Or.inr ho⟩
  constructor
  · intro h
    simp only [accepts, Bool.or_eq_true, List.any_eq_true] at h
    rcases h with h | ⟨id, hid, h⟩
    · obtain ⟨o, hto, ho⟩ := Ty.unfolds_of_anyOption t h
      exact ⟨o, hto, hdirect o ho⟩
    · obtain ⟨d, hd, h⟩ := (Option.any_eq_true ..).mp h
      obtain ⟨o, hdo, ho⟩ := Ty.unfolds_of_anyOption d h
      exact ⟨o, unfolds_of_mem_unfolded id hid d o hd hdo, hdirect o ho⟩
  · rintro ⟨o, hto, ho, hacc⟩
    have hacc' : (o.isAny || test o) = true := by
      rcases hacc with rfl | hacc
      · rfl
      · rw [hacc, Bool.or_true]
    have hsaturated := S.unfolded_saturated t.optionTargets
    simp only [accepts, Bool.or_eq_true, List.any_eq_true]
    rcases anyOption_of_unfolds (fun o => o.isAny || test o) hsaturated
      hto ho hacc' subset_saturate with h | ⟨id, hid, d, hd, h⟩
    · exact Or.inl h
    · exact Or.inr ⟨id, hid, (Option.any_eq_true ..).mpr ⟨d, hd, h⟩⟩

end Scope

/-! ## The value decides -/

namespace Value

theorem Member.of_unfolds {S : Scope} {v : Value} {t o : Ty}
    (ho : S.Unfolds t o) (h : Member S v o) : Member S v t := by
  induction ho with
  | refl t => exact h
  | variant hw _ ih => exact .union hw (ih h)
  | follow hd _ ih => exact .ref hd (ih h)

theorem Member.exists_unfolds {S : Scope} {v : Value} {t : Ty}
    (h : Member S v t) :
    ∃ o, S.Unfolds t o ∧ o.isIndirect = false ∧ Member S v o := by
  induction h with
  | union hw _ ih =>
      obtain ⟨o, ho, hdirect, hm⟩ := ih
      exact ⟨o, .variant hw ho, hdirect, hm⟩
  | ref hd _ ih =>
      obtain ⟨o, ho, hdirect, hm⟩ := ih
      exact ⟨o, .follow hd ho, hdirect, hm⟩
  | any => exact ⟨_, .refl _, rfl, .any⟩
  | null => exact ⟨_, .refl _, rfl, .null⟩
  | scalar h => exact ⟨_, .refl _, rfl, .scalar h⟩
  | array h _ => exact ⟨_, .refl _, rfl, .array h⟩
  | packed h _ => exact ⟨_, .refl _, rfl, .packed h⟩
  | tuple hlen h _ => exact ⟨_, .refl _, rfl, .tuple hlen h⟩
  | map hk hv _ => exact ⟨_, .refl _, rfl, .map hk hv⟩
  | struct h _ => exact ⟨_, .refl _, rfl, .struct h⟩

/-- A test that is right about the alternatives is right about the type. -/
theorem accepts_iff_member {S : Scope} {v : Value} {t : Ty} {test : Ty → Bool}
    (htest : ∀ o, test o = true → o.isIndirect = false)
    (h : ∀ o : Ty, o.isIndirect = false →
      (Member S v o ↔ o = .any ∨ test o = true)) :
    S.accepts t test = true ↔ Member S v t := by
  rw [Scope.accepts_iff htest]
  constructor
  · rintro ⟨o, hto, hdirect, ho⟩
    exact .of_unfolds hto ((h o hdirect).mpr ho)
  · intro hm
    obtain ⟨o, hto, hdirect, ho⟩ := hm.exists_unfolds
    exact ⟨o, hto, hdirect, (h o hdirect).mp ho⟩

theorem acceptsNull_iff_member {S : Scope} {t : Ty} :
    S.acceptsNull t = true ↔ Member S .null t := by
  refine accepts_iff_member ?_ ?_
  · intro o ho
    cases o <;> simp_all [Ty.isNull, Ty.isIndirect]
  · intro o ho
    constructor
    · intro h
      cases h <;> simp_all [Ty.isNull, Ty.isIndirect]
    · rintro (rfl | h)
      · exact .any
      · cases o <;> simp [Ty.isNull] at h
        exact .null

theorem acceptsScalar_iff_member {S : Scope} {s : Scalar} {t : Ty} :
    S.acceptsScalar s t = true ↔ Member S (.scalar s) t := by
  refine accepts_iff_member ?_ ?_
  · intro o ho
    cases o <;> simp_all [Ty.isIndirect]
  · intro o ho
    constructor
    · intro h
      cases h with
      | any => exact Or.inl rfl
      | scalar h => exact Or.inr (Scalar.hasType_iff_member.mpr h)
      | union => simp [Ty.isIndirect] at ho
      | ref => simp [Ty.isIndirect] at ho
    · rintro (rfl | h)
      · exact .any
      · cases o <;> simp at h
        exact .scalar (Scalar.hasType_iff_member.mp h)

/-! ### Packed arrays -/

/-- The numbers of a packed array are members of the same types. -/
theorem numbers_hasType_eq {p : Packed} {m n : Number} (hm : m ∈ p.numbers)
    (hn : n ∈ p.numbers) (type : ScalarType) :
    (Scalar.number m).hasType type = (Scalar.number n).hasType type := by
  cases p <;> simp only [Packed.numbers, List.mem_map] at hm hn
  all_goals
    obtain ⟨_, -, rfl⟩ := hm
    obtain ⟨_, -, rfl⟩ := hn
    cases type <;> rfl

theorem member_number_iff {S : Scope} {p : Packed} {m n : Number}
    (hm : m ∈ p.numbers) (hn : n ∈ p.numbers) {t : Ty} :
    Member S (.number m) t ↔ Member S (.number n) t := by
  have heq : S.acceptsScalar (.number m) = S.acceptsScalar (.number n) := by
    funext t
    unfold Scope.acceptsScalar
    congr 1
    funext o
    cases o <;> simp [numbers_hasType_eq hm hn]
  show Member S (.scalar (.number m)) t ↔ Member S (.scalar (.number n)) t
  rw [← acceptsScalar_iff_member, heq, acceptsScalar_iff_member]

theorem acceptsFirst_iff {S : Scope} {p : Packed} {t : Ty} :
    S.acceptsFirst p.numbers t = true ↔
      ∀ n ∈ p.numbers, Member S (.number n) t := by
  cases h : p.numbers with
  | nil => simp [Scope.acceptsFirst]
  | cons m ms =>
      have hm : m ∈ p.numbers := by simp [h]
      rw [← h]
      constructor
      · intro hfirst n hn
        rw [h] at hfirst
        exact (member_number_iff hm hn).mp (acceptsScalar_iff_member.mp hfirst)
      · intro hall
        rw [h]
        exact acceptsScalar_iff_member.mpr (hall m hm)

/-! ### All values -/

mutual

theorem isInstance_iff {S : Scope} : ∀ (v : Value) (t : Ty),
    v.isInstance S t = true ↔ Member S v t
  | .null, t => by rw [isInstance]; exact acceptsNull_iff_member
  | .scalar s, t => by rw [isInstance]; exact acceptsScalar_iff_member
  | .array items, t => by
      rw [isInstance]
      refine accepts_iff_member ?_ ?_ <;> intro o ho
      · cases o <;> simp_all [Ty.isIndirect]
      · constructor
        · intro h
          cases h with
          | any => exact Or.inl rfl
          | array h => exact Or.inr ((allInstances_iff items _).mpr h)
          | union | ref => simp [Ty.isIndirect] at ho
        · rintro (rfl | h)
          · exact .any
          · cases o <;> simp at h
            exact .array ((allInstances_iff items _).mp h)
  | .packed p, t => by
      rw [isInstance]
      refine accepts_iff_member ?_ ?_ <;> intro o ho
      · cases o <;> simp_all [Ty.isIndirect]
      · constructor
        · intro h
          cases h with
          | any => exact Or.inl rfl
          | packed h => exact Or.inr (acceptsFirst_iff.mpr h)
          | union | ref => simp [Ty.isIndirect] at ho
        · rintro (rfl | h)
          · exact .any
          · cases o <;> simp at h
            exact .packed (acceptsFirst_iff.mp h)
  | .tuple items, t => by
      rw [isInstance]
      refine accepts_iff_member ?_ ?_ <;> intro o ho
      · cases o <;> simp_all [Ty.isIndirect]
      · constructor
        · intro h
          cases h with
          | any => exact Or.inl rfl
          | tuple hlen h =>
              exact Or.inr ((itemsAreInstances_iff items _).mpr ⟨hlen, h⟩)
          | union | ref => simp [Ty.isIndirect] at ho
        · rintro (rfl | h)
          · exact .any
          · cases o <;> simp at h
            obtain ⟨hlen, h⟩ := (itemsAreInstances_iff items _).mp h
            exact .tuple hlen h
  | .map entries, t => by
      rw [isInstance]
      refine accepts_iff_member ?_ ?_ <;> intro o ho
      · cases o <;> simp_all [Ty.isIndirect]
      · constructor
        · intro h
          cases h with
          | any => exact Or.inl rfl
          | map hk hv =>
              refine Or.inr ?_
              exact (entriesAreInstances_iff entries _ _).mpr ⟨hk, hv⟩
          | union | ref => simp [Ty.isIndirect] at ho
        · rintro (rfl | h)
          · exact .any
          · cases o <;> simp at h
            obtain ⟨hk, hv⟩ := (entriesAreInstances_iff entries _ _).mp h
            exact .map hk hv
  | .struct fields, t => by
      rw [isInstance]
      refine accepts_iff_member ?_ ?_ <;> intro o ho
      · cases o <;> simp_all [Ty.isIndirect]
      · constructor
        · intro h
          cases h with
          | any => exact Or.inl rfl
          | struct h =>
              refine Or.inr (List.all_eq_true.mpr fun f hf => ?_)
              exact (fieldIsInstance_iff fields f.1 f.2).mpr (h f hf)
          | union | ref => simp [Ty.isIndirect] at ho
        · rintro (rfl | h)
          · exact .any
          · cases o with
            | struct label declared =>
                refine .struct fun f hf => ?_
                have hfield := List.all_eq_true.mp h f hf
                exact (fieldIsInstance_iff fields f.1 f.2).mp hfield
            | _ => simp at h

theorem allInstances_iff {S : Scope} : ∀ (vs : List Value) (t : Ty),
    allInstances S vs t = true ↔ ∀ v ∈ vs, Member S v t
  | [], t => by simp [allInstances]
  | v :: vs, t => by
      simp [allInstances, isInstance_iff v t, allInstances_iff vs t]

theorem itemsAreInstances_iff {S : Scope} : ∀ (vs : List Value) (ts : List Ty),
    itemsAreInstances S vs ts = true ↔
      vs.length = ts.length ∧ ∀ p ∈ vs.zip ts, Member S p.1 p.2
  | [], [] => by simp [itemsAreInstances]
  | [], _ :: _ => by simp [itemsAreInstances]
  | _ :: _, [] => by simp [itemsAreInstances]
  | v :: vs, t :: ts => by
      rw [itemsAreInstances, Bool.and_eq_true, isInstance_iff v t,
        itemsAreInstances_iff vs ts, List.zip_cons_cons,
        List.forall_mem_cons, List.length_cons, List.length_cons,
        Nat.add_right_cancel_iff]
      tauto

theorem entriesAreInstances_iff {S : Scope} :
    ∀ (entries : List (Scalar × Value)) (key : ScalarType) (value : Ty),
      entriesAreInstances S entries key value = true ↔
        (∀ e ∈ entries, e.1.Member key) ∧ ∀ e ∈ entries, Member S e.2 value
  | [], _, _ => by simp [entriesAreInstances]
  | (k, v) :: entries, key, value => by
      rw [entriesAreInstances, Bool.and_eq_true, Bool.and_eq_true,
        isInstance_iff v value, entriesAreInstances_iff entries key value,
        Scalar.hasType_iff_member, List.forall_mem_cons, List.forall_mem_cons]
      tauto

theorem fieldIsInstance_iff {S : Scope} :
    ∀ (fields : List (String × Value)) (name : String) (t : Ty),
      fieldIsInstance S fields name t = true ↔
        Member S (fieldOrNull fields name) t
  | [], _, _ => by rw [fieldIsInstance]; exact acceptsNull_iff_member
  | (given, v) :: fields, name, t => by
      rw [fieldIsInstance]
      by_cases h : given = name
      · subst h
        simpa [fieldOrNull, List.lookup] using isInstance_iff v t
      · have hne : (name == given) = false := by
          simpa using fun h' => h h'.symm
        simpa [fieldOrNull, List.lookup, h, hne]
          using fieldIsInstance_iff fields name t

end

theorem isInstance_scalar_iff {S : Scope} {s : Scalar} {type : ScalarType} :
    (Value.scalar s).isInstance S (.scalar type) = true ↔
      s.hasType type = true := by
  rw [isInstance_iff, Scalar.hasType_iff_member]
  constructor
  · intro h
    cases h with
    | scalar h => exact h
  · exact .scalar

end Value

end Schemata
