import Mathlib
import Schemata.Proofs.Membership
import Schemata.Proofs.Parts

/-!
# Membership by depth-first search

A direct way to decide membership follows the rules: it resolves the
type, tries the variants of a union one after the other, and descends
into the value. Recursive unions could make it run for ever, so it
remembers which of them it is expanding for which value, and an
expansion that comes back for the same value fails.

Values are told apart by where they were found (`Place`): the parts of
the value have places of their own, while all absent fields share one
null. A remembered expansion can therefore only come back at the place
where it began.

Two things need an argument. The search ends, since following a
reference to a union that is not being expanded uses up a definition of
the scope, and everything else descends in the type or the value; this
is the termination proof of `Scope.search`. And nothing is missed: a way
through the alternatives that comes back to a union has a shorter one
that does not (`Scope.Avoiding.cut`). So the search agrees with
`Value.isInstance` (`Value.searched_eq`).
-/

namespace Schemata

/-- Where a value was found: at the end of a path, innermost step first,
or nowhere, as the null that stands for an absent field. -/
inductive Place where
  | inside (path : List Nat)
  | absent
deriving DecidableEq

/-- The expansions in progress: recursive unions, each with the place of
the value for which it is expanded. -/
abbrev Expansions := List (Place × Ty)

namespace Expansions

/-- Whether this very union is being expanded at the place. -/
def has (guard : Expansions) (place : Place) (union : Ty) : Bool :=
  guard.any fun e => e.1 == place && e.2.exact union

theorem has_iff {guard : Expansions} {place : Place} {union : Ty} :
    guard.has place union = true ↔ (place, union) ∈ guard := by
  simp only [has, List.any_eq_true, Bool.and_eq_true, beq_iff_eq, Ty.exact_iff]
  constructor
  · rintro ⟨⟨_, _⟩, he, rfl, rfl⟩
    exact he
  · exact fun h => ⟨_, h, rfl, rfl⟩

end Expansions

namespace Scope

/-- The definitions that are not being expanded at the place. -/
def idle (S : Scope) (guard : Expansions) (place : Place) : List Ty :=
  S.definitions.filter fun d => !guard.has place d

theorem idle_cons (S : Scope) (guard : Expansions) (place : Place) (u : Ty) :
    S.idle ((place, u) :: guard) place
      = (S.idle guard place).filter fun d => !u.exact d := by
  simp [idle, Expansions.has, List.filter_filter]

theorem length_idle_le (S : Scope) (guard : Expansions) (place : Place)
    (u : Ty) :
    (S.idle ((place, u) :: guard) place).length
      ≤ (S.idle guard place).length := by
  rw [idle_cons]
  exact List.length_filter_le ..

theorem length_idle_lt {S : Scope} {guard : Expansions} {place : Place}
    {d : Ty} (hd : d ∈ S.definitions)
    (hidle : guard.has place d = false) :
    (S.idle ((place, d) :: guard) place).length
      < (S.idle guard place).length := by
  rw [idle_cons]
  refine List.length_filter_lt_length_iff_exists.mpr ⟨d, ?_, ?_⟩
  · simp [idle, hd, hidle]
  · simp [Ty.exact_iff]

/-- Expanding a recursive union either leaves one definition fewer to be
expanded or descends in the type. -/
theorem expand_decreases {S : Scope} {guard : Expansions} {place : Place}
    {t w : Ty} {label : Label} {variants : List Ty}
    (h : S.resolve t = .union label variants)
    (hg : guard.has place (.union label variants) = false)
    (hw : w ∈ variants) :
    Prod.Lex (· < ·) (· < ·)
      ((S.idle ((place, .union label variants) :: guard) place).length, sizeOf w)
      ((S.idle guard place).length, sizeOf t) := by
  rcases S.resolve_cases t with ht | ⟨form, name, id, d, rfl, hd, hr⟩
  · rw [ht] at h
    subst h
    have hc : w ∈ (Ty.union label variants).components := hw
    have hlt := Ty.sizeOf_component_lt hc
    have hidle := S.length_idle_le guard place (.union label variants)
    rcases Nat.lt_or_eq_of_le hidle with hle | heq
    · exact .left _ _ hle
    · rw [heq]
      exact .right _ hlt
  · obtain rfl := hr.symm.trans h
    exact .left _ _ (length_idle_lt (mem_definitions_of_find? hd) hg)

theorem resolve_plain_union {S : Scope} {t : Ty} {label : Label}
    {variants : List Ty} (h : S.resolve t = .union label variants)
    (hl : label.isRecursive = false) :
    t = .union label variants := by
  rcases S.resolve_cases t with ht | ⟨form, name, id, d, rfl, hd, hr⟩
  · exact ht.symm.trans h
  · obtain rfl := hr.symm.trans h
    have hrecursive := Ty.isRecursive_of_defId? (defId?_of_find? hd)
    rw [Ty.isRecursive, hl] at hrecursive
    cases hrecursive

/-- Whether some alternative of `t` is `Any` or passes the test, by
depth-first search for the value at `place`. -/
def search (S : Scope) (place : Place) (test : Expansions → Ty → Bool)
    (guard : Expansions) (t : Ty) : Bool :=
  match _ : S.resolve t with
  | .any => true
  | .union label variants =>
    if _ : label.isRecursive then
      if _ : guard.has place (.union label variants) then false
      else variants.attach.any fun w =>
        search S place test ((place, .union label variants) :: guard) w.1
    else variants.attach.any fun w => search S place test guard w.1
  | o => test guard o
termination_by ((S.idle guard place).length, sizeOf t)
decreasing_by
  · exact expand_decreases ‹_› (by simpa using ‹¬guard.has _ _ = true›) w.2
  · have hplain : label.isRecursive = false := by
      simpa using ‹¬label.isRecursive = true›
    obtain rfl := resolve_plain_union ‹_› hplain
    exact .right _ (Ty.sizeOf_component_lt w.2)

/-! ## Nothing is missed -/

/-- `o` is an alternative of `t` that is reached without expanding a
recursive union of `G`. -/
inductive Avoiding (S : Scope) (G : Ty → Prop) : Ty → Ty → Prop where
  | refl (t) : Avoiding S G t t
  | variant {w label variants o}
      (hG : label.isRecursive = true → ¬G (.union label variants))
      (hw : w ∈ variants) (h : Avoiding S G w o) :
      Avoiding S G (.union label variants) o
  | follow {form name id d o} (hd : S.find? id = some d) (h : Avoiding S G d o) :
      Avoiding S G (.ref form name id) o

theorem Unfolds.avoiding {S : Scope} {G : Ty → Prop} (hG : ∀ t, ¬G t) {t o : Ty}
    (h : S.Unfolds t o) : S.Avoiding G t o := by
  induction h with
  | refl t => exact .refl t
  | variant hw _ ih => exact .variant (fun _ => hG _) hw ih
  | follow hd _ ih => exact .follow hd ih

theorem Avoiding.mono {S : Scope} {G G' : Ty → Prop}
    (hG : ∀ u, G u → G' u) {t o : Ty} (h : S.Avoiding G' t o) :
    S.Avoiding G t o := by
  induction h with
  | refl t => exact .refl t
  | variant hnot hw _ ih => exact .variant (fun hl h => hnot hl (hG _ h)) hw ih
  | follow hd _ ih => exact .follow hd ih

/-- After its last pass through a union, a way to an alternative avoids
that union. -/
theorem Avoiding.cut {S : Scope} {G : Ty → Prop} {label : Label}
    {variants : List Ty} {t o : Ty} (h : S.Avoiding G t o) :
    S.Avoiding (fun u => u = .union label variants ∨ G u) t o
      ∨ ∃ w ∈ variants,
        S.Avoiding (fun u => u = .union label variants ∨ G u) w o := by
  induction h with
  | refl t => exact Or.inl (.refl t)
  | @variant w label' variants' o hG hw _ ih =>
      rcases ih with ih | ih
      · by_cases heq : Ty.union label' variants' = .union label variants
        · obtain ⟨rfl, rfl⟩ := Ty.union.inj heq
          exact Or.inr ⟨w, hw, ih⟩
        · refine Or.inl (.variant (fun hl => ?_) hw ih)
          rintro (h | h)
          · exact heq h
          · exact hG hl h
      · exact Or.inr ih
  | follow hd _ ih => exact ih.imp_left (.follow hd)

/-- A direct alternative of a type is one of what it resolves to. -/
theorem avoiding_resolve_iff {S : Scope} {G : Ty → Prop} {t o : Ty}
    (ho : o.isIndirect = false) :
    S.Avoiding G t o ↔ S.Avoiding G (S.resolve t) o := by
  rcases S.resolve_cases t with ht | ⟨form, name, id, d, rfl, hd, hr⟩
  · rw [ht]
  · rw [hr]
    constructor
    · intro h
      cases h with
      | refl => cases ho
      | follow hd' h =>
          obtain rfl := Option.some.inj (hd.symm.trans hd')
          exact h
    · exact .follow hd

theorem avoiding_union_iff {S : Scope} {G : Ty → Prop} {label : Label}
    {variants : List Ty} {o : Ty} (ho : o.isIndirect = false) :
    S.Avoiding G (.union label variants) o ↔
      (label.isRecursive = true → ¬G (.union label variants))
        ∧ ∃ w ∈ variants, S.Avoiding G w o := by
  constructor
  · intro h
    cases h with
    | refl => cases ho
    | variant hG hw h => exact ⟨hG, _, hw, h⟩
  · rintro ⟨hG, w, hw, h⟩
    exact .variant hG hw h

/-- Expanding a union that is not avoided yet, it can be avoided from
there on. -/
theorem avoiding_expand_iff {S : Scope} {G : Ty → Prop} {label : Label}
    {variants : List Ty} {o : Ty} (ho : o.isIndirect = false)
    (hG : ¬G (.union label variants)) :
    S.Avoiding G (.union label variants) o ↔
      ∃ w ∈ variants,
        S.Avoiding (fun u => u = .union label variants ∨ G u) w o := by
  rw [avoiding_union_iff ho]
  constructor
  · rintro ⟨-, w, hw, hwo⟩
    rcases hwo.cut with h | h
    · exact ⟨w, hw, h⟩
    · exact h
  · rintro ⟨w, hw, hwo⟩
    exact ⟨fun _ => hG, w, hw, hwo.mono fun u => Or.inr⟩

/-- A reference that is left by resolving cannot be followed. -/
theorem find?_of_resolve_eq_ref {S : Scope} {t : Ty} {form : Form}
    {name : String} {id : DefId} (h : S.resolve t = .ref form name id) :
    S.find? id = none := by
  rcases S.resolve_cases t with ht | ⟨_, _, _, d, rfl, hd, hr⟩
  · cases hd : S.find? id with
    | none => rfl
    | some d =>
        obtain rfl := ht.symm.trans h
        rw [resolve, hd, Option.getD_some] at h
        exact absurd (h ▸ hd) find?_ne_ref
  · obtain rfl := hr.symm.trans h
    exact absurd hd find?_ne_ref

/-- What is resolved and no union has no alternatives but itself. -/
theorem eq_of_avoiding_resolve {S : Scope} {G : Ty → Prop} {t o : Ty}
    (hunion : ∀ label variants, S.resolve t = .union label variants → False)
    (h : S.Avoiding G (S.resolve t) o) : S.resolve t = o := by
  generalize hr : S.resolve t = r at h
  cases h with
  | refl => rfl
  | variant => exact (hunion _ _ hr).elim
  | follow hd h =>
      rw [find?_of_resolve_eq_ref hr] at hd
      cases hd

theorem search_iff {S : Scope} {place : Place}
    {test : Expansions → Ty → Bool} {plainTest : Ty → Bool}
    (hdirect : ∀ o, plainTest o = true → o.isIndirect = false)
    {guard : Expansions} {t : Ty}
    (htest : ∀ g : Expansions, (∀ e ∈ g, e ∈ guard ∨ e.1 = place) →
      ∀ o, test g o = plainTest o) :
    S.search place test guard t = true ↔
      ∃ o, S.Avoiding (fun u => (place, u) ∈ guard) t o
        ∧ o.isIndirect = false ∧ (o = .any ∨ plainTest o = true) := by
  fun_induction search S place test guard t with
  | case1 guard t hr =>
      refine iff_of_true rfl ⟨.any, ?_, rfl, Or.inl rfl⟩
      rw [avoiding_resolve_iff rfl, hr]
      exact .refl _
  | case2 guard t label variants hr hl hg =>
      refine iff_of_false Bool.false_ne_true ?_
      rintro ⟨o, hto, ho, -⟩
      rw [avoiding_resolve_iff ho, hr, avoiding_union_iff ho] at hto
      exact hto.1 hl (Expansions.has_iff.mp hg)
  | case3 guard t label variants hr hl hg ih =>
      have hnot : (place, Ty.union label variants) ∉ guard :=
        fun h => hg (Expansions.has_iff.mpr h)
      have hkeep : ∀ g : Expansions,
          (∀ e ∈ g, e ∈ (place, Ty.union label variants) :: guard
            ∨ e.1 = place) → ∀ o, test g o = plainTest o := by
        intro g hgs
        refine htest g fun e he => ?_
        rcases hgs e he with h | h
        · rcases List.mem_cons.mp h with rfl | h
          · exact Or.inr rfl
          · exact Or.inl h
        · exact Or.inr h
      have hG : ∀ u, (place, u) ∈ (place, Ty.union label variants) :: guard ↔
          u = .union label variants ∨ (place, u) ∈ guard := by simp
      rw [List.any_eq_true]
      constructor
      · rintro ⟨w, -, hw⟩
        obtain ⟨o, hwo, ho, hacc⟩ := (ih w hkeep).mp hw
        refine ⟨o, ?_, ho, hacc⟩
        rw [avoiding_resolve_iff ho, hr, avoiding_expand_iff ho hnot]
        exact ⟨w.1, w.2, by simpa only [hG] using hwo⟩
      · rintro ⟨o, hto, ho, hacc⟩
        rw [avoiding_resolve_iff ho, hr, avoiding_expand_iff ho hnot] at hto
        obtain ⟨w, hw, hwo⟩ := hto
        refine ⟨⟨w, hw⟩, List.mem_attach .., (ih ⟨w, hw⟩ hkeep).mpr ?_⟩
        exact ⟨o, by simpa only [hG] using hwo, ho, hacc⟩
  | case4 guard t label variants hr hl ih =>
      rw [List.any_eq_true]
      constructor
      · rintro ⟨w, -, hw⟩
        obtain ⟨o, hwo, ho, hacc⟩ := (ih w htest).mp hw
        refine ⟨o, ?_, ho, hacc⟩
        rw [avoiding_resolve_iff ho, hr, avoiding_union_iff ho]
        exact ⟨fun h => absurd h hl, w.1, w.2, hwo⟩
      · rintro ⟨o, hto, ho, hacc⟩
        rw [avoiding_resolve_iff ho, hr, avoiding_union_iff ho] at hto
        obtain ⟨-, w, hw, hwo⟩ := hto
        refine ⟨⟨w, hw⟩, List.mem_attach .., (ih ⟨w, hw⟩ htest).mpr ?_⟩
        exact ⟨o, hwo, ho, hacc⟩
  | case5 guard t hany hunion =>
      rw [htest guard (fun e he => Or.inl he)]
      constructor
      · intro h
        have hr := hdirect _ h
        exact ⟨_, (avoiding_resolve_iff hr).mpr (.refl _), hr, Or.inr h⟩
      · rintro ⟨o, hto, ho, hacc⟩
        rw [avoiding_resolve_iff ho] at hto
        obtain rfl := eq_of_avoiding_resolve hunion hto
        rcases hacc with h | h
        · exact absurd h hany
        · exact h

theorem Avoiding.unfolds {S : Scope} {G : Ty → Prop} {t o : Ty}
    (h : S.Avoiding G t o) : S.Unfolds t o := by
  induction h with
  | refl t => exact .refl t
  | variant _ hw _ ih => exact .variant hw ih
  | follow hd _ ih => exact .follow hd ih

/-- A search that starts where nothing is being expanded finds every
alternative. -/
theorem search_eq_accepts {S : Scope} {place : Place}
    {test : Expansions → Ty → Bool} {plainTest : Ty → Bool}
    (hdirect : ∀ o, plainTest o = true → o.isIndirect = false)
    {guard : Expansions} (hguard : ∀ u, (place, u) ∉ guard) (t : Ty)
    (htest : ∀ g : Expansions, (∀ e ∈ g, e ∈ guard ∨ e.1 = place) →
      ∀ o, test g o = plainTest o) :
    S.search place test guard t = S.accepts t plainTest := by
  rw [Bool.eq_iff_iff, search_iff hdirect htest, accepts_iff hdirect]
  constructor
  · rintro ⟨o, hto, ho⟩
    exact ⟨o, hto.unfolds, ho⟩
  · rintro ⟨o, hto, ho⟩
    exact ⟨o, hto.avoiding hguard, ho⟩

end Scope

/-! ## All values -/

namespace Value

def scalarSearched (S : Scope) (guard : Expansions) (path : List Nat)
    (s : Scalar) (t : Ty) : Bool :=
  S.search (.inside path) (fun _ o =>
    match o with
    | .scalar type => s.hasType type
    | _ => false) guard t

mutual

/-- Whether the value, found at the end of the path, is an instance of
the type, by depth-first search. -/
def searched (S : Scope) (guard : Expansions) (path : List Nat) :
    Value → Ty → Bool
  | .null, t => S.search (.inside path) (fun _ o => o.isNull) guard t
  | .scalar s, t => scalarSearched S guard path s t
  | .array items, t => S.search (.inside path) (fun guard o =>
      match o with
      | .array element => allSearched S guard path 0 items element
      | _ => false) guard t
  | .packed p, t => S.search (.inside path) (fun guard o =>
      match o with
      | .array element =>
        -- the first number is taken out of the array, as an item of its own
        match p.numbers with
        | [] => true
        | n :: _ => scalarSearched S guard (0 :: path) (.number n) element
      | _ => false) guard t
  | .tuple items, t => S.search (.inside path) (fun guard o =>
      match o with
      | .tuple elements => itemsSearched S guard path 0 items elements
      | _ => false) guard t
  | .map entries, t => S.search (.inside path) (fun guard o =>
      match o with
      | .map key value => entriesSearched S guard path 0 entries key value
      | _ => false) guard t
  | .struct fields, t => S.search (.inside path) (fun guard o =>
      match o with
      | .struct _ declared => declared.all fun field =>
        fieldSearched S guard path 0 fields field.1 field.2
      | _ => false) guard t
termination_by structural v => v

def allSearched (S : Scope) (guard : Expansions) (path : List Nat) :
    Nat → List Value → Ty → Bool
  | _, [], _ => true
  | i, v :: vs, t =>
    searched S guard (i :: path) v t && allSearched S guard path (i + 1) vs t
termination_by structural _ vs => vs

def itemsSearched (S : Scope) (guard : Expansions) (path : List Nat) :
    Nat → List Value → List Ty → Bool
  | _, [], [] => true
  | i, v :: vs, t :: ts =>
    searched S guard (i :: path) v t &&
      itemsSearched S guard path (i + 1) vs ts
  | _, _, _ => false
termination_by structural _ vs => vs

def entriesSearched (S : Scope) (guard : Expansions) (path : List Nat) :
    Nat → List (Scalar × Value) → ScalarType → Ty → Bool
  | _, [], _, _ => true
  | i, (k, v) :: entries, key, value =>
    k.hasType key && searched S guard (i :: path) v value &&
      entriesSearched S guard path (i + 1) entries key value
termination_by structural _ entries => entries

/-- The field of that name, or else the shared null. -/
def fieldSearched (S : Scope) (guard : Expansions) (path : List Nat) :
    Nat → List (String × Value) → String → Ty → Bool
  | _, [], _, t => S.search .absent (fun _ o => o.isNull) guard t
  | i, (given, v) :: fields, name, t =>
    if given == name then searched S guard (i :: path) v t
    else fieldSearched S guard path (i + 1) fields name t
termination_by structural _ fields => fields

end

/-- Nothing is being expanded at the end of the path, below it, or for an
absent field. -/
def Outside (guard : Expansions) (path : List Nat) : Prop :=
  ∀ e ∈ guard, e.1 ≠ .absent ∧ ∀ q, e.1 ≠ .inside (q ++ path)

theorem Outside.not_mem {guard : Expansions} {path : List Nat}
    (h : Outside guard path) (u : Ty) : (Place.inside path, u) ∉ guard :=
  fun hu => (h _ hu).2 [] rfl

/-- Expansions for a value are outside of its parts. -/
theorem Outside.part {guard g : Expansions} {path : List Nat}
    (h : Outside guard path)
    (hg : ∀ e ∈ g, e ∈ guard ∨ e.1 = .inside path) (i : Nat) :
    Outside g (i :: path) := by
  intro e he
  rcases hg e he with he | he
  · refine ⟨(h e he).1, fun q => ?_⟩
    have hbelow := (h e he).2 (q ++ [i])
    rwa [List.append_assoc] at hbelow
  · -- the path of a part is longer
    rw [he]
    refine ⟨nofun, fun q heq => ?_⟩
    have hlen := congrArg List.length (Place.inside.inj heq)
    simp only [List.length_append, List.length_cons] at hlen
    omega

theorem scalarSearched_eq {S : Scope} {guard : Expansions} {path : List Nat}
    (h : Outside guard path) (s : Scalar) (t : Ty) :
    scalarSearched S guard path s t = S.acceptsScalar s t := by
  refine Scope.search_eq_accepts ?_ h.not_mem t fun _ _ _ => rfl
  intro o ho
  cases o <;> simp_all [Ty.isIndirect]

mutual

theorem searched_eq {S : Scope} : ∀ (v : Value) {guard : Expansions}
    {path : List Nat}, Outside guard path →
    ∀ t, searched S guard path v t = v.isInstance S t
  | .null, guard, path, h, t => by
      rw [searched, isInstance, Scope.acceptsNull]
      refine Scope.search_eq_accepts ?_ h.not_mem t fun _ _ _ => rfl
      intro o ho
      cases o <;> simp_all [Ty.isNull, Ty.isIndirect]
  | .scalar s, guard, path, h, t => by
      rw [searched, isInstance, scalarSearched_eq h]
  | .array items, guard, path, h, t => by
      rw [searched, isInstance]
      refine Scope.search_eq_accepts ?_ h.not_mem t ?_
      · intro o ho
        cases o <;> simp_all [Ty.isIndirect]
      · intro g hg o
        cases o <;> simp [allSearched_eq items h hg]
  | .packed p, guard, path, h, t => by
      rw [searched, isInstance]
      refine Scope.search_eq_accepts ?_ h.not_mem t ?_
      · intro o ho
        cases o <;> simp_all [Ty.isIndirect]
      · intro g hg o
        cases o with
        | array element =>
            cases hn : p.numbers with
            | nil => simp [Scope.acceptsFirst]
            | cons n ns =>
                simp [Scope.acceptsFirst, scalarSearched_eq (h.part hg 0)]
        | _ => rfl
  | .tuple items, guard, path, h, t => by
      rw [searched, isInstance]
      refine Scope.search_eq_accepts ?_ h.not_mem t ?_
      · intro o ho
        cases o <;> simp_all [Ty.isIndirect]
      · intro g hg o
        cases o <;> simp [itemsSearched_eq items h hg]
  | .map entries, guard, path, h, t => by
      rw [searched, isInstance]
      refine Scope.search_eq_accepts ?_ h.not_mem t ?_
      · intro o ho
        cases o <;> simp_all [Ty.isIndirect]
      · intro g hg o
        cases o <;> simp [entriesSearched_eq entries h hg]
  | .struct fields, guard, path, h, t => by
      rw [searched, isInstance]
      refine Scope.search_eq_accepts ?_ h.not_mem t ?_
      · intro o ho
        cases o <;> simp_all [Ty.isIndirect]
      · intro g hg o
        cases o <;> simp [fieldSearched_eq fields h hg]

theorem allSearched_eq {S : Scope} : ∀ (vs : List Value)
    {guard g : Expansions} {path : List Nat}, Outside guard path →
    (∀ e ∈ g, e ∈ guard ∨ e.1 = .inside path) →
    ∀ (i : Nat) (t : Ty), allSearched S g path i vs t = allInstances S vs t
  | [], _, _, _, _, _, i, t => by rw [allSearched, allInstances]
  | v :: vs, _, _, _, h, hg, i, t => by
      rw [allSearched, allInstances, searched_eq v (h.part hg i),
        allSearched_eq vs h hg]

theorem itemsSearched_eq {S : Scope} : ∀ (vs : List Value)
    {guard g : Expansions} {path : List Nat}, Outside guard path →
    (∀ e ∈ g, e ∈ guard ∨ e.1 = .inside path) →
    ∀ (i : Nat) (ts : List Ty),
      itemsSearched S g path i vs ts = itemsAreInstances S vs ts
  | [], _, _, _, _, _, i, [] => by rw [itemsSearched, itemsAreInstances]
  | [], _, _, _, _, _, i, _ :: _ => by simp [itemsSearched, itemsAreInstances]
  | _ :: _, _, _, _, _, _, i, [] => by simp [itemsSearched, itemsAreInstances]
  | v :: vs, _, _, _, h, hg, i, t :: ts => by
      rw [itemsSearched, itemsAreInstances, searched_eq v (h.part hg i),
        itemsSearched_eq vs h hg]

theorem entriesSearched_eq {S : Scope} : ∀ (entries : List (Scalar × Value))
    {guard g : Expansions} {path : List Nat}, Outside guard path →
    (∀ e ∈ g, e ∈ guard ∨ e.1 = .inside path) →
    ∀ (i : Nat) (key : ScalarType) (value : Ty),
      entriesSearched S g path i entries key value
        = entriesAreInstances S entries key value
  | [], _, _, _, _, _, i, _, _ => by rw [entriesSearched, entriesAreInstances]
  | (k, v) :: entries, _, _, _, h, hg, i, key, value => by
      rw [entriesSearched, entriesAreInstances, searched_eq v (h.part hg i),
        entriesSearched_eq entries h hg]

theorem fieldSearched_eq {S : Scope} : ∀ (fields : List (String × Value))
    {guard g : Expansions} {path : List Nat}, Outside guard path →
    (∀ e ∈ g, e ∈ guard ∨ e.1 = .inside path) →
    ∀ (i : Nat) (name : String) (t : Ty),
      fieldSearched S g path i fields name t = fieldIsInstance S fields name t
  | [], guard, g, path, h, hg, i, name, t => by
      rw [fieldSearched, fieldIsInstance, Scope.acceptsNull]
      refine Scope.search_eq_accepts ?_ ?_ t fun _ _ _ => rfl
      · intro o ho
        cases o <;> simp_all [Ty.isNull, Ty.isIndirect]
      · intro u hu
        rcases hg _ hu with hu | hu
        · exact (h _ hu).1 rfl
        · cases hu
  | (given, v) :: fields, guard, g, path, h, hg, i, name, t => by
      rw [fieldSearched, fieldIsInstance, searched_eq v (h.part hg i),
        fieldSearched_eq fields h hg]

end

/-- The value is an instance exactly if there is a derivation; and the
depth-first search, which gives up on an expansion that comes back for
the same value, has the same answer. -/
theorem isInstance_iff_member (S : Scope) (v : Value) (t : Ty) :
    (v.isInstance S t = true ↔ v.Member S t)
      ∧ v.searched S [] [] t = v.isInstance S t :=
  ⟨isInstance_iff v t, searched_eq v (fun _ he => (List.not_mem_nil he).elim) t⟩

end Value

end Schemata
