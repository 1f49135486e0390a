import Mathlib
import Schemata.Proofs.Moments

/-!
# Comparing constructible types

`==` is an equivalence on the types that can be constructed, whatever has
become of the definitions that they refer to
(`Ty.Constructible.beq_equivalence`).

A comparison does not look into two structs or unions that are the same
object. Types do not say whether they are: of two equal fields of a struct
one may be shared with the struct it is compared with, and the other may be
a copy. `Ty.Compares` leaves it open at every pair that is compared, so it
relates two types to every answer that a comparison of them may come to. It
is only one (`compares_iff`), because objects that are the same are equal
when they are looked into.
-/

namespace Schemata

namespace Ty

/-! ## One step of the comparison -/

/-- Whether two nodes have the same structure, where `answer i j` says
whether component `i` of the first is equal to component `j` of the
second. -/
def sameStructure (answer : Nat → Nat → Bool) : Ty → Ty → Bool
  | .any, .any => true
  | .null, .null => true
  | .scalar s, .scalar t => s == t
  | .array _, .array _ => answer 0 0
  | .tuple ss, .tuple ts =>
    ss.length == ts.length && (List.range ss.length).all fun i => answer i i
  | .map _ _, .map _ _ => answer 0 0 && answer 1 1
  | .struct _ fs, .struct _ gs =>
    fs.length == gs.length && fs.zipIdx.all fun f =>
      gs.zipIdx.any fun g => g.1.1 == f.1.1 && answer f.2 g.2
  | .union _ vs, .union _ ws =>
    vs.length == ws.length && vs.zipIdx.all fun v =>
      ws.zipIdx.any fun w => answer v.2 w.2
  | _, _ => false

/-- Two nodes are compared by form and name, or by structure if neither
has them. -/
def compareNodes (answer : Nat → Nat → Bool) (a b : Ty) : Bool :=
  match a.nominal?, b.nominal? with
  | some k, some l => k == l
  | none, none => sameStructure answer a b
  | _, _ => false

/-- The answers for the components of two nodes are those of `==`. -/
def Answers (answer : Nat → Nat → Bool) (cs ds : List Ty) : Prop :=
  ∀ i j c d, cs[i]? = some c → ds[j]? = some d → answer i j = (c == d)

variable {answer : Nat → Nat → Bool}

theorem Answers.forall₂_iff {ss ts : List Ty} (h : Answers answer ss ts) :
    (ss.length == ts.length && (List.range ss.length).all fun i => answer i i)
        = true
      ↔ List.Forall₂ (fun s t => (s == t) = true) ss ts := by
  have hget : ∀ i (hs : i < ss.length) (ht : i < ts.length),
      answer i i = (ss.get ⟨i, hs⟩ == ts.get ⟨i, ht⟩) := fun i hs ht =>
    h i i _ _ (List.getElem?_eq_getElem hs) (List.getElem?_eq_getElem ht)
  rw [List.forall₂_iff_get, Bool.and_eq_true, beq_iff_eq, List.all_eq_true]
  refine and_congr_right fun hlen => ⟨fun hall i hs ht => ?_, fun hall i hi => ?_⟩
  · rw [← hget i hs ht]
    exact hall i (List.mem_range.mpr hs)
  · have hs := List.mem_range.mp hi
    have ht : i < ts.length := hlen ▸ hs
    rw [hget i hs ht]
    exact hall i hs ht

/-- Members that are found by their places are found. -/
theorem all_any_zipIdx_iff {α : Type} {xs ys : List α}
    {found : α × Nat → α × Nat → Bool} {R : α → α → Prop}
    (h : ∀ i j x y, xs[i]? = some x → ys[j]? = some y →
      (found (x, i) (y, j) = true ↔ R x y)) :
    (xs.zipIdx.all fun p => ys.zipIdx.any fun q => found p q) = true
      ↔ ∀ x ∈ xs, ∃ y ∈ ys, R x y := by
  simp only [List.all_eq_true, List.any_eq_true]
  constructor
  · intro hall x hx
    obtain ⟨i, hi⟩ := List.mem_iff_getElem?.mp hx
    obtain ⟨⟨y, j⟩, hy, hfound⟩ :=
      hall (x, i) (List.mem_zipIdx_iff_getElem?.mpr hi)
    have hj := List.mem_zipIdx_iff_getElem?.mp hy
    exact ⟨y, List.mem_of_getElem? hj, (h i j x y hi hj).mp hfound⟩
  · rintro hall ⟨x, i⟩ hx
    have hi := List.mem_zipIdx_iff_getElem?.mp hx
    obtain ⟨y, hy, hR⟩ := hall x (List.mem_of_getElem? hi)
    obtain ⟨j, hj⟩ := List.mem_iff_getElem?.mp hy
    refine ⟨(y, j), List.mem_zipIdx_iff_getElem?.mpr hj, ?_⟩
    exact (h i j x y hi hj).mpr hR

theorem Answers.sameFields_iff {fs gs : List (String × Ty)}
    (h : Answers answer (fs.map Prod.snd) (gs.map Prod.snd)) :
    (fs.length == gs.length && fs.zipIdx.all fun f =>
        gs.zipIdx.any fun g => g.1.1 == f.1.1 && answer f.2 g.2) = true
      ↔ SameFields fs gs := by
  rw [Bool.and_eq_true, beq_iff_eq]
  refine and_congr_right fun _ => all_any_zipIdx_iff fun i j f g hf hg => ?_
  have hanswer := h i j f.2 g.2 (by simp [hf]) (by simp [hg])
  rw [Bool.and_eq_true, beq_iff_eq, hanswer]

theorem Answers.sameVariants_iff {vs ws : List Ty}
    (h : Answers answer vs ws) :
    (vs.length == ws.length && vs.zipIdx.all fun v =>
        ws.zipIdx.any fun w => answer v.2 w.2) = true
      ↔ SameVariants vs ws := by
  rw [Bool.and_eq_true, beq_iff_eq]
  refine and_congr_right fun _ => all_any_zipIdx_iff fun i j v w hv hw => ?_
  rw [h i j v w hv hw]

theorem sameStructure_iff {a b : Ty} (ha : a.nominal? = none)
    (hb : b.nominal? = none) (h : Answers answer a.components b.components) :
    sameStructure answer a b = true ↔ (a == b) = true := by
  cases a with
  | any => cases b <;> simp [sameStructure, any_beq_iff]
  | null => cases b <;> simp [sameStructure, null_beq_iff]
  | scalar s =>
      rw [scalar_beq_iff]
      cases b with
      | scalar t =>
          rw [sameStructure, beq_iff_eq, scalar.injEq]
          exact eq_comm
      | _ => simp [sameStructure]
  | array s =>
      rw [array_beq_iff]
      cases b with
      | array t => simp [sameStructure, h 0 0 s t rfl rfl]
      | _ => simp [sameStructure]
  | tuple ss =>
      rw [tuple_beq_iff]
      cases b with
      | tuple ts =>
          have hitems : Answers answer ss ts := h
          simpa [sameStructure] using hitems.forall₂_iff
      | _ => simp [sameStructure]
  | map k s =>
      rw [map_beq_iff]
      cases b with
      | map l t =>
          rw [sameStructure, h 0 0 (.scalar k) (.scalar l) rfl rfl,
            h 1 1 s t rfl rfl]
          simp [scalar_beq_iff]
      | _ => simp [sameStructure]
  | struct label fs =>
      cases label with
      | recursive name id => cases ha
      | plain name =>
          rw [struct_beq_iff]
          cases b with
          | struct label gs =>
              cases label with
              | recursive name id => cases hb
              | plain name => simpa [sameStructure] using h.sameFields_iff
          | _ => simp [sameStructure]
  | union label vs =>
      cases label with
      | recursive name id => cases ha
      | plain name =>
          rw [union_beq_iff]
          cases b with
          | union label ws =>
              cases label with
              | recursive name id => cases hb
              | plain name =>
                  have hvariants : Answers answer vs ws := h
                  simpa [sameStructure] using hvariants.sameVariants_iff
          | _ => simp [sameStructure]
  | ref form name target => cases ha

/-- Two nodes are compared as the types are, if their components are. -/
theorem compareNodes_eq {a b : Ty}
    (h : Answers answer a.components b.components) :
    compareNodes answer a b = (a == b) := by
  rw [Bool.eq_iff_iff]
  unfold compareNodes
  cases ha : a.nominal? with
  | some k =>
      rw [nominal_beq_iff ha]
      cases b.nominal? with
      | some l =>
          rw [Option.some.injEq, beq_iff_eq]
          exact eq_comm
      | none => simp
  | none =>
      cases hb : b.nominal? with
      | some l =>
          have hne : ¬(a == b) = true := by
            intro hab
            have heq := nominal?_eq_of_beq hab
            rw [ha, hb] at heq
            cases heq
          simp [hne]
      | none => exact sameStructure_iff ha hb h

/-! ## Shared objects -/

/-- The answers that the comparison of two types may come to. Types that
are one object may be taken to be equal at once. -/
inductive Compares : Ty → Ty → Bool → Prop where
  | shared (a : Ty) : Compares a a true
  | nodes {a b : Ty} (answer : Nat → Nat → Bool)
      (h : ∀ i j c d, a.components[i]? = some c → b.components[j]? = some d →
        Compares c d (answer i j)) : Compares a b (compareNodes answer a b)

theorem compares_beq (a b : Ty) : Compares a b (a == b) := by
  induction a using component_induction generalizing b with
  | step a ih =>
      -- the answers when nothing is shared
      let answer (i j : Nat) : Bool :=
        (a.components[i]?.bind fun c => b.components[j]?.map (c == ·)).getD false
      have hanswer : Answers answer a.components b.components := by
        intro i j c d hc hd
        simp [answer, hc, hd]
      rw [← compareNodes_eq hanswer]
      refine .nodes answer fun i j c d hc hd => ?_
      rw [hanswer i j c d hc hd]
      exact ih c (List.mem_of_getElem? hc) d

/-- Sharing makes no difference to the answer. -/
theorem compares_iff {a b : Ty} {r : Bool} :
    Compares a b r ↔ r = (a == b) := by
  constructor
  · intro h
    induction h with
    | shared a => exact (beq_self a).symm
    | nodes answer _ ih => exact compareNodes_eq ih
  · rintro rfl
    exact compares_beq a b

/-! ## Equivalence -/

/-- Equality is an equivalence on everything that can be constructed, and
the only answer of a comparison, whichever objects are shared. -/
theorem Constructible.beq_equivalence :
    Equivalence (fun a b : { t : Ty // t.Constructible } =>
      (a.val == b.val) = true)
    ∧ ∀ a b r, Compares a b r ↔ r = (a == b) := by
  refine ⟨⟨fun a => beq_self a.val, fun {a b} hab => ?_, fun hab hbc => ?_⟩, ?_⟩
  · exact beq_symm a.property.wellFormed hab
  · exact beq_trans hab hbc
  · exact fun a b r => compares_iff

/-- Two lists that were built apart, with their members in another order,
and a reference to one of them of which nothing else is left. -/
theorem Constructible.beq_of_dangling :
    let r (id : DefId) : Ty := .ref .struct "L" id
    let l : Ty := .struct (.recursive "L" 1)
      [("item", .scalar .int), ("next", .union (.plain none) [r 1, .null])]
    let m : Ty := .struct (.recursive "L" 2)
      [("next", .union (.plain none) [.null, r 2]), ("item", .scalar .int)]
    (Moment [r 1] [] ∧ (Scope.ofHeld [r 1]).resolve (r 1) = r 1)
    ∧ (l == r 1) = true ∧ (r 1 == m) = true
    ∧ (l == m) = true ∧ (m == l) = true := by
  intro r l m
  have heval : TypeExpr.evalList Session.empty.context
      [.defineStruct (some "L") []
          [("item", .scalar .int), ("next", .nullable (.self 0))],
        .defineStruct (some "L") []
          [("next", .union none [.null, .self 0]), ("item", .scalar .int)]]
      = .ok [l, m] := by cbv
  have hmoment := Moment.evaluated (.session .empty) heval
  have hl : l.Constructible := ⟨_, _, hmoment, mem_partsOfList_self (by simp)⟩
  have hm : m.Constructible := ⟨_, _, hmoment, mem_partsOfList_self (by simp)⟩
  have hpart : r 1 ∈ l.parts := by
    simp [l, r, parts, partsOfFields, partsOfList]
  have hkept : Moment [r 1] [] := by
    refine hmoment.giveUp fun t ht => ?_
    rw [List.mem_singleton.mp ht]
    exact mem_partsOfList.mpr ⟨l, by simp, hpart⟩
  have hr : (r 1).Constructible :=
    ⟨_, _, hkept, mem_partsOfList_self (by simp)⟩
  obtain ⟨-, hsymm, htrans⟩ := Constructible.beq_equivalence.1
  have hlr : (l == r 1) = true := by cbv
  have hrm : (r 1 == m) = true := by cbv
  have hlm : (l == m) = true :=
    htrans (x := ⟨l, hl⟩) (y := ⟨r 1, hr⟩) (z := ⟨m, hm⟩) hlr hrm
  refine ⟨⟨hkept, by cbv⟩, hlr, hrm, hlm, ?_⟩
  exact hsymm (x := ⟨l, hl⟩) (y := ⟨m, hm⟩) hlm

end Ty

end Schemata
