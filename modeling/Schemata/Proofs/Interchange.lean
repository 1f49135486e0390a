import Mathlib
import Schemata.Proofs.Moments
import Schemata.Proofs.SearchBound
import Schemata.Proofs.Soundness

/-!
# Equal types are interchangeable

Subtyping and membership have the same answers for types that are equal
(`Moment.interchangeable`): the order of fields and variants does not
matter, nor do the names of plain types, which of several definitions of
one name is used, or whether a definition or a reference to it is given.

For subtyping two searches are related. They look at different nodes, in
different orders, and remember different pairs. But what one of them looks
at or remembers is equal to what the other does (`Alike`, `Pending.Alike`),
and that is all that a step of the search depends on: whether a pair is in
progress is decided by equality, and types that are equal have equal
members when they are followed, definitions by coherence and everything
else by structure. So a rule that applies to the one pair of types applies
to the other (`Rule.alike`), and the two searches need the same number of
steps (`subtypeWithin_alike`).
-/

namespace Schemata

section

variable {S : Scope} {here : Ty → Prop}

/-! ## Equal pairs -/

namespace Alike

variable {a a' b b' : Ty}

theorem beq_congr (hS : S.Linked here) (ha : Alike here a a')
    (hb : Alike here b b') (h : (a == b) = true) : (a' == b') = true :=
  Ty.beq_trans (ha.symm hS).beq (Ty.beq_trans h hb.beq)

theorem resolve (hS : S.Linked here) (h : Alike here a b) :
    Alike here (S.resolve a) (S.resolve b) where
  left := (hS.resolve h.left).1
  right := (hS.resolve h.right).1
  beq := (hS.beq_resolve_left h.left).mpr
    ((hS.beq_resolve_right h.right).mpr h.beq)

end Alike

/-! ## Comparisons in progress -/

/-- Pairs that are alike, one by one. -/
def PairsAlike (here : Ty → Prop) : List (Ty × Ty) → List (Ty × Ty) → Prop :=
  List.Forall₂ fun p q => Alike here p.1 q.1 ∧ Alike here p.2 q.2

theorem PairsAlike.symm (hS : S.Linked here) {ps qs : List (Ty × Ty)}
    (h : PairsAlike here ps qs) : PairsAlike here qs ps :=
  h.flip.imp fun _ _ hpq => ⟨hpq.1.symm hS, hpq.2.symm hS⟩

theorem PairsAlike.contains (hS : S.Linked here) {ps qs : List (Ty × Ty)}
    {a a' b b' : Ty} (h : PairsAlike here ps qs) (ha : Alike here a a')
    (hb : Alike here b b') (hmem : ps.contains (a, b) = true) :
    qs.contains (a', b') = true := by
  obtain ⟨p, hp, hap, hbp⟩ := Pending.contains_iff.mp hmem
  obtain ⟨q, hq, hpq⟩ := Ty.exists_mem_of_forall₂ h.flip hp
  refine Pending.contains_iff.mpr ⟨q, hq, ?_, ?_⟩
  · exact ha.beq_congr hS hpq.1 hap
  · exact hb.beq_congr hS hpq.2 hbp

namespace Pending

/-- The same comparisons are in progress, up to equality. -/
structure Alike (here : Ty → Prop) (P Q : Pending) : Prop where
  unions : PairsAlike here P.unions Q.unions
  structs : PairsAlike here P.structs Q.structs

theorem Alike.empty : Pending.empty.Alike here .empty := ⟨.nil, .nil⟩

theorem Alike.expands (hS : S.Linked here) {P Q P' : Pending}
    (h : P.Alike here Q) {recursive : Bool} {a a' b b' : Ty}
    (ha : Schemata.Alike here a a') (hb : Schemata.Alike here b b')
    (hP : P.Expands recursive a b P') :
    ∃ Q', Q.Expands recursive a' b' Q' ∧ P'.Alike here Q' := by
  rcases hP with ⟨hplain, rfl⟩ | ⟨hrecursive, hnew, rfl⟩
  · exact ⟨Q, Or.inl ⟨hplain, rfl⟩, h⟩
  · -- a pair in progress there would be in progress here too
    have hnew' : Q.unions.contains (a', b') = false := by
      by_contra hmem
      have hback := (h.unions.symm hS).contains hS (ha.symm hS) (hb.symm hS)
        (by simpa using hmem)
      rw [hnew] at hback
      cases hback
    refine ⟨Q.withUnion a' b', Or.inr ⟨hrecursive, hnew', rfl⟩, ?_⟩
    exact ⟨.cons ⟨ha, hb⟩ h.unions, h.structs⟩

theorem Alike.assumes {P Q P' : Pending} (h : P.Alike here Q)
    {recursive : Bool} {a a' b b' : Ty} (ha : Schemata.Alike here a a')
    (hb : Schemata.Alike here b b') (hP : P.Assumes recursive a b P') :
    ∃ Q', Q.Assumes recursive a' b' Q' ∧ P'.Alike here Q' := by
  rcases hP with ⟨hplain, rfl⟩ | ⟨hrecursive, rfl⟩
  · exact ⟨Q, Or.inl ⟨hplain, rfl⟩, h⟩
  · refine ⟨Q.withStruct a' b', Or.inr ⟨hrecursive, rfl⟩, ?_⟩
    exact ⟨h.unions, .cons ⟨ha, hb⟩ h.structs⟩

end Pending

/-! ## The search -/

namespace Scope

/-- A rule that applies to two types applies to types that are alike, if
the comparisons it asks for carry over. -/
theorem Rule.alike (hS : S.Linked here) (hagree : Agree here)
    {sub sub' : Pending → Ty → Ty → Prop}
    (hsub : ∀ P Q x x' y y', P.Alike here Q → Alike here x x' →
      Alike here y y' → sub P x y → sub' Q x' y')
    {P Q : Pending} {a a' b b' : Ty} (hPQ : P.Alike here Q)
    (ha : Alike here a a') (hb : Alike here b b') (ha' : a'.target? = none)
    (hb' : b'.target? = none) (h : Rule sub P a b) : Rule sub' Q a' b' := by
  cases h with
  | toUnion hP hv h =>
      obtain ⟨lb, ws, rfl, hlabel, hto, -⟩ := hb.union_left hS hagree hb'
      obtain ⟨Q', hQ, hPQ'⟩ := hPQ.expands hS ha hb hP
      obtain ⟨w, hw, hvw⟩ := hto _ hv
      rw [hlabel] at hQ
      exact .toUnion hQ hw (hsub _ _ _ _ _ _ hPQ' ha hvw h)
  | ofUnion hP h =>
      obtain ⟨la, ws, rfl, hlabel, -, hof⟩ := ha.union_left hS hagree ha'
      obtain ⟨Q', hQ, hPQ'⟩ := hPQ.expands hS ha hb hP
      rw [hlabel] at hQ
      -- every variant of the other union comes from one of this
      refine .ofUnion hQ fun w hw => ?_
      obtain ⟨v, hv, hvw⟩ := hof w hw
      exact hsub _ _ _ _ _ _ hPQ' hvw hb (h v hv)
  | assumed hrecursive hmem =>
      have hmem' := hPQ.structs.contains hS ha hb hmem
      obtain ⟨la, fs, rfl, hla, -, -⟩ := ha.struct_left hS hagree ha'
      obtain ⟨lb, gs, rfl, hlb, -, -⟩ := hb.struct_left hS hagree hb'
      rw [hla, hlb] at hrecursive
      exact .assumed hrecursive hmem'
  | fields hP h =>
      obtain ⟨Q', hQ, hPQ'⟩ := hPQ.assumes ha hb hP
      obtain ⟨la, fs, rfl, hla, hto, -⟩ := ha.struct_left hS hagree ha'
      obtain ⟨lb, gs, rfl, hlb, -, hof⟩ := hb.struct_left hS hagree hb'
      rw [hla, hlb] at hQ
      -- a field that is required there is required here, and what is
      -- declared for it here is declared there under the same name
      refine .fields hQ fun g' hg' => ?_
      obtain ⟨g, hg, hname, hgg'⟩ := hof g' hg'
      obtain ⟨t, ht, hsub'⟩ := h g hg
      obtain ⟨f', hf', hname', htf'⟩ := hto _ (mem_of_lookup ht)
      refine ⟨f'.2, ?_, hsub _ _ _ _ _ _ hPQ' htf' hgg' hsub'⟩
      have hlookup := lookup_of_mem (hS.regular ha.right) hf'
      rwa [hname', hname] at hlookup

theorem subtypeWithin_alike (hS : S.Linked here) (hagree : Agree here)
    (n : Nat) {P Q : Pending} {a a' b b' : Ty} (hPQ : P.Alike here Q)
    (ha : Alike here a a') (hb : Alike here b b')
    (h : S.subtypeWithin n P a b = true) :
    S.subtypeWithin n Q a' b' = true := by
  induction n generalizing P Q a a' b b' with
  | zero => cases h
  | succ n ih =>
      rcases subtypeWithin_succ.mp h with heq | rfl | hrule
      · exact subtypeWithin_succ.mpr (Or.inl (ha.beq_congr hS hb heq))
      · exact subtypeWithin_succ.mpr
          (Or.inr (Or.inl (Ty.any_beq_iff.mp hb.beq)))
      · refine subtypeWithin_succ.mpr (Or.inr (Or.inr ?_))
        refine hrule.alike hS hagree ?_ hPQ (ha.resolve hS) (hb.resolve hS)
          (hS.resolve ha.right).2.2 (hS.resolve hb.right).2.2
        exact fun _ _ _ _ _ _ hPQ hx hy h => ih hPQ hx hy h

/-- The bound on the steps depends on the types; that it is enough for both
pairs makes the answers the same. -/
theorem isSubtype_alike (hS : S.Linked here) (hagree : Agree here)
    {a a' b b' : Ty} (ha : Alike here a a') (hb : Alike here b b') :
    S.isSubtype a b = S.isSubtype a' b' := by
  rw [Bool.eq_iff_iff, isSubtype_iff, isSubtype_iff]
  refine exists_congr fun n => ⟨fun h => ?_, fun h => ?_⟩
  · exact subtypeWithin_alike hS hagree n .empty ha hb h
  · exact subtypeWithin_alike hS hagree n .empty (ha.symm hS) (hb.symm hS) h

end Scope

theorem Value.isInstance_alike (hS : S.Linked here) (hagree : Agree here)
    {a a' : Ty} (ha : Alike here a a') (v : Value) :
    v.isInstance S a = v.isInstance S a' := by
  rw [Bool.eq_iff_iff, Value.isInstance_iff, Value.isInstance_iff]
  constructor
  · exact Value.Member.of_beq hS hagree ha.left ha.right ha.beq
  · have ha' := ha.symm hS
    exact Value.Member.of_beq hS hagree ha'.left ha'.right ha'.beq

end

/-- At any moment, for all types that are held or parts of what is held, if
what they lead to is closed and coherent then equal ones have the same
subtypes and the same instances. -/
theorem Moment.interchangeable {held : List Ty} {handles : List Handle}
    (hmoment : Moment held handles) {a a' b b' : Ty}
    (hheld : ∀ t ∈ [a, a', b, b'], t ∈ Ty.partsOfList held)
    (hclosed : (Scope.ofHeld held).Closed [a, a', b, b'])
    (hcoherent : (Scope.ofHeld held).Coherent [a, a', b, b'])
    (ha : (a == a') = true) (hb : (b == b') = true) :
    (Scope.ofHeld held).isSubtype a b = (Scope.ofHeld held).isSubtype a' b'
    ∧ ∀ v : Value, v.isInstance (Scope.ofHeld held) a
        = v.isInstance (Scope.ofHeld held) a' := by
  have hlinked := hclosed.linked hmoment.consistent hheld
  have hreaches : ∀ t ∈ [a, a', b, b'],
      (Scope.ofHeld held).Reaches [a, a', b, b'] t := fun t ht => .start ht
  have haa : Alike _ a a' :=
    ⟨hreaches a (by simp), hreaches a' (by simp), ha⟩
  have hbb : Alike _ b b' :=
    ⟨hreaches b (by simp), hreaches b' (by simp), hb⟩
  exact ⟨Scope.isSubtype_alike hlinked hcoherent haa hbb,
    Value.isInstance_alike hlinked hcoherent haa⟩

/-- A list is compared with a union that holds a list of the same name that
was built apart. A reference to that other list is compared with a union of
another name and order, which holds the first list. -/
theorem isSubtype_of_exchanged_lists :
    let l : Ty := .struct (.recursive "L" 1)
      [("item", .scalar .int),
        ("next", .union (.plain none) [.ref .struct "L" 1, .null])]
    let m : Ty := .struct (.recursive "L" 2)
      [("next", .union (.plain none) [.null, .ref .struct "L" 2]),
        ("item", .scalar .int)]
    let r : Ty := .ref .struct "L" 2
    let b : Ty := .union (.plain none) [m, .scalar .string]
    let c : Ty := .union (.plain (some "C")) [.scalar .string, l]
    let S : Scope := ⟨[l, m]⟩
    let v : Value := .struct [("item", .number (.int 1)),
      ("next", .struct [("item", .number (.int 2))])]
    (S.isSubtype l b = true ∧ S.isSubtype r c = true)
    ∧ v.isInstance S l = true ∧ v.isInstance S r = true := by
  intro l m r b c S v
  have hs : Session.Reachable { Session.empty with types := [("l", l)] } :=
    .perform .empty (a := .storeType "l" (.defineStruct (some "L") []
      [("item", .scalar .int), ("next", .nullable (.self 0))])) (by cbv)
  have heval : TypeExpr.evalList
      (Session.context { Session.empty with types := [("l", l)] })
      [.union none [.defineStruct (some "L") []
          [("next", .union none [.null, .self 0]), ("item", .scalar .int)],
          .scalar .string],
        .union (some "C") [.scalar .string, .var "l"]]
      = .ok [b, c] := by cbv
  have hmoment : Moment [l, b, c] [] := .evaluated (.session hs) heval
  have hscope : Scope.ofHeld [l, b, c] = S := by cbv
  have hheld : ∀ t ∈ [l, r, b, c], t ∈ Ty.partsOfList [l, b, c] := by
    simp [l, m, r, b, c, Ty.partsOfList, Ty.parts, Ty.partsOfFields]
  have hclosed : S.Closed [l, r, b, c] := Scope.closed_of_parts (by decide)
  have hcoherent : S.Coherent [l, r, b, c] :=
    Scope.coherent_of_parts (by decide)
  rw [← hscope] at hclosed hcoherent
  obtain ⟨hsub, hinstance⟩ := hmoment.interchangeable hheld hclosed hcoherent
    (by decide) (by decide)
  rw [hscope] at hsub hinstance
  have hlb : S.isSubtype l b = true := by decide +kernel
  have hl : v.isInstance S l = true := by decide
  exact ⟨⟨hlb, hsub ▸ hlb⟩, hl, hinstance v ▸ hl⟩

end Schemata
