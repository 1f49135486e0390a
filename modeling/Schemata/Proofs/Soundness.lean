import Mathlib
import Schemata.Proofs.Membership
import Schemata.Proofs.Reachability
import Schemata.Proofs.Subtyping

/-!
# A subtype has no other members

If `a` is a subtype of `b` then every instance of `a` is one of `b`,
in every session and for all types that it can build
(`Session.Reachable.isInstance_of_isSubtype`).

Two things stand in the way of an induction over the search.

Equal types are taken to be subtypes of each other, and recursive ones
are equal by name. That this does no harm is an induction over the
derivation of membership (`Member.of_beq`): a reference is followed, and
then two definitions of one form and name have the same members by
coherence. What this says about the members one by one is stated for both
directions (`Alike.struct_left`, `Alike.union_left`).

A pair of structs may be assumed inside of its own comparison. The
assumption is right because it is only used for the values of fields,
which are smaller than the struct. So the members are counted by size
(`Scope.Sub`): if the assumed pairs are sound for values below a size
then so is each rule (`sub_of_rule`) and with it a comparison that
succeeds (`sub_of_subtypeWithin`), and the soundness of the assumption
that a comparison adds for itself is the same statement for smaller
values. No use is made of the bound on the number of steps or of the
expansions that are refused; they only make the search fail.
-/

namespace Schemata

open Value (Member)

section

variable {S : Scope} {here : Ty → Prop}

/-! ## Following references -/

theorem Scope.Linked.member_resolve (hS : S.Linked here) {t : Ty}
    (ht : here t) {v : Value} :
    Member S v (S.resolve t) ↔ Member S v t := by
  unfold Scope.resolve
  split
  · next form name id =>
      obtain ⟨d, hd, -, -⟩ := hS.follow ht
      rw [hd]
      constructor
      · exact fun h => .ref hd h
      · intro h
        cases h with
        | ref hd' h =>
            obtain rfl := Option.some.inj (hd.symm.trans hd')
            exact h
  · exact Iff.rfl

/-! ## Equal types have the same members -/

/-- Definitions of the same form and name have the same members. -/
def Agree (here : Ty → Prop) : Prop :=
  ∀ p q, here p → here q → p.defId?.isSome → q.defId?.isSome →
    p.nominal? = q.nominal? → p.SameMembers q

theorem Ty.SameMembers.struct_left {label : Label}
    {fs : List (String × Ty)} {q : Ty}
    (h : (Ty.struct label fs).SameMembers q) :
    ∃ label' gs, q = .struct label' gs ∧ Ty.SameFields fs gs := by
  cases q with
  | struct label' gs => exact ⟨label', gs, rfl, h⟩
  | _ => cases h

theorem Ty.SameMembers.union_left {label : Label} {vs : List Ty} {q : Ty}
    (h : (Ty.union label vs).SameMembers q) :
    ∃ label' ws, q = .union label' ws ∧ Ty.SameVariants vs ws := by
  cases q with
  | union label' ws => exact ⟨label', ws, rfl, h⟩
  | _ => cases h

/-- What has a form and name but is no reference is a definition. -/
theorem Ty.isSome_defId?_of_nominal? {q : Ty} {key : Form × String}
    (h : q.nominal? = some key) (href : q.target? = none) :
    q.defId?.isSome := by
  cases q with
  | struct label gs =>
      cases label with
      | plain name => cases h
      | recursive name id => rfl
  | union label ws =>
      cases label with
      | plain name => cases h
      | recursive name id => rfl
  | ref form name id => cases href
  | _ => cases h

theorem sameFields_of_beq (hagree : Agree here) {label : Label}
    {fs : List (String × Ty)} {q : Ty} (hp : here (.struct label fs))
    (hq : here q) (href : q.target? = none)
    (h : (Ty.struct label fs == q) = true) :
    ∃ label' gs, q = .struct label' gs ∧ Ty.SameFields fs gs := by
  cases label with
  | plain name =>
      obtain ⟨name', gs, rfl, hsame⟩ := Ty.struct_beq_iff.mp h
      exact ⟨_, gs, rfl, hsame⟩
  | recursive name id =>
      have hname : q.nominal? = some (.struct, name) :=
        (Ty.nominal_beq_iff rfl).mp h
      have hdef := Ty.isSome_defId?_of_nominal? hname href
      exact (hagree _ _ hp hq rfl hdef hname.symm).struct_left

theorem sameVariants_of_beq (hagree : Agree here) {label : Label}
    {vs : List Ty} {q : Ty} (hp : here (.union label vs)) (hq : here q)
    (href : q.target? = none) (h : (Ty.union label vs == q) = true) :
    ∃ label' ws, q = .union label' ws ∧ Ty.SameVariants vs ws := by
  cases label with
  | plain name =>
      obtain ⟨name', ws, rfl, hsame⟩ := Ty.union_beq_iff.mp h
      exact ⟨_, ws, rfl, hsame⟩
  | recursive name id =>
      have hname : q.nominal? = some (.union, name) :=
        (Ty.nominal_beq_iff rfl).mp h
      have hdef := Ty.isSome_defId?_of_nominal? hname href
      exact (hagree _ _ hp hq rfl hdef hname.symm).union_left

/-- Two types that are here and equal. -/
structure Alike (here : Ty → Prop) (a b : Ty) : Prop where
  left : here a
  right : here b
  beq : (a == b) = true

namespace Alike

variable {a b : Ty}

theorem symm (hS : S.Linked here) (h : Alike here a b) : Alike here b a :=
  ⟨h.right, h.left, Ty.beq_symm (hS.wellFormed h.left) h.beq⟩

theorem isRecursive_eq (h : Alike here a b) : a.isRecursive = b.isRecursive := by
  rw [a.isRecursive_eq, b.isRecursive_eq, Ty.nominal?_eq_of_beq h.beq]

/-- What is alike a struct and no reference is a struct. Each field of the
one is alike a field of the other. -/
theorem struct_left (hS : S.Linked here) (hagree : Agree here) {la : Label}
    {fs : List (String × Ty)} (h : Alike here (.struct la fs) b)
    (href : b.target? = none) :
    ∃ lb gs, b = .struct lb gs ∧ la.isRecursive = lb.isRecursive
      ∧ (∀ f ∈ fs, ∃ g ∈ gs, g.1 = f.1 ∧ Alike here f.2 g.2)
      ∧ ∀ g ∈ gs, ∃ f ∈ fs, f.1 = g.1 ∧ Alike here f.2 g.2 := by
  obtain ⟨lb, gs, rfl, hsame⟩ :=
    sameFields_of_beq hagree h.left h.right href h.beq
  have hf : ∀ f ∈ fs, here f.2 := fun f hf =>
    hS.component h.left (List.mem_map.mpr ⟨f, hf, rfl⟩)
  have hg : ∀ g ∈ gs, here g.2 := fun g hg =>
    hS.component h.right (List.mem_map.mpr ⟨g, hg, rfl⟩)
  have hback : Ty.SameFields gs fs := by
    refine hsame.symm (hS.regular h.left) fun f hmem t => Ty.beq_symm ?_
    exact hS.wellFormed (hf f hmem)
  refine ⟨lb, gs, rfl, h.isRecursive_eq, fun f hmem => ?_, fun g hmem => ?_⟩
  · obtain ⟨g, hg', hname, hfg⟩ := hsame.2 f hmem
    exact ⟨g, hg', hname, hf f hmem, hg g hg', hfg⟩
  · obtain ⟨f, hf', hname, hgf⟩ := hback.2 g hmem
    have hfg := Ty.beq_symm (hS.wellFormed (hg g hmem)) hgf
    exact ⟨f, hf', hname, hf f hf', hg g hmem, hfg⟩

/-- What is alike a union and no reference is a union. Each variant of the
one is alike a variant of the other. -/
theorem union_left (hS : S.Linked here) (hagree : Agree here) {la : Label}
    {vs : List Ty} (h : Alike here (.union la vs) b)
    (href : b.target? = none) :
    ∃ lb ws, b = .union lb ws ∧ la.isRecursive = lb.isRecursive
      ∧ (∀ v ∈ vs, ∃ w ∈ ws, Alike here v w)
      ∧ ∀ w ∈ ws, ∃ v ∈ vs, Alike here v w := by
  obtain ⟨lb, ws, rfl, hsame⟩ :=
    sameVariants_of_beq hagree h.left h.right href h.beq
  have hv : ∀ v ∈ vs, here v := fun v hv => hS.component h.left hv
  have hw : ∀ w ∈ ws, here w := fun w hw => hS.component h.right hw
  have hback : Ty.SameVariants ws vs := by
    refine hsame.symm (hS.regular h.left).2 fun v hmem t => Ty.beq_symm ?_
    exact hS.wellFormed (hv v hmem)
  refine ⟨lb, ws, rfl, h.isRecursive_eq, fun v hmem => ?_, fun w hmem => ?_⟩
  · obtain ⟨w, hw', hvw⟩ := hsame.2 v hmem
    exact ⟨w, hw', hv v hmem, hw w hw', hvw⟩
  · obtain ⟨v, hv', hwv⟩ := hback.2 w hmem
    have hvw := Ty.beq_symm (hS.wellFormed (hw w hmem)) hwv
    exact ⟨v, hv', hv v hv', hw w hmem, hvw⟩

end Alike

theorem exists_mem_zip_of_forall₂ {α : Type} {R : Ty → Ty → Prop}
    {ss ts : List Ty} (h : List.Forall₂ R ss ts) :
    ∀ {items : List α} {v : α} {t : Ty}, (v, t) ∈ items.zip ts →
      ∃ s, (v, s) ∈ items.zip ss ∧ R s t := by
  induction h with
  | nil =>
      intro items v t hmem
      simp at hmem
  | @cons s t ss ts hst _ ih =>
      intro items v u hmem
      cases items with
      | nil => simp at hmem
      | cons w items =>
          rcases List.mem_cons.mp hmem with heq | hmem
          · obtain ⟨rfl, rfl⟩ := Prod.mk.inj heq
            exact ⟨s, List.mem_cons_self .., hst⟩
          · obtain ⟨r, hr, hru⟩ := ih hmem
            exact ⟨r, List.mem_cons_of_mem _ hr, hru⟩

/-- To be a member of everything equal to `p` it is enough to be one of
what is no reference. -/
theorem member_of_resolved (hS : S.Linked here) {v : Value} {p q : Ty}
    (hq : here q) (heq : (p == q) = true)
    (h : ∀ r, here r → r.target? = none → (p == r) = true → Member S v r) :
    Member S v q := by
  obtain ⟨hhere, -, href⟩ := hS.resolve hq
  have heq' := (hS.beq_resolve_right hq).mpr heq
  exact (hS.member_resolve hq).mp (h _ hhere href heq')

theorem Value.Member.of_beq (hS : S.Linked here) (hagree : Agree here)
    {v : Value} {p q : Ty} (hp : here p) (hq : here q)
    (heq : (p == q) = true) (h : Member S v p) : Member S v q := by
  induction h generalizing q with
  | any =>
      obtain rfl := Ty.any_beq_iff.mp heq
      exact .any
  | null =>
      obtain rfl := Ty.null_beq_iff.mp heq
      exact .null
  | scalar h =>
      obtain rfl := Ty.scalar_beq_iff.mp heq
      exact .scalar h
  | array h ih =>
      obtain ⟨t, rfl, hst⟩ := Ty.array_beq_iff.mp heq
      have hs := hS.component hp (List.mem_singleton.mpr rfl)
      have ht := hS.component hq (List.mem_singleton.mpr rfl)
      exact .array fun v hv => ih v hv hs ht hst
  | packed h ih =>
      obtain ⟨t, rfl, hst⟩ := Ty.array_beq_iff.mp heq
      have hs := hS.component hp (List.mem_singleton.mpr rfl)
      have ht := hS.component hq (List.mem_singleton.mpr rfl)
      exact .packed fun n hn => ih n hn hs ht hst
  | @tuple items elements hlen h ih =>
      obtain ⟨ts, rfl, hst⟩ := Ty.tuple_beq_iff.mp heq
      refine .tuple (hlen.trans hst.length_eq) fun e he => ?_
      obtain ⟨s, hs, hst⟩ := exists_mem_zip_of_forall₂ hst he
      have hs' := hS.component hp (List.of_mem_zip hs).2
      have he' := hS.component hq (List.of_mem_zip he).2
      exact ih _ hs hs' he' hst
  | @map entries key value hk hv ih =>
      obtain ⟨t, rfl, hst⟩ := Ty.map_beq_iff.mp heq
      have hs : here value := hS.component hp (by simp [Ty.components])
      have ht : here t := hS.component hq (by simp [Ty.components])
      exact .map hk fun e he => ih e he hs ht hst
  | @struct fields label declared h ih =>
      refine member_of_resolved hS hq heq fun q hq href heq => ?_
      obtain ⟨label', gs, rfl, -, -, hof⟩ :=
        Alike.struct_left hS hagree ⟨hp, hq, heq⟩ href
      refine .struct fun g hg => ?_
      obtain ⟨f, hf, hname, hfg⟩ := hof g hg
      rw [← hname]
      exact ih f hf hfg.left hfg.right hfg.beq
  | union hw h ih =>
      refine member_of_resolved hS hq heq fun q hq href heq => ?_
      obtain ⟨label', ws, rfl, -, hto, -⟩ :=
        Alike.union_left hS hagree ⟨hp, hq, heq⟩ href
      obtain ⟨w', hw', hww'⟩ := hto _ hw
      exact .union hw' (ih hww'.left hww'.right hww'.beq)
  | ref hd h ih =>
      obtain ⟨d, hd', hhere, hname⟩ := hS.follow hp
      obtain rfl := Option.some.inj (hd.symm.trans hd')
      have hq' := (Ty.nominal_beq_iff rfl).mp heq
      exact ih hhere hq ((Ty.nominal_beq_iff hname).mpr hq')

/-! ## Comparisons that succeed are sound -/

/-- The members of `a` below the given size are members of `b`. -/
def Scope.Sub (S : Scope) (size : Nat) (a b : Ty) : Prop :=
  ∀ v : Value, sizeOf v < size → Member S v a → Member S v b

theorem Value.sizeOf_fieldOrNull_lt (fields : List (String × Value))
    (name : String) :
    sizeOf (Value.fieldOrNull fields name) < sizeOf (Value.struct fields) := by
  unfold Value.fieldOrNull
  cases h : fields.lookup name with
  | none => cases fields <;> simp
  | some v =>
      have hlt := List.sizeOf_lt_of_mem (mem_of_lookup h)
      simp only [Option.getD_some, Prod.mk.sizeOf_spec,
        Value.struct.sizeOf_spec] at hlt ⊢
      omega

/-- The struct rule: the values of fields are smaller. -/
theorem sub_of_fields {size : Nat} {la lb : Label}
    {fields required : List (String × Ty)}
    (h : ∀ g ∈ required, ∃ t, fields.lookup g.1 = some t ∧ S.Sub size t g.2) :
    S.Sub (size + 1) (.struct la fields) (.struct lb required) := by
  intro v hsize hv
  cases hv with
  | @struct values _ _ hfields =>
      refine .struct fun g hg => ?_
      obtain ⟨t, ht, hsub⟩ := h g hg
      refine hsub _ ?_ (hfields _ (mem_of_lookup ht))
      have hlt := Value.sizeOf_fieldOrNull_lt values g.1
      omega

theorem sub_resolve (hS : S.Linked here) {size : Nat} {a b : Ty}
    (ha : here a) (hb : here b) :
    S.Sub size (S.resolve a) (S.resolve b) ↔ S.Sub size a b := by
  unfold Scope.Sub
  simp only [hS.member_resolve ha, hS.member_resolve hb]

/-- The pairs that may be assumed are right for values below the size. -/
def Pending.Sound (S : Scope) (here : Ty → Prop) (size : Nat)
    (P : Pending) : Prop :=
  ∀ pair ∈ P.structs, here pair.1 ∧ here pair.2 ∧ S.Sub size pair.1 pair.2

namespace Pending.Sound

variable {size : Nat} {P P' : Pending} {recursive : Bool} {a b : Ty}

theorem pred (h : P.Sound S here (size + 1)) : P.Sound S here size := by
  intro pair hpair
  obtain ⟨hfst, hsnd, hsub⟩ := h pair hpair
  exact ⟨hfst, hsnd, fun v hv => hsub v (Nat.lt_succ_of_lt hv)⟩

theorem expands (h : P.Sound S here size)
    (hP : P.Expands recursive a b P') : P'.Sound S here size := by
  rcases hP with ⟨-, rfl⟩ | ⟨-, -, rfl⟩ <;> exact h

theorem assumes (h : P.Sound S here size) (ha : here a) (hb : here b)
    (hsub : S.Sub size a b) (hP : P.Assumes recursive a b P') :
    P'.Sound S here size := by
  rcases hP with ⟨-, rfl⟩ | ⟨-, rfl⟩
  · exact h
  · exact List.forall_mem_cons.mpr ⟨⟨ha, hb, hsub⟩, h⟩

/-- A pair that is recorded is right, also for types equal to it. -/
theorem sub (hS : S.Linked here) (hagree : Agree here)
    (h : P.Sound S here size) (ha : here a) (hb : here b)
    (hmem : P.structs.contains (a, b) = true) : S.Sub size a b := by
  obtain ⟨pair, hpair, haq, hbq⟩ := Pending.contains_iff.mp hmem
  obtain ⟨hfst, hsnd, hsub⟩ := h pair hpair
  intro v hsize hv
  have hpair := hsub v hsize (hv.of_beq hS hagree ha hfst haq)
  exact hpair.of_beq hS hagree hsnd hb (Ty.beq_symm (hS.wellFormed hb) hbq)

end Pending.Sound

/-- A rule is sound up to some size if the comparisons it asks for are
and if the two types themselves are known to be right for smaller
values. -/
theorem sub_of_rule (hS : S.Linked here) (hagree : Agree here) {size : Nat}
    {sub : Pending → Ty → Ty → Prop} {P : Pending} {a b : Ty}
    (ha : here a) (hb : here b) (hP : P.Sound S here (size + 1))
    (hself : S.Sub size a b)
    (hsub : ∀ {k P' x y}, here x → here y → P'.Sound S here k →
      sub P' x y → S.Sub k x y)
    (hrule : Scope.Rule sub P a b) : S.Sub (size + 1) a b := by
  cases hrule with
  | toUnion hexpands hw h =>
      have hvariant := hsub ha (hS.component hb hw) (hP.expands hexpands) h
      exact fun v hsize hv => .union hw (hvariant v hsize hv)
  | ofUnion hexpands h =>
      intro v hsize hv
      cases hv with
      | union hw hv =>
          have hvariant :=
            hsub (hS.component ha hw) hb (hP.expands hexpands) (h _ hw)
          exact hvariant v hsize hv
  | assumed hrecursive hmem => exact hP.sub hS hagree ha hb hmem
  | fields hassumes hfields =>
      refine sub_of_fields fun g hg => ?_
      obtain ⟨t, ht, h⟩ := hfields g hg
      have hfield := mem_of_lookup ht
      have ht' := hS.component ha (List.mem_map.mpr ⟨_, hfield, rfl⟩)
      have hg' := hS.component hb (List.mem_map.mpr ⟨g, hg, rfl⟩)
      have hP' := hP.pred.assumes ha hb hself hassumes
      exact ⟨t, ht, hsub ht' hg' hP' h⟩

/-- If the assumed pairs are sound for values below a size, so is a
comparison that succeeds under them. The outer induction is on the steps;
the inner one is on the size and provides the soundness of the pair that
a comparison assumes for itself. -/
theorem sub_of_subtypeWithin (hS : S.Linked here) (hagree : Agree here)
    {n : Nat} : ∀ {size : Nat} {P : Pending} {a b : Ty}, here a → here b →
      P.Sound S here size → S.subtypeWithin n P a b = true →
      S.Sub size a b := by
  induction n with
  | zero =>
      intro size P a b _ _ _ h
      cases h
  | succ n ih =>
      intro size P a b ha hb hP h
      induction size with
      | zero => exact fun v hsize => absurd hsize (Nat.not_lt_zero _)
      | succ size ihsize =>
          rcases Scope.subtypeWithin_succ.mp h with heq | rfl | hrule
          · exact fun v _ hv => hv.of_beq hS hagree ha hb heq
          · exact fun v _ _ => .any
          · obtain ⟨ha', -, -⟩ := hS.resolve ha
            obtain ⟨hb', -, -⟩ := hS.resolve hb
            have hself := (sub_resolve hS ha hb).mpr (ihsize hP.pred)
            exact (sub_resolve hS ha hb).mp
              (sub_of_rule hS hagree ha' hb' hP hself ih hrule)

end

/-- Every instance of a subtype is one of the type. -/
theorem Session.Reachable.isInstance_of_isSubtype {s : Session}
    (hs : s.Reachable) {es : List TypeExpr} {ts : List Ty} {S : Scope}
    (heval : s.evalTypes es = .ok (ts, S)) {a b : Ty}
    (ha : a ∈ ts) (hb : b ∈ ts) (hclosed : S.Closed [a, b])
    (hcoherent : S.Coherent [a, b]) (hsub : S.isSubtype a b = true)
    {v : Value} (hv : v.isInstance S a = true) :
    v.isInstance S b = true := by
  have hlinked := hs.linked heval (by simp [ha, hb]) hclosed
  have hempty : Pending.empty.Sound S (S.Reaches [a, b]) (sizeOf v + 1) :=
    fun pair hpair => (List.not_mem_nil hpair).elim
  have hsound := sub_of_subtypeWithin hlinked hcoherent
    (.start (by simp)) (.start (by simp)) hempty hsub
  have hmember := (Value.isInstance_iff v a).mp hv
  exact (Value.isInstance_iff v b).mpr (hsound v (Nat.lt_succ_self _) hmember)

/-- A list is a subtype of a chain, which asks for less: they are
compared under the assumption that they are. -/
theorem isInstance_chain_of_list :
    let list : Ty := .struct (.recursive "List" 1)
      [("value", .scalar .int),
        ("next", .union (.plain none) [.ref .struct "List" 1, .null])]
    let chain : Ty := .struct (.recursive "Chain" 2)
      [("next", .union (.plain none) [.ref .struct "Chain" 2, .null])]
    let S : Scope := ⟨[list, chain]⟩
    let v : Value := .struct [("value", .number (.int 1)),
      ("next", .struct [("value", .number (.int 2))])]
    S.isSubtype list chain = true ∧ v.isInstance S list = true
      ∧ v.isInstance S chain = true := by
  intro list chain S v
  have heval : Session.empty.evalTypes
      [.defineStruct (some "List") []
          [("value", .scalar .int), ("next", .nullable (.self 0))],
        .defineStruct (some "Chain") [] [("next", .nullable (.self 0))]]
      = .ok ([list, chain], S) := by cbv
  have hsub : S.isSubtype list chain = true := by decide +kernel
  have hv : v.isInstance S list = true := by decide
  have hclosed : S.Closed [list, chain] :=
    Scope.closed_of_parts (by decide)
  have hcoherent : S.Coherent [list, chain] :=
    Scope.coherent_of_parts (by decide)
  refine ⟨hsub, hv, ?_⟩
  exact Session.Reachable.empty.isInstance_of_isSubtype heval
    (by simp) (by simp) hclosed hcoherent hsub hv

end Schemata
