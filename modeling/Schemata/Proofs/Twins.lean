import Mathlib
import Schemata.Proofs.SelfReference
import Schemata.Proofs.UnionAlgebra
import Schemata.Proofs.UnionLaws

/-!
# Types that differ in what they refer to

Two definitions that are given the same members, each with its own handle,
do not get the same types. `Ty.Twin` relates what they get: one type has the
reference of one handle where the other has that of the other handle, inside
of plain structs and unions, and elsewhere they are the same.

Building types keeps twins twins. That is not obvious where equal variants
are dropped, because references are equal by name: if a handle had the name
of some other recursive type in the members, it would be dropped on one side
and kept on the other. So the types that are the same on both sides must not
have the name of a handle (`Ty.Apart`). Then twins are equal to each other's
like (`Twin.beq`), and the same variants are dropped (`Twin.distinct`).

Twins are subtypes of each other as far as the handles are
(`Scope.subtypeUnder_of_twin`). A union is taken apart on the left first and
on the right second; taking it apart on the right first would compare all of
it with one variant.
-/

namespace Schemata

namespace Ty

variable {c : Ty → Prop} {h k : Handle} {x y x' y' : Ty}

/-- Types that do not have the form and name of either handle, all the way
down. -/
structure Apart (h k : Handle) (c : Ty → Prop) : Prop where
  component : ∀ {t u}, c t → u ∈ t.components → c u
  left : ∀ {t}, c t → t.nominal? ≠ h.ref.nominal?
  right : ∀ {t}, c t → t.nominal? ≠ k.ref.nominal?

theorem Apart.symm (hc : Apart h k c) : Apart k h c :=
  ⟨hc.component, hc.right, hc.left⟩

theorem Apart.and {c' : Ty → Prop} (hc : Apart h k c)
    (hc' : ∀ {t u}, c' t → u ∈ t.components → c' u) :
    Apart h k fun t => c t ∧ c' t where
  component ht hu := ⟨hc.component ht.1 hu, hc' ht.2 hu⟩
  left ht := hc.left ht.1
  right ht := hc.right ht.1

/-- The same type with the reference of the second handle for that of the
first, where the types of `c` are left as they are. -/
inductive Twin (c : Ty → Prop) (h k : Handle) : Ty → Ty → Prop where
  | same {t} (ht : c t) : Twin c h k t t
  | self : Twin c h k h.ref k.ref
  | union {name vs ws} (hvs : List.Forall₂ (Twin c h k) vs ws) :
      Twin c h k (.union (.plain name) vs) (.union (.plain name) ws)
  | struct {name fs gs} (hnames : fs.map Prod.fst = gs.map Prod.fst)
      (hfs : List.Forall₂ (Twin c h k) (fs.map Prod.snd) (gs.map Prod.snd)) :
      Twin c h k (.struct (.plain name) fs) (.struct (.plain name) gs)

/-- Fields of the same name with twins for types. -/
def TwinField (c : Ty → Prop) (h k : Handle) (f g : String × Ty) : Prop :=
  f.1 = g.1 ∧ Twin c h k f.2 g.2

theorem forall₂_twinField_iff {fs : List (String × Ty)} :
    ∀ {gs : List (String × Ty)}, List.Forall₂ (TwinField c h k) fs gs ↔
      fs.map Prod.fst = gs.map Prod.fst
        ∧ List.Forall₂ (Twin c h k) (fs.map Prod.snd) (gs.map Prod.snd) := by
  induction fs with
  | nil =>
      intro gs
      cases gs <;> simp
  | cons f fs ih =>
      intro gs
      cases gs with
      | nil => simp
      | cons g gs =>
          rw [List.forall₂_cons, ih]
          simp only [List.map_cons, List.forall₂_cons, List.cons.injEq,
            TwinField]
          tauto

/-! ## Members -/

theorem exists_mem_right_of_forall₂ {α β : Type} {R : α → β → Prop}
    {xs : List α} {ys : List β} (hR : List.Forall₂ R xs ys) {a : α}
    (ha : a ∈ xs) : ∃ b ∈ ys, R a b := by
  obtain ⟨b, hb, hab⟩ := exists_mem_of_forall₂ hR.flip ha
  exact ⟨b, hb, hab⟩

theorem forall₂_imp_of_mem {α β : Type} {R R' : α → β → Prop} {xs : List α}
    {ys : List β} (hR : List.Forall₂ R xs ys)
    (himp : ∀ a ∈ xs, ∀ b, R a b → R' a b) : List.Forall₂ R' xs ys := by
  induction hR with
  | nil => exact .nil
  | cons hab _ ih =>
      obtain ⟨hhead, htail⟩ := List.forall_mem_cons.mp himp
      exact .cons (hhead _ hab) (ih htail)

theorem Twin.forall₂_same (hc : Apart h k c) {ts : List Ty} {t : Ty}
    (ht : c t) (hts : ∀ u ∈ ts, u ∈ t.components) :
    List.Forall₂ (Twin c h k) ts ts :=
  List.forall₂_same.mpr fun u hu => .same (hc.component ht (hts u hu))

/-- What a plain union is a twin of. -/
theorem Twin.union_left (hc : Apart h k c) {name : Option String}
    {vs : List Ty} (ht : Twin c h k (.union (.plain name) vs) y) :
    ∃ ws, y = .union (.plain name) ws
      ∧ List.Forall₂ (Twin c h k) vs ws := by
  cases ht with
  | same ht => exact ⟨vs, rfl, forall₂_same hc ht fun _ hv => hv⟩
  | union hvs => exact ⟨_, rfl, hvs⟩

/-- What a plain struct is a twin of. -/
theorem Twin.struct_left (hc : Apart h k c) {name : Option String}
    {fs : List (String × Ty)}
    (ht : Twin c h k (.struct (.plain name) fs) y) :
    ∃ gs, y = .struct (.plain name) gs
      ∧ List.Forall₂ (TwinField c h k) fs gs := by
  cases ht with
  | same ht =>
      refine ⟨fs, rfl, forall₂_twinField_iff.mpr ⟨rfl, ?_⟩⟩
      exact forall₂_same hc ht fun _ hf => hf
  | struct hnames hfs => exact ⟨_, rfl, forall₂_twinField_iff.mpr ⟨hnames, hfs⟩⟩

theorem Twin.symm (ht : Twin c h k x y) : Twin c k h y x := by
  induction x using component_induction generalizing y with
  | step x ih =>
      cases ht with
      | same ht => exact .same ht
      | self => exact .self
      | union hvs =>
          exact .union (forall₂_imp_of_mem hvs fun v hv w => ih v hv).flip
      | struct hnames hfs =>
          exact .struct hnames.symm
            (forall₂_imp_of_mem hfs fun f hf g => ih f hf).flip

/-! ## Equality -/

/-- Only types that are the same, or the two references, have a name. -/
theorem Twin.of_nominal {n : Form × String} (hn : x.nominal? = some n)
    (ht : Twin c h k x y) : (y = x ∧ c x) ∨ (x = h.ref ∧ y = k.ref) := by
  cases ht with
  | same ht => exact Or.inl ⟨rfl, ht⟩
  | self => exact Or.inr ⟨rfl, rfl⟩
  | union => cases hn
  | struct => cases hn

theorem Twin.beq_of_nominal (hc : Apart h k c) {n : Form × String}
    (hn : x.nominal? = some n) (ht : Twin c h k x y) (ht' : Twin c h k x' y')
    (heq : (x == x') = true) : (y == y') = true := by
  have hn' := (nominal_beq_iff hn).mp heq
  rcases ht.of_nominal hn with ⟨rfl, hx⟩ | ⟨rfl, rfl⟩
  · rcases ht'.of_nominal hn' with ⟨rfl, -⟩ | ⟨rfl, -⟩
    · exact heq
    · exact (hc.left hx (hn.trans hn'.symm)).elim
  · rcases ht'.of_nominal hn' with ⟨rfl, hx'⟩ | ⟨-, rfl⟩
    · exact (hc.left hx' (hn'.trans hn.symm)).elim
    · exact beq_self _

theorem Twin.sameVariants {vs ws vs' ws' : List Ty}
    (ih : ∀ v ∈ vs, ∀ w v' w', Twin c h k v w → Twin c h k v' w' →
      (v == v') = true → (w == w') = true)
    (hvs : List.Forall₂ (Twin c h k) vs ws)
    (hvs' : List.Forall₂ (Twin c h k) vs' ws')
    (hsame : SameVariants vs vs') : SameVariants ws ws' := by
  refine ⟨?_, fun w hw => ?_⟩
  · rw [← hvs.length_eq, ← hvs'.length_eq, hsame.1]
  · obtain ⟨v, hv, hvw⟩ := exists_mem_of_forall₂ hvs hw
    obtain ⟨v', hv', heq⟩ := hsame.2 v hv
    obtain ⟨w', hw', hvw'⟩ := exists_mem_right_of_forall₂ hvs' hv'
    exact ⟨w', hw', ih v hv w v' w' hvw hvw' heq⟩

theorem Twin.sameFields {fs gs fs' gs' : List (String × Ty)}
    (ih : ∀ f ∈ fs, ∀ w v' w', Twin c h k f.2 w → Twin c h k v' w' →
      (f.2 == v') = true → (w == w') = true)
    (hfs : List.Forall₂ (TwinField c h k) fs gs)
    (hfs' : List.Forall₂ (TwinField c h k) fs' gs')
    (hsame : SameFields fs fs') : SameFields gs gs' := by
  refine ⟨?_, fun g hg => ?_⟩
  · rw [← hfs.length_eq, ← hfs'.length_eq, hsame.1]
  · obtain ⟨f, hf, hname, hfg⟩ := exists_mem_of_forall₂ hfs hg
    obtain ⟨f', hf', hname', heq⟩ := hsame.2 f hf
    obtain ⟨g', hg', hname'', hfg'⟩ := exists_mem_right_of_forall₂ hfs' hf'
    refine ⟨g', hg', ?_, ih f hf _ _ _ hfg hfg' heq⟩
    rw [← hname'', hname', hname]

/-- Twins of equal types are equal. -/
theorem Twin.beq (hc : Apart h k c) (ht : Twin c h k x y)
    (ht' : Twin c h k x' y') (heq : (x == x') = true) : (y == y') = true := by
  induction x using component_induction generalizing y x' y' with
  | step x ih =>
      cases hn : x.nominal? with
      | some n => exact ht.beq_of_nominal hc hn ht' heq
      | none =>
          cases x with
          | union label vs =>
              cases label with
              | recursive name id => cases hn
              | plain name =>
                  obtain ⟨name', vs', rfl, hsame⟩ := union_beq_iff.mp heq
                  obtain ⟨ws, rfl, hvs⟩ := ht.union_left hc
                  obtain ⟨ws', rfl, hvs'⟩ := ht'.union_left hc
                  refine union_beq_iff.mpr ⟨name', ws', rfl, ?_⟩
                  refine sameVariants (fun v hv w v' w' => ?_) hvs hvs' hsame
                  exact fun hvw hvw' => ih v hv hvw hvw'
          | struct label fs =>
              cases label with
              | recursive name id => cases hn
              | plain name =>
                  obtain ⟨name', fs', rfl, hsame⟩ := struct_beq_iff.mp heq
                  obtain ⟨gs, rfl, hfs⟩ := ht.struct_left hc
                  obtain ⟨gs', rfl, hfs'⟩ := ht'.struct_left hc
                  refine struct_beq_iff.mpr ⟨name', gs', rfl, ?_⟩
                  refine sameFields (fun f hf w v' w' => ?_) hfs hfs' hsame
                  have hmem := List.mem_map_of_mem (f := Prod.snd) hf
                  exact fun hvw hvw' => ih f.2 hmem hvw hvw'
          | ref form name id => cases hn
          -- all others are twins of nothing but themselves
          | any =>
              obtain rfl := any_beq_iff.mp heq
              cases ht
              cases ht'
              exact heq
          | null =>
              obtain rfl := null_beq_iff.mp heq
              cases ht
              cases ht'
              exact heq
          | scalar s =>
              obtain rfl := scalar_beq_iff.mp heq
              cases ht
              cases ht'
              exact heq
          | array e =>
              obtain ⟨e', rfl, -⟩ := array_beq_iff.mp heq
              cases ht
              cases ht'
              exact heq
          | tuple es =>
              obtain ⟨es', rfl, -⟩ := tuple_beq_iff.mp heq
              cases ht
              cases ht'
              exact heq
          | map key value =>
              obtain ⟨value', rfl, -⟩ := map_beq_iff.mp heq
              cases ht
              cases ht'
              exact heq

theorem Twin.beq_iff (hc : Apart h k c) (ht : Twin c h k x y)
    (ht' : Twin c h k x' y') : (x == x') = true ↔ (y == y') = true :=
  ⟨ht.beq hc ht', ht.symm.beq hc.symm ht'.symm⟩

/-! ## Building types -/

theorem Twin.contains_iff (hc : Apart h k c) {xs ys : List Ty}
    (hxs : List.Forall₂ (Twin c h k) xs ys) (ht : Twin c h k x y) :
    xs.contains x = true ↔ ys.contains y = true := by
  rw [Ty.contains_iff, Ty.contains_iff]
  constructor
  · rintro ⟨u, hu, heq⟩
    obtain ⟨v, hv, huv⟩ := exists_mem_right_of_forall₂ hxs hu
    exact ⟨v, hv, (ht.beq_iff hc huv).mp heq⟩
  · rintro ⟨v, hv, heq⟩
    obtain ⟨u, hu, huv⟩ := exists_mem_of_forall₂ hxs hv
    exact ⟨u, hu, (ht.beq_iff hc huv).mpr heq⟩

/-- The same variants are dropped. -/
theorem Twin.distinct (hc : Apart h k c) {xs ys : List Ty}
    (hxs : List.Forall₂ (Twin c h k) xs ys) :
    List.Forall₂ (Twin c h k) (distinct xs) (distinct ys) := by
  suffices hfold : ∀ {kept kept' : List Ty},
      List.Forall₂ (Twin c h k) kept kept' →
      List.Forall₂ (Twin c h k) (xs.foldl addDistinct kept)
        (ys.foldl addDistinct kept') from hfold .nil
  induction hxs with
  | nil => exact fun hkept => hkept
  | @cons x y xs ys hxy _ ih =>
      intro kept kept' hkept
      refine ih ?_
      unfold addDistinct
      by_cases hmem : kept.contains x = true
      · rw [if_pos hmem, if_pos ((contains_iff hc hkept hxy).mp hmem)]
        exact hkept
      · rw [if_neg hmem, if_neg (mt (contains_iff hc hkept hxy).mpr hmem)]
        exact List.rel_append hkept (.cons hxy .nil)

theorem Twin.flattened (hc : Apart h k c) (ht : Twin c h k x y) :
    List.Forall₂ (Twin c h k) x.flattened y.flattened := by
  cases ht with
  | same ht =>
      refine List.forall₂_same.mpr fun v hv => ?_
      rcases mem_flattened hv with rfl | hv
      · exact .same ht
      · exact .same (hc.component ht hv)
  | self => exact .cons .self .nil
  | @union name _ _ hvs =>
      cases name with
      | none => exact hvs
      | some name => exact .cons (.union hvs) .nil
  | struct hnames hfs => exact .cons (.struct hnames hfs) .nil

theorem Twin.joined (hc : Apart h k c) (ht : Twin c h k x y)
    (ht' : Twin c h k x' y') :
    List.Forall₂ (Twin c h k) (joined x x') (joined y y') :=
  Twin.distinct hc (List.rel_append (ht.flattened hc) (ht'.flattened hc))

theorem Twin.any_isNull {vs ws : List Ty}
    (hvs : List.Forall₂ (Twin c h k) vs ws) :
    vs.any isNull = ws.any isNull := by
  induction hvs with
  | nil => rfl
  | cons hvw _ ih =>
      rw [List.any_cons, List.any_cons, ih]
      cases hvw <;> rfl

/-- Twins of which one does not refer to its handle are the same. -/
theorem Twin.eq_of_not_refers (ht : Twin c h k x y)
    (hx : ∀ p ∈ x.parts, p.target? ≠ some h.id) : x = y := by
  induction x using component_induction generalizing y with
  | step x ih =>
      have ih' : ∀ u ∈ x.components, ∀ v, Twin c h k u v → u = v := by
        intro u hu v huv
        refine ih u hu huv fun p hp => hx p ?_
        exact mem_parts_trans hp (mem_parts_of_component hu)
      cases ht with
      | same => rfl
      | self => exact (hx _ (mem_parts_self _) rfl).elim
      | union hvs =>
          have heq : List.Forall₂ Eq _ _ := forall₂_imp_of_mem hvs ih'
          rw [List.forall₂_eq_eq_eq] at heq
          rw [heq]
      | struct hnames hfs =>
          have hfields := forall₂_twinField_iff.mpr ⟨hnames, hfs⟩
          have heq : List.Forall₂ Eq _ _ :=
            forall₂_imp_of_mem hfields fun f hf g hfg =>
              Prod.ext hfg.1 (ih' f.2 (List.mem_map_of_mem hf) g.2 hfg.2)
          rw [List.forall₂_eq_eq_eq] at heq
          rw [heq]

end Ty

/-! ## Subtyping -/

namespace Scope

variable {c : Ty → Prop} {h k : Handle} {S : Scope} {x y : Ty}

/-- Twins are subtypes while the references of the handles are. -/
theorem subtypeUnder_of_twin {P : Pending}
    (hself : S.SubtypeUnder P h.ref k.ref)
    (hself' : S.SubtypeUnder P (S.resolve h.ref) k.ref)
    (ht : Ty.Twin c h k x y) (hx : x.WellFormed)
    (hresolve : ∀ p ∈ x.parts, (S.resolve p == p) = true) :
    S.SubtypeUnder P x y ∧ S.SubtypeUnder P (S.resolve x) y := by
  induction x using Ty.component_induction generalizing y with
  | step x ih =>
      have ih' : ∀ u ∈ x.components, ∀ v, Ty.Twin c h k u v →
          S.SubtypeUnder P u v ∧ S.SubtypeUnder P (S.resolve u) v := by
        intro u hu v huv
        refine ih u hu huv (hx.component hu) fun p hp => hresolve p ?_
        exact Ty.mem_parts_trans hp (Ty.mem_parts_of_component hu)
      cases ht with
      | same =>
          refine ⟨subtypeUnder_iff.mpr (Or.inl (Ty.beq_self x)), ?_⟩
          exact subtypeUnder_iff.mpr (Or.inl (hresolve x (Ty.mem_parts_self x)))
      | self => exact ⟨hself, hself'⟩
      | @union name vs ws hvs =>
          have hsub : S.SubtypeUnder P (.union (.plain name) vs)
              (.union (.plain name) ws) := by
            refine subtypeUnder_iff.mpr (Or.inr (Or.inr ?_))
            refine .ofUnion (Or.inl ⟨rfl, rfl⟩) fun v hv => ?_
            obtain ⟨w, hw, hvw⟩ := Ty.exists_mem_right_of_forall₂ hvs hv
            refine subtypeUnder_iff.mpr (Or.inr (Or.inr ?_))
            exact .toUnion (Or.inl ⟨rfl, rfl⟩) hw (ih' v hv w hvw).2
          exact ⟨hsub, hsub⟩
      | @struct name fs gs hnames hfs =>
          have hfields := Ty.forall₂_twinField_iff.mpr ⟨hnames, hfs⟩
          have hsub : S.SubtypeUnder P (.struct (.plain name) fs)
              (.struct (.plain name) gs) := by
            refine subtypeUnder_iff.mpr (Or.inr (Or.inr ?_))
            refine .fields (Or.inl ⟨rfl, rfl⟩) fun g hg => ?_
            obtain ⟨f, hf, hname, hfg⟩ := Ty.exists_mem_of_forall₂ hfields hg
            refine ⟨f.2, hname ▸ lookup_of_mem hx.regular hf, ?_⟩
            exact (ih' f.2 (List.mem_map_of_mem hf) g.2 hfg).1
          exact ⟨hsub, hsub⟩

/-- References are equal to what they lead to. -/
theorem beq_resolve_of_consistent {held : List Ty} {handles : List Handle}
    (hc : Consistent (· ∈ Ty.partsOfList held) handles) {p : Ty}
    (hp : p ∈ Ty.partsOfList held) : ((ofHeld held).resolve p == p) = true := by
  cases p with
  | ref form name id =>
      rcases hc.resolve_ref hp with heq | ⟨d, -, hd, heq⟩
      · rw [heq]
        exact Ty.beq_self _
      · rw [heq]
        exact (hd.beq id).2
  | _ => exact Ty.beq_self _

theorem resolve_ref_of_part {held : List Ty} {handles : List Handle}
    (hc : Consistent (· ∈ Ty.partsOfList held) handles) {d : Ty}
    (hd : d ∈ Ty.partsOfList held) (hid : d.defId? = some h.id) :
    (ofHeld held).resolve h.ref = d := by
  rw [Handle.ref, resolve, find?_of_part hc hd hid, Option.getD_some]

/-- A struct of a pair that is in progress is a subtype, also if it is meant
by its handle. -/
theorem subtypeUnder_assumed {d e : Ty} {la lb : Label}
    {fs gs : List (String × Ty)} (hd : S.resolve d = .struct la fs)
    (he : S.resolve e = .struct lb gs) (hla : la.isRecursive = true) :
    S.SubtypeUnder (Pending.empty.withStruct (.struct la fs) (.struct lb gs))
      d e := by
  refine subtypeUnder_iff.mpr (Or.inr (Or.inr ?_))
  rw [hd, he]
  refine .assumed (by rw [hla, Bool.true_or]) ?_
  exact contains_cons_self ..

section

variable {held : List Ty} {handles : List Handle} {la lb : Label}
  {fs extra gs : List (String × Ty)}

/-- The fields of the first struct that the second one asks for. -/
theorem isSubtype_of_fields
    (hnames : ((fs ++ extra).map Prod.fst).Nodup)
    (hfs : List.Forall₂ (Ty.TwinField c h k) fs gs)
    (hsub : ∀ P, Pending.empty.Assumes (la.isRecursive || lb.isRecursive)
        (.struct la (fs ++ extra)) (.struct lb gs) P →
      ∀ f ∈ fs, ∀ g ∈ gs, Ty.Twin c h k f.2 g.2 → S.SubtypeUnder P f.2 g.2) :
    S.isSubtype (.struct la (fs ++ extra)) (.struct lb gs) = true := by
  obtain ⟨P, hP⟩ : ∃ P, Pending.empty.Assumes (la.isRecursive || lb.isRecursive)
      (.struct la (fs ++ extra)) (.struct lb gs) P := by
    cases la.isRecursive || lb.isRecursive with
    | false => exact ⟨_, Or.inl ⟨rfl, rfl⟩⟩
    | true => exact ⟨_, Or.inr ⟨rfl, rfl⟩⟩
  rw [isSubtype_iff_subtypeUnder, subtypeUnder_iff]
  refine Or.inr (Or.inr (.fields hP fun g hg => ?_))
  obtain ⟨f, hf, hname, hfg⟩ := Ty.exists_mem_of_forall₂ hfs hg
  have hmem : f ∈ fs ++ extra := List.mem_append_left _ hf
  exact ⟨f.2, hname ▸ lookup_of_mem hnames hmem, hsub P hP f hf g hg hfg⟩

/-- A completed struct is a subtype of another one whose fields are twins of
some of its own. -/
theorem isSubtype_of_twins
    (hc : Consistent (· ∈ Ty.partsOfList held) handles)
    (hfs : List.Forall₂ (Ty.TwinField c h k) fs gs)
    (hleft : .struct la (fs ++ extra) ∈ Ty.partsOfList held)
    (hright : .struct lb gs ∈ Ty.partsOfList held)
    (hla : h.Labels (.struct la (fs ++ extra)))
    (hlb : k.Labels (.struct lb gs)) :
    (ofHeld held).isSubtype (.struct la (fs ++ extra)) (.struct lb gs)
      = true := by
  refine isSubtype_of_fields (hc.regular _ hleft) hfs
    fun P hP f hf g hg hfg => ?_
  have hfmem : f.2 ∈ (Ty.struct la (fs ++ extra)).components :=
    List.mem_map_of_mem (List.mem_append_left _ hf)
  have hgmem : g.2 ∈ (Ty.struct lb gs).components := List.mem_map_of_mem hg
  have hfparts : ∀ p ∈ f.2.parts, p ∈ (Ty.struct la (fs ++ extra)).parts :=
    fun p hp => Ty.mem_parts_trans hp (Ty.mem_parts_of_component hfmem)
  have hfheld : ∀ p ∈ f.2.parts, p ∈ Ty.partsOfList held :=
    fun p hp => Ty.mem_partsOfList_trans (hfparts p hp) hleft
  have hgparts : ∀ p ∈ g.2.parts, p ∈ (Ty.struct lb gs).parts :=
    fun p hp => Ty.mem_parts_trans hp (Ty.mem_parts_of_component hgmem)
  rcases hla.refers with hid | hplain
  · rcases hlb.refers with hid' | hplain
    · -- the pair is in progress, and its handles lead back to it
      have hrec : la.isRecursive = true := Ty.isRecursive_of_defId? hid
      have hl := resolve_ref_of_part hc hleft hid
      have hr := resolve_ref_of_part hc hright hid'
      rcases hP with ⟨hfalse, -⟩ | ⟨-, rfl⟩
      · rw [hrec] at hfalse
        cases hfalse
      refine (subtypeUnder_of_twin (subtypeUnder_assumed hl hr hrec) ?_ hfg
        (fun p hp => hc.regular p (hfheld p hp))
        fun p hp => beq_resolve_of_consistent hc (hfheld p hp)).1
      rw [hl]
      exact subtypeUnder_assumed rfl hr hrec
    · have heq := hfg.symm.eq_of_not_refers fun p hp => hplain p (hgparts p hp)
      rw [heq]
      exact subtypeUnder_iff.mpr (Or.inl (Ty.beq_self _))
  · rw [hfg.eq_of_not_refers fun p hp => hplain p (hfparts p hp)]
    exact subtypeUnder_iff.mpr (Or.inl (Ty.beq_self _))

end

end Scope

end Schemata
