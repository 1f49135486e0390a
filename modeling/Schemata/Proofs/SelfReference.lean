import Mathlib
import Schemata.Proofs.Moments
import Schemata.Proofs.Saturation

/-!
# Where self-references lead

A definition hands out its handle before it exists. The handle is put into
other types, copied with them, and outlives the definition if that is
refused or given up. So at every moment it has to be asked again what a
reference can be followed to. The answer is the same at all of them
(`self_references`):

- a reference that can be followed leads to a recursive definition of its
  own form, name and identity, and the two are equal;
- the handle of a definition that is under construction cannot be
  followed;
- a reference to a definition that has just been completed leads to what
  was completed.

The first two points are consistency, read for references. The last one is
what the label of a definition rests on. Only recursive definitions have an
identity that a reference can find, so nothing may refer to a definition
that was taken for a plain one. The check of a definition decides this by
what the members mention, and it looks at enough: nothing else that is held
knows the identity (`Context.lt_fresh`), so a handle that survives is a
part of the members.
-/

namespace Schemata

/-! ## Following a reference -/

/-- The complete recursive definitions with the form, name and identity
of a reference. -/
inductive Ty.DefinitionOf : Form → String → DefId → Ty → Prop where
  | struct {name id fields} :
      DefinitionOf .struct name id (.struct (.recursive name id) fields)
  | union {name id variants} :
      DefinitionOf .union name id (.union (.recursive name id) variants)

theorem Ty.definitionOf_of_nominal? {d : Ty} {form : Form} {name : String}
    {id : DefId} (hid : d.defId? = some id)
    (hname : d.nominal? = some (form, name)) : DefinitionOf form name id d := by
  cases d with
  | struct label fields =>
      cases label with
      | plain n => cases hid
      | recursive n i =>
          obtain ⟨rfl, rfl⟩ := Prod.mk.inj (Option.some.inj hname)
          obtain rfl := Option.some.inj hid
          exact .struct
  | union label variants =>
      cases label with
      | plain n => cases hid
      | recursive n i =>
          obtain ⟨rfl, rfl⟩ := Prod.mk.inj (Option.some.inj hname)
          obtain rfl := Option.some.inj hid
          exact .union
  | _ => cases hid

theorem Ty.DefinitionOf.nominal? {d : Ty} {form : Form} {name : String}
    {id : DefId} (h : DefinitionOf form name id d) :
    d.nominal? = some (form, name) := by
  cases h <;> rfl

/-- A reference and a definition of its form and name are equal, from
either side. -/
theorem Ty.DefinitionOf.beq {d : Ty} {form : Form} {name : String}
    {id : DefId} (h : DefinitionOf form name id d) (target : DefId) :
    (Ty.ref form name target == d) = true
      ∧ (d == Ty.ref form name target) = true :=
  ⟨(nominal_beq_iff rfl).mpr h.nominal?, (nominal_beq_iff h.nominal?).mpr rfl⟩

namespace Consistent

variable {held : List Ty} {handles : List Handle}

/-- A reference leads nowhere, or to a definition that is held. -/
theorem resolve_ref
    (hc : Consistent (· ∈ Ty.partsOfList held) handles) {form : Form}
    {name : String} {id : DefId}
    (hr : .ref form name id ∈ Ty.partsOfList held) :
    (Scope.ofHeld held).resolve (.ref form name id) = .ref form name id
      ∨ ∃ d ∈ Ty.partsOfList held, Ty.DefinitionOf form name id d
          ∧ (Scope.ofHeld held).resolve (.ref form name id) = d := by
  cases hfind : (Scope.ofHeld held).find? id with
  | none => exact Or.inl (by simp [Scope.resolve, hfind])
  | some d =>
      have hd := Scope.mem_parts_of_find? hfind
      have hid := Scope.defId?_of_find? hfind
      have hname := hc.named form name id d hr hd hid
      refine Or.inr ⟨d, hd, Ty.definitionOf_of_nominal? hid hname, ?_⟩
      simp [Scope.resolve, hfind]

/-- A handle leads nowhere while its definition is under construction. -/
theorem resolve_handle
    (hc : Consistent (· ∈ Ty.partsOfList held) handles) {k : Handle}
    (hk : k ∈ handles) : (Scope.ofHeld held).resolve k.ref = k.ref := by
  have hnone : (Scope.ofHeld held).find? k.id = none := by
    by_contra hne
    obtain ⟨d, hd⟩ := Option.ne_none_iff_exists'.mp hne
    have hnew := hc.handleNew k hk d (Scope.mem_parts_of_find? hd)
    exact hnew (Scope.defId?_of_find? hd)
  simp [Scope.resolve, Handle.ref, hnone]

end Consistent

/-! ## References to what has been completed -/

/-- What is mentioned by no component is not referred to by any part. -/
theorem Scope.target?_ne_of_not_mentions {S : Scope} {id : DefId} {t p : Ty}
    (ht : t.target? = none) (h : ∀ c ∈ t.components, ¬S.mentions id c = true)
    (hp : p ∈ t.parts) : p.target? ≠ some id := by
  intro htarget
  rcases Ty.mem_parts_iff.mp hp with rfl | ⟨c, hc, hp⟩
  · rw [ht] at htarget
    cases htarget
  · have hmem : id ∈ c.references := by
      rw [Ty.references_eq]
      exact (Ty.mem_references_contents c).mpr ⟨p, hp, htarget⟩
    have hreach : id ∈ S.reach c.references := subset_saturate id hmem
    exact h c hc (by simp [mentions, hreach])

namespace Handle

/-- Only a definition that is not mentioned gets a label without its
identity. -/
theorem label?_id? {h : Handle} {recursive : Bool} {label : Label}
    (hl : h.label? recursive = some label) :
    label.id? = some h.id ∨ recursive = false := by
  cases recursive with
  | false => exact Or.inr rfl
  | true =>
      rcases label?_cases hl with rfl | ⟨name, -, rfl⟩
      · unfold label? at hl
        split at hl <;> simp_all
      · exact Or.inl rfl

/-- `t` has the label that `h` gives to what has its members. -/
def Labels (h : Handle) (t : Ty) : Prop :=
  t.target? = none ∧ ∃ (S : Scope) (label : Label), t.defId? = label.id?
    ∧ h.label? (t.components.any (S.mentions h.id)) = some label

theorem defineStruct_labels {h : Handle} {held : List Ty}
    {fields : List (String × Ty)} {t : Ty}
    (hok : h.defineStruct held fields = .ok t) : h.Labels t := by
  obtain ⟨label, rfl, -, hlabel, -⟩ := exists_label_of_defineStruct hok
  refine ⟨rfl, Scope.ofHeld (held ++ fields.map Prod.snd), label, rfl, ?_⟩
  rwa [Ty.components, List.any_map]

theorem defineUnion_labels {h : Handle} {held variants : List Ty} {t : Ty}
    (hok : h.defineUnion held variants = .ok t) : h.Labels t := by
  obtain ⟨label, rfl, -, hlabel, -⟩ := exists_label_of_defineUnion hok
  exact ⟨rfl, _, label, rfl, hlabel⟩

/-- What gets its label by whether its members mention the handle has the
identity of the handle, or no part of it refers to the handle. -/
theorem Labels.refers {h : Handle} {t : Ty} (hlabels : h.Labels t) :
    t.defId? = some h.id ∨ ∀ p ∈ t.parts, p.target? ≠ some h.id := by
  obtain ⟨ht, S, label, hid, hlabel⟩ := hlabels
  rw [hid]
  refine (label?_id? hlabel).imp_right fun hplain p hp => ?_
  exact Scope.target?_ne_of_not_mentions ht (List.any_eq_false.mp hplain) hp

end Handle

namespace TypeExpr

theorem evalList_singleton {Γ : Context} {e : TypeExpr} {t : Ty}
    (h : eval Γ e = .ok t) : evalList Γ [e] = .ok [t] := by
  rw [evalList, h]
  rfl

/-- The expressions that begin a definition. -/
def isDefinition : TypeExpr → Bool
  | .defineStruct .. | .defineUnion .. => true
  | _ => false

theorem eval_refers {e : TypeExpr} (he : e.isDefinition = true) {Γ : Context}
    {t : Ty} (h : eval Γ e = .ok t) :
    t.defId? = some Γ.fresh ∨ ∀ p ∈ t.parts, p.target? ≠ some Γ.fresh := by
  cases e with
  | defineStruct name lets fields =>
      rw [eval] at h
      obtain ⟨Δ, -, h⟩ := exists_of_bind_eq_ok h
      obtain ⟨fs, -, h⟩ := exists_of_bind_eq_ok h
      exact (Handle.defineStruct_labels (Fault.lift_ok h)).refers
  | defineUnion name lets variants =>
      rw [eval] at h
      obtain ⟨Δ, -, h⟩ := exists_of_bind_eq_ok h
      obtain ⟨vs, -, h⟩ := exists_of_bind_eq_ok h
      exact (Handle.defineUnion_labels (Fault.lift_ok h)).refers
  | _ => cases he

/-- What refers to a definition that has just been completed refers to
what was completed. -/
theorem resolve_completed {Γ : Context} (hΓ : Γ.Valid) {e : TypeExpr}
    (he : e.isDefinition = true) {t : Ty} (h : eval Γ e = .ok t)
    {form : Form} {name : String}
    (hr : .ref form name Γ.fresh ∈ Ty.partsOfList (Γ.held ++ [t])) :
    Ty.DefinitionOf form name Γ.fresh t
      ∧ (Γ.scope [t]).resolve (.ref form name Γ.fresh) = t := by
  have hvalid : (Γ.holdAll [t]).Valid := e.eval_valid hΓ h
  have hc := hvalid.consistent
  have ht : t ∈ Ty.partsOfList (Γ.held ++ [t]) :=
    Ty.mem_partsOfList_self (by simp)
  -- nothing that was held before knows the identity
  have hinside : .ref form name Γ.fresh ∈ t.parts := by
    rw [Ty.partsOfList_append, List.mem_append] at hr
    rcases hr with hr | hr
    · exact absurd (Context.lt_fresh (Or.inl ⟨_, hr, Or.inl rfl⟩))
        (Nat.lt_irrefl _)
    · simpa [Ty.partsOfList] using hr
  have hid : t.defId? = some Γ.fresh :=
    (eval_refers he h).resolve_right fun hnone => hnone _ hinside rfl
  have hname := hc.named form name Γ.fresh t hr ht hid
  refine ⟨Ty.definitionOf_of_nominal? hid hname, ?_⟩
  have hfind : (Γ.scope [t]).find? Γ.fresh = some t :=
    Scope.find?_of_part hc ht hid
  simp [Scope.resolve, hfind]

end TypeExpr

/-! ## Every moment -/

/-- At every moment, a reference that is held leads nowhere or to a
recursive definition of its form, name and identity, which it is equal to;
the handles of what is under construction lead nowhere. Whatever refers to
a definition when it is completed leads to it, so that a definition that
was taken for a plain one is not referred to. -/
theorem self_references :
    (∀ held handles, Moment held handles →
      (∀ form name id, .ref form name id ∈ Ty.partsOfList held →
        (Scope.ofHeld held).resolve (.ref form name id) = .ref form name id
        ∨ ∃ d ∈ Ty.partsOfList held, Ty.DefinitionOf form name id d
            ∧ (Scope.ofHeld held).resolve (.ref form name id) = d
            ∧ (Ty.ref form name id == d) = true
            ∧ (d == Ty.ref form name id) = true)
      ∧ ∀ k ∈ handles, (Scope.ofHeld held).resolve k.ref = k.ref)
    ∧ ∀ Γ e t, Γ.Arises → e.isDefinition = true → TypeExpr.eval Γ e = .ok t →
        ∀ form name, .ref form name Γ.fresh ∈ Ty.partsOfList (Γ.held ++ [t]) →
          Ty.DefinitionOf form name Γ.fresh t
          ∧ (Γ.scope [t]).resolve (.ref form name Γ.fresh) = t := by
  refine ⟨fun held handles hmoment => ⟨fun form name id hr => ?_, ?_⟩, ?_⟩
  · refine (hmoment.consistent.resolve_ref hr).imp_right ?_
    rintro ⟨d, hd, hdef, hresolve⟩
    exact ⟨d, hd, hdef, hresolve, hdef.beq id⟩
  · exact fun k hk => hmoment.consistent.resolve_handle hk
  · exact fun Γ e t hΓ he h form name => TypeExpr.resolve_completed hΓ.valid he h

/-- A union `B` inside of a struct `A`, each referring to both. While `B`
is checked neither can be followed. When `A` is complete both can, and when
only `B` is kept `A` no longer can. -/
theorem resolve_nested :
    let A : Handle := ⟨.struct, some "A", 1⟩
    let B : Handle := ⟨.union, some "B", 2⟩
    let variants : List Ty := [.null, .array B.ref, .array A.ref]
    let u : Ty := .union (.recursive "B" 2) variants
    let t : Ty := .struct (.recursive "A" 1) [("f", u)]
    ((Scope.ofHeld variants).resolve B.ref = B.ref
      ∧ (Scope.ofHeld variants).resolve A.ref = A.ref)
    ∧ ((Scope.ofHeld [t]).resolve A.ref = t
      ∧ (Scope.ofHeld [t]).resolve B.ref = u
      ∧ (B.ref == u) = true ∧ (u == B.ref) = true)
    ∧ (Scope.ofHeld [u]).resolve A.ref = A.ref := by
  intro A B variants u t
  obtain ⟨hmoments, hcompleted⟩ := self_references
  have hempty : Session.empty.context.Arises := .session .empty
  have hinside : (Session.empty.context.enter A).Arises :=
    hempty.define .struct (some "A")
  have hlets : TypeExpr.evalLets ((Session.empty.context.enter A).enter B) []
      = .ok ((Session.empty.context.enter A).enter B) := by
    rw [TypeExpr.evalLets]
  have hmembers : TypeExpr.evalList
      ((Session.empty.context.enter A).enter B)
      [.null, .array (.self 0), .array (.self 1)] = .ok variants := by cbv
  have hcheck : Moment (Ty.distinct variants) [B, A] :=
    .checkUnion hinside hlets hmembers
  have hdistinct : Ty.distinct variants = variants := by cbv
  rw [hdistinct] at hcheck
  have heval : TypeExpr.eval Session.empty.context (.defineStruct (some "A") []
      [("f", .defineUnion (some "B") []
        [.null, .array (.self 0), .array (.self 1)])]) = .ok t := by cbv
  have hdone : Moment [t] [] :=
    .evaluated hempty (TypeExpr.evalList_singleton heval)
  have hparts : Ty.partsOfList [t] = t :: Ty.partsOfList [u] := rfl
  have hinner : Ty.partsOfList [u]
      = [u, .null, .array B.ref, B.ref, .array A.ref, A.ref] := rfl
  have hkept : Moment [u] [] := hdone.giveUp (by simp [hparts, hinner])
  have hfollow : (Scope.ofHeld [t]).resolve B.ref = u := by cbv
  refine ⟨⟨?_, ?_⟩, ⟨?_, hfollow, ?_⟩, ?_⟩
  · exact (hmoments _ _ hcheck).2 B (by simp)
  · exact (hmoments _ _ hcheck).2 A (by simp)
  · refine (hcompleted _ _ t hempty rfl heval .struct "A" ?_).2
    show A.ref ∈ Ty.partsOfList [t]
    simp [hparts, hinner]
  · have hmem : B.ref ∈ Ty.partsOfList [t] := by simp [hparts, hinner]
    rcases (hmoments _ _ hdone).1 .union "B" 2 hmem with hnone | ⟨d, h⟩
    · have hne : u ≠ B.ref := by simp [u, Handle.ref]
      exact absurd (hfollow.symm.trans hnone) hne
    · exact hfollow.symm.trans h.2.2.1 ▸ h.2.2.2
  · have hmem : A.ref ∈ Ty.partsOfList [u] := by simp [hinner]
    rcases (hmoments _ _ hkept).1 .struct "A" 1 hmem with hnone | ⟨d, h⟩
    · exact hnone
    · cases h.2.1
      simp [hinner, u, Handle.ref] at h

end Schemata
