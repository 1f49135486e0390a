import Mathlib
import Schemata.Proofs.SelfReference

/-!
# Whatever is built is well formed

`Ty.Derivable` is the closure of nothing under the operations that yield
types, with one rule for each operation. The rules ask for nothing but that
the operation succeeds on types that are derivable themselves. In
particular they leave open what is held: null may be added, a reference
followed and a definition checked in any scope, so that a handle may be
used long before it can be followed, or when it no longer can.

Two facts are carried through the rules together, for every part of a type
(`Ty.Sealed`): it is regular, and if it is a recursive definition then
there is a reference inside of it. Where an operation puts a plain node on
top of what it was given, only the node has to be looked at
(`Ty.sealed_node`). A definition gets its label by what its members
mention, which is where the second fact comes from (`Handle.Labels.tied`).

Nothing else comes about in a session: what is held at any moment is
derivable (`Ty.Constructible.derivable`).
-/

namespace Schemata

/-! ## The operations -/

namespace Ty

/-- The types that the operations lead to. -/
inductive Derivable : Ty → Prop where
  | any : Derivable .any
  | null : Derivable .null
  | scalar {s t} (h : ofScalar s = .ok t) : Derivable t
  | array {t} (ht : Derivable t) : Derivable (.array t)
  | tuple {ts} (hts : ∀ t ∈ ts, Derivable t) : Derivable (.tuple ts)
  | map {key value t} (hkey : Derivable key) (hvalue : Derivable value)
      (h : mapOf key value = .ok t) : Derivable t
  | struct {name fields t} (hfields : ∀ c ∈ fields.map Prod.snd, Derivable c)
      (h : structOf name fields = .ok t) : Derivable t
  | union {name variants t} (hvariants : ∀ v ∈ variants, Derivable v)
      (h : unionOfList name variants = .ok t) : Derivable t
  | unionOf {a b t} (ha : Derivable a) (hb : Derivable b)
      (h : Ty.unionOf a b = .ok t) : Derivable t
  | nullable {t} (S : Scope) (ht : Derivable t) : Derivable (S.nullable t)
  /-- The reference by which a definition is referred to from inside. -/
  | handle (k : Handle) : Derivable k.ref
  | defineStruct {k : Handle} {held fields t} (hform : k.form = .struct)
      (hfields : ∀ c ∈ fields.map Prod.snd, Derivable c)
      (h : k.defineStruct held fields = .ok t) : Derivable t
  | defineUnion {k : Handle} {held variants t} (hform : k.form = .union)
      (hvariants : ∀ v ∈ variants, Derivable v)
      (h : k.defineUnion held variants = .ok t) : Derivable t
  /-- A projection. -/
  | component {c t} (ht : Derivable t) (hc : c ∈ t.components) : Derivable c
  | resolve {held t} (hheld : ∀ u ∈ held, Derivable u) (ht : Derivable t) :
      Derivable ((Scope.ofHeld held).resolve t)
  | natural {v : Value} (hv : v.NamesDistinct) : Derivable v.naturalType
  | schema {s : Schema} {t} (hs : ∀ c ∈ s.types, Derivable c)
      (h : s.structType = .ok t) : Derivable t
  | row {table : Table} {t} (hs : ∀ c ∈ table.schema.types, Derivable c)
      (h : table.rowType = .ok t) : Derivable t
  | returned {r : Registry} {name held input t}
      (hr : ∀ u ∈ r.held, Derivable u)
      (hinput : ∀ c ∈ input.types, Derivable c)
      (h : r.returnType name held input = .ok t) : Derivable t

/-- What is asked of every node of a type. -/
structure Proper (t : Ty) : Prop where
  decimal : ∀ precision scale, t = .scalar (.decimal precision scale) →
    1 ≤ precision ∧ precision ≤ 38 ∧ scale ≤ precision
  char : ∀ length, t = .scalar (.char length) → 1 ≤ length ∧ length ≤ 255
  varchar : ∀ length, t = .scalar (.varchar length) →
    1 ≤ length ∧ length ≤ 65535
  key : ∀ key value, t = .map key value →
    .scalar key ∈ t.components ∧ key.WithinLimits
  fields : ∀ label fields, t = .struct label fields →
    (fields.map Prod.fst).Nodup
  variants : ∀ label variants, t = .union label variants →
    2 ≤ variants.length
      ∧ variants.Pairwise fun v w => (v == w) = false ∧ (w == v) = false
  named : t.isRecursive = true → t.name?.isSome = true

/-- A regular node that, if it is a recursive definition, has a reference
inside of it. -/
structure Sealed (t : Ty) : Prop where
  regular : t.Regular
  tied : t.defId?.isSome = true → ∃ p ∈ t.parts, p.target?.isSome = true

end Ty

/-! ## Labels -/

/-- What mentions anything has a reference inside of it. -/
theorem Scope.exists_reference_of_mentions {S : Scope} {id : DefId} {t : Ty}
    (h : S.mentions id t = true) : ∃ p ∈ t.parts, p.target?.isSome = true := by
  by_contra hnone
  have hempty : ∀ target ∈ t.references, False := by
    intro target hmem
    rw [Ty.references_eq] at hmem
    obtain ⟨p, hp, htarget⟩ := (Ty.mem_references_contents t).mp hmem
    exact hnone ⟨p, hp, by simp [htarget]⟩
  -- from no reference no other one can be reached
  have hreach : ∀ target ∈ S.reach t.references, False := by
    refine saturate_induction (fun known hknown target hmem => ?_) hempty
    obtain ⟨source, hsource, -⟩ := List.mem_flatMap.mp hmem
    exact hknown source hsource
  exact hreach id (by simpa [mentions] using h)

theorem Handle.Labels.tied {h : Handle} {t : Ty} (hlabels : h.Labels t)
    (hid : t.defId?.isSome = true) :
    ∃ p ∈ t.parts, p.target?.isSome = true := by
  obtain ⟨-, S, label, heq, hlabel⟩ := hlabels
  cases hany : t.components.any (S.mentions h.id) with
  | false =>
      rw [hany] at hlabel
      obtain rfl := Option.some.inj hlabel
      rw [heq] at hid
      cases hid
  | true =>
      obtain ⟨c, hc, hmentions⟩ := List.any_eq_true.mp hany
      obtain ⟨p, hp, htarget⟩ := Scope.exists_reference_of_mentions hmentions
      exact ⟨p, Ty.mem_parts_trans hp (Ty.mem_parts_of_component hc), htarget⟩

/-! ## One step for each operation -/

namespace Ty

variable {t : Ty}

theorem Plain.sealed (h : t.Plain) : t.Sealed where
  regular := h.2.2
  tied hid := by
    rw [h.1] at hid
    cases hid

/-- A plain node on top of sealed components. -/
theorem sealed_node (ht : t.Plain)
    (hc : ∀ c ∈ t.components, ∀ p ∈ c.parts, p.Sealed) :
    ∀ p ∈ t.parts, p.Sealed :=
  forall_parts ht.sealed hc

theorem sealed_leaf (ht : t.Plain) (hnil : t.components = []) :
    ∀ p ∈ t.parts, p.Sealed :=
  sealed_node ht (by simp [hnil])

theorem sealed_component {c : Ty} (h : ∀ p ∈ t.parts, p.Sealed)
    (hc : c ∈ t.components) : ∀ p ∈ c.parts, p.Sealed :=
  fun p hp => h p (mem_parts_trans hp (mem_parts_of_component hc))

theorem sealed_structOf {name : Option String} {fields : List (String × Ty)}
    (hfields : ∀ c ∈ fields.map Prod.snd, ∀ p ∈ c.parts, p.Sealed)
    (h : structOf name fields = .ok t) : ∀ p ∈ t.parts, p.Sealed := by
  obtain ⟨rfl, hnd⟩ := structOf_ok h
  exact sealed_node ⟨rfl, rfl, hnd⟩ hfields

theorem sealed_unionOfList {name : Option String} {variants : List Ty}
    (hvariants : ∀ v ∈ variants, ∀ p ∈ v.parts, p.Sealed)
    (h : unionOfList name variants = .ok t) : ∀ p ∈ t.parts, p.Sealed := by
  obtain ⟨rfl, hregular⟩ := unionOfList_ok h
  refine sealed_node ⟨rfl, rfl, hregular⟩ fun v hv => ?_
  exact hvariants v (mem_of_mem_distinct hv)

theorem sealed_flattened (h : ∀ p ∈ t.parts, p.Sealed) :
    ∀ v ∈ t.flattened, ∀ p ∈ v.parts, p.Sealed := by
  intro v hv
  rcases mem_flattened hv with rfl | hv
  · exact h
  · exact sealed_component h hv

theorem sealed_nullable (S : Scope) (h : ∀ p ∈ t.parts, p.Sealed) :
    ∀ p ∈ (S.nullable t).parts, p.Sealed := by
  rcases S.nullable_cases (h t (mem_parts_self t)).regular with
    heq | ⟨variants, heq, hregular, hvariants⟩
  · rwa [heq]
  · rw [heq]
    refine sealed_node ⟨rfl, rfl, hregular⟩ fun v hv => ?_
    rcases hvariants v hv with rfl | rfl | hv
    · exact sealed_leaf ⟨rfl, rfl, trivial⟩ rfl
    · exact h
    · exact sealed_component h hv

/-- What a handle is completed to, on top of sealed members. -/
theorem sealed_completed {k : Handle} (hdone : k.Completed t)
    (hlabels : k.Labels t)
    (hc : ∀ c ∈ t.components, ∀ p ∈ c.parts, p.Sealed) :
    ∀ p ∈ t.parts, p.Sealed :=
  forall_parts ⟨hdone.regular, hlabels.tied⟩ hc

theorem sealed_resolve {held : List Ty}
    (hheld : ∀ u ∈ held, ∀ p ∈ u.parts, p.Sealed)
    (h : ∀ p ∈ t.parts, p.Sealed) :
    ∀ p ∈ ((Scope.ofHeld held).resolve t).parts, p.Sealed := by
  rcases (Scope.ofHeld held).resolve_cases t with
    heq | ⟨_, _, id, d, -, hd, heq⟩
  · rwa [heq]
  · rw [heq]
    obtain ⟨u, hu, hdu⟩ := mem_partsOfList.mp (Scope.mem_parts_of_find? hd)
    exact fun p hp => hheld u hu p (mem_parts_trans hp hdu)

theorem sealed_returns {f : Function} {input : Schema}
    (hf : ∀ u ∈ f.held, ∀ p ∈ u.parts, p.Sealed)
    (hinput : ∀ c ∈ input.types, ∀ p ∈ c.parts, p.Sealed)
    (h : f.Returns input t) : ∀ p ∈ t.parts, p.Sealed := by
  induction h with
  | constant hmem => exact hf _ hmem
  | column hmem => exact hinput _ hmem
  | double => exact sealed_leaf ⟨rfl, rfl, trivial⟩ rfl
  | struct hok => exact sealed_structOf (input.map_snd_fields ▸ hinput) hok
  | tuple => exact sealed_node ⟨rfl, rfl, trivial⟩ hinput
  | union hok => exact sealed_unionOfList hinput hok
  | nullable S _ ih => exact sealed_nullable S ih

/-! ## All operations -/

theorem Derivable.sealed (h : t.Derivable) : ∀ p ∈ t.parts, p.Sealed := by
  induction h with
  | any => exact sealed_leaf ⟨rfl, rfl, trivial⟩ rfl
  | null => exact sealed_leaf ⟨rfl, rfl, trivial⟩ rfl
  | scalar hok =>
      obtain ⟨s, rfl, hs⟩ := ofScalar_ok hok
      exact sealed_leaf ⟨rfl, rfl, hs⟩ rfl
  | array _ ih => exact sealed_node ⟨rfl, rfl, trivial⟩ (by simpa [components])
  | tuple _ ih => exact sealed_node ⟨rfl, rfl, trivial⟩ ih
  | map _ _ hok ihkey ihvalue =>
      obtain ⟨s, rfl, rfl⟩ := mapOf_ok hok
      refine sealed_node ⟨rfl, rfl, trivial⟩ ?_
      rw [components, List.forall_mem_cons, List.forall_mem_singleton]
      exact ⟨ihkey, ihvalue⟩
  | struct _ hok ih => exact sealed_structOf ih hok
  | union _ hok ih => exact sealed_unionOfList ih hok
  | unionOf _ _ hok iha ihb =>
      refine sealed_unionOfList (fun v hv => ?_) hok
      rcases List.mem_append.mp hv with hv | hv
      · exact sealed_flattened iha v hv
      · exact sealed_flattened ihb v hv
  | nullable S _ ih => exact sealed_nullable S ih
  | handle k =>
      have href : k.ref.Sealed := ⟨trivial, fun hid => by cases hid⟩
      exact forall_parts href fun _ hc => (List.not_mem_nil hc).elim
  | defineStruct hform _ hok ih =>
      obtain ⟨hdone, hcomponents⟩ := Handle.defineStruct_ok hform hok
      refine sealed_completed hdone (Handle.defineStruct_labels hok) ?_
      exact hcomponents ▸ ih
  | defineUnion hform _ hok ih =>
      obtain ⟨hdone, hcomponents⟩ := Handle.defineUnion_ok hform hok
      refine sealed_completed hdone (Handle.defineUnion_labels hok) ?_
      exact fun c hc => ih c (mem_of_mem_distinct (hcomponents ▸ hc))
  | component _ hc ih => exact sealed_component ih hc
  | resolve _ _ ihheld ih => exact sealed_resolve ihheld ih
  | natural hv => exact fun p hp => (Value.naturalType_plain hv p hp).sealed
  | @schema s _ _ hok ih => exact sealed_structOf (s.map_snd_fields ▸ ih) hok
  | @row table _ _ hok ih =>
      exact sealed_structOf (table.schema.map_snd_fields ▸ ih) hok
  | returned _ _ hok ihr ihinput =>
      obtain ⟨f, hf, hreturns⟩ := Registry.returns_of_returnType hok
      exact sealed_returns (fun u hu => ihr u (hf u hu)) ihinput hreturns

theorem Derivable.wellFormed (h : t.Derivable) : t.WellFormed :=
  fun p hp => (h.sealed p hp).regular

/-- What a well-formed type says of its top node. -/
theorem WellFormed.proper (h : t.WellFormed) : t.Proper where
  decimal precision scale heq := by
    subst heq
    exact h.regular
  char length heq := by
    subst heq
    exact h.regular
  varchar length heq := by
    subst heq
    exact h.regular
  key key value heq := by
    subst heq
    have hmem : .scalar key ∈ (Ty.map key value).components := by
      simp [components]
    exact ⟨hmem, (h.component hmem).regular⟩
  fields label fields heq := by
    subst heq
    exact h.regular
  variants label variants heq := by
    subst heq
    obtain ⟨hlength, hpairwise⟩ := h.regular
    refine ⟨hlength, hpairwise.imp_of_mem fun {v w} hv _ hne => ⟨?_, hne⟩⟩
    -- the other direction, since equality is symmetric
    by_contra heq
    have hvw : (v == w) = true := by simpa using heq
    rw [beq_symm (h.component hv) hvw] at hne
    cases hne
  named hrec := by
    cases t with
    | struct label fields =>
        cases label with
        | plain name => cases hrec
        | recursive name id => rfl
    | union label variants =>
        cases label with
        | plain name => cases hrec
        | recursive name id => rfl
    | ref form name target => rfl
    | _ => cases hrec

theorem Derivable.part {p : Ty} (h : t.Derivable) (hp : p ∈ t.parts) :
    p.Derivable := by
  induction t using component_induction with
  | step t ih =>
      rcases mem_parts_iff.mp hp with rfl | ⟨c, hc, hp⟩
      · exact h
      · exact ih c hc (h.component hc) hp

end Ty

/-! ## What a session can hold -/

/-- Everything that is held is derivable. -/
structure Context.Derives (Γ : Context) : Prop where
  types : ∀ t ∈ Γ.held, t.Derivable
  values : ∀ entry ∈ Γ.values, entry.2.NamesDistinct

namespace Context.Derives

variable {Γ : Context} {t : Ty}

theorem holdAll {ts : List Ty} (h : Γ.Derives)
    (hts : ∀ t ∈ ts, t.Derivable) : (Γ.holdAll ts).Derives where
  types u hu := by
    simp only [held, Context.holdAll, List.mem_append] at hu
    rcases hu with hu | hu | hu
    · exact h.types u (List.mem_append_left _ hu)
    · exact hts u hu
    · exact h.types u (List.mem_append_right _ hu)
  values := h.values

theorem hold (h : Γ.Derives) (ht : t.Derivable) : (Γ.hold t).Derives :=
  h.holdAll (List.forall_mem_singleton.mpr ht)

theorem bind (h : Γ.Derives) (name : String) (ht : t.Derivable) :
    (Γ.bind name t).Derives where
  types := List.forall_mem_cons.mpr ⟨ht, h.types⟩
  values := h.values

theorem enter (h : Γ.Derives) (k : Handle) : (Γ.enter k).Derives :=
  ⟨h.types, h.values⟩

/-- An operand may be held besides. -/
theorem scope (h : Γ.Derives) (ht : t.Derivable) :
    ∀ u ∈ Γ.held ++ [t], u.Derivable := by
  intro u hu
  rcases List.mem_append.mp hu with hu | hu
  · exact h.types u hu
  · exact List.mem_singleton.mp hu ▸ ht

end Context.Derives

namespace TypeExpr

open Context Ty

theorem derivable_rules :
    Rules (fun Γ t => Γ.Derives → t.Derivable)
      (fun Γ ts => Γ.Derives → ∀ t ∈ ts, t.Derivable)
      (fun Γ Δ => Γ.Derives → Δ.Derives) where
  any _ := .any
  null _ := .null
  scalar hok _ := .scalar hok
  array ht hΓ := .array (ht hΓ)
  tuple hts hΓ := .tuple (hts hΓ)
  map hboth hok hΓ := by
    obtain ⟨hkey, hvalue⟩ := List.forall_mem_cons.mp (hboth hΓ)
    exact .map hkey (List.forall_mem_singleton.mp hvalue) hok
  unionOf hboth hok hΓ := by
    obtain ⟨ha, hb⟩ := List.forall_mem_cons.mp (hboth hΓ)
    exact .unionOf ha (List.forall_mem_singleton.mp hb) hok
  nullable ht hΓ := .nullable _ (ht hΓ)
  struct hfields hok hΓ := .struct (hfields hΓ) hok
  union hvariants hok hΓ := .union (hvariants hΓ) hok
  defineStruct hlets hfields hok hΓ :=
    .defineStruct rfl (hfields (hlets (hΓ.enter _))) hok
  defineUnion hlets hvariants hok hΓ :=
    .defineUnion rfl (hvariants (hlets (hΓ.enter _))) hok
  handle _ _ := .handle _
  held ht hΓ := hΓ.types _ ht
  component ht hc hΓ := (ht hΓ).component hc
  resolve ht hΓ := .resolve (hΓ.scope (ht hΓ)) (ht hΓ)
  natural {Γ e v} hv hΓ := .natural (e.eval_namesDistinct hΓ.values hv)
  nil _ _ ht := (List.not_mem_nil ht).elim
  cons ht hts hΓ :=
    List.forall_mem_cons.mpr ⟨ht hΓ, hts (hΓ.hold (ht hΓ))⟩
  stay hΓ := hΓ
  bind ht hrest hΓ := hrest (hΓ.bind _ (ht hΓ))

theorem eval_derivable (e : TypeExpr) {Γ : Context} {t : Ty}
    (hΓ : Γ.Derives) (h : eval Γ e = .ok t) : t.Derivable :=
  derivable_rules.eval e h hΓ

theorem evalList_derivable (es : List TypeExpr) {Γ : Context} {ts : List Ty}
    (hΓ : Γ.Derives) (h : evalList Γ es = .ok ts) : ∀ t ∈ ts, t.Derivable :=
  derivable_rules.evalList es h hΓ

theorem evalFields_derivable (es : List (String × TypeExpr)) {Γ : Context}
    {fields : List (String × Ty)} (hΓ : Γ.Derives)
    (h : evalFields Γ es = .ok fields) :
    ∀ c ∈ fields.map Prod.snd, c.Derivable :=
  derivable_rules.evalFields es h hΓ

theorem evalLets_derivable (es : List (String × TypeExpr)) {Γ Δ : Context}
    (hΓ : Γ.Derives) (h : evalLets Γ es = .ok Δ) : Δ.Derives :=
  derivable_rules.evalLets es h hΓ

end TypeExpr

theorem Session.Reachable.derives {s : Session} (h : s.Reachable) :
    s.context.Derives := by
  refine ⟨?_, h.valid.values⟩
  induction h with
  | empty => exact fun _ ht => (List.not_mem_nil ht).elim
  | perform hs h ih =>
      obtain ⟨e, t, ht, hheld⟩ := perform_held h
      intro u hu
      rcases hheld u hu with rfl | rfl | hu
      · exact e.eval_derivable ⟨ih, hs.valid.values⟩ ht
      · have hok : Ty.ofScalar .bigInt = .ok (.scalar .bigInt) := rfl
        exact .scalar hok
      · exact ih u hu

theorem Context.Arises.derives {Γ : Context} (h : Γ.Arises) : Γ.Derives := by
  induction h with
  | session hs => exact hs.derives
  | operands _ h ih => exact ih.holdAll (TypeExpr.evalList_derivable _ ih h)
  | letIn _ name h ih => exact ih.bind name (TypeExpr.eval_derivable _ ih h)
  | define _ form name ih => exact ih.enter _

/-- Everything that is held at a moment is derivable. -/
theorem Moment.derivable {held : List Ty} {handles : List Handle}
    (h : Moment held handles) : ∀ t ∈ held, t.Derivable := by
  induction h with
  | idle hs => exact hs.derives.types
  | evaluated hΓ h =>
      exact List.forall_mem_append.mpr
        ⟨hΓ.derives.types, TypeExpr.evalList_derivable _ hΓ.derives h⟩
  | checkStruct hΓ hΔ h =>
      have hΔ := TypeExpr.evalLets_derivable _ (hΓ.derives.enter _) hΔ
      exact List.forall_mem_append.mpr
        ⟨hΓ.derives.types, TypeExpr.evalFields_derivable _ hΔ h⟩
  | checkUnion hΓ hΔ h =>
      have hΔ := TypeExpr.evalLets_derivable _ (hΓ.derives.enter _) hΔ
      refine List.forall_mem_append.mpr ⟨hΓ.derives.types, fun v hv => ?_⟩
      exact TypeExpr.evalList_derivable _ hΔ h v (Ty.mem_of_mem_distinct hv)
  | @returned s _ _ _ _ _ hs hinput h =>
      obtain ⟨cs, hcs, htypes⟩ := Session.evalSchema_types hinput
      have hcolumns := TypeExpr.evalFields_derivable _ hs.derives hcs
      rw [← htypes] at hcolumns
      have hregistry : ∀ u ∈ s.registry.held, u.Derivable :=
        fun u hu => hs.derives.types u (Session.mem_held_iff.mpr (Or.inr hu))
      refine List.forall_mem_append.mpr ⟨hs.derives.types, ?_⟩
      exact List.forall_mem_cons.mpr ⟨.returned hregistry hcolumns h, hcolumns⟩
  | giveUp _ hkept ih =>
      intro t ht
      obtain ⟨u, hu, ht⟩ := Ty.mem_partsOfList.mp (hkept t ht)
      exact (ih u hu).part ht

theorem Ty.Constructible.derivable {t : Ty} (h : t.Constructible) :
    t.Derivable := by
  obtain ⟨held, handles, hmoment, ht⟩ := h
  obtain ⟨u, hu, ht⟩ := Ty.mem_partsOfList.mp ht
  exact (hmoment.derivable u hu).part ht

/-- Whatever the operations lead to, in a session or outside of one, is
well formed at every node. -/
theorem Ty.parts_proper :
    (∀ t : Ty, t.Constructible → t.Derivable)
      ∧ ∀ t : Ty, t.Derivable → ∀ p ∈ t.parts, p.Proper :=
  ⟨fun _ h => h.derivable, fun _ h _ hp => (h.wellFormed.part hp).proper⟩

/-- A list whose rest may be null: null is added to the handle while it
cannot be followed. -/
theorem Ty.parts_proper_list :
    let k : Handle := ⟨.struct, some "List", 1⟩
    let rest : Ty := .union (.plain none) [k.ref, .null]
    let t : Ty := .struct (.recursive "List" 1)
      [("head", .scalar (.decimal 38 2)), ("rest", rest)]
    TypeExpr.eval Session.empty.context (.defineStruct (some "List") []
        [("head", .decimal 38 2), ("rest", .nullable (.self 0))]) = .ok t
      ∧ t.Constructible ∧ t.Derivable ∧ rest ∈ t.parts ∧ rest.Proper
      ∧ t.Proper := by
  intro k rest t
  have heval : TypeExpr.eval Session.empty.context
      (.defineStruct (some "List") []
        [("head", .decimal 38 2), ("rest", .nullable (.self 0))]) = .ok t := by
    cbv
  have harises : Session.empty.context.Arises := .session .empty
  have hbuilt : t.Constructible :=
    harises.constructible (TypeExpr.evalList_singleton heval)
      (List.mem_singleton.mpr rfl)
  have hderivable : t.Derivable := parts_proper.1 t hbuilt
  have hrest : rest ∈ t.parts := mem_parts_of_component (by simp [t, components])
  refine ⟨heval, hbuilt, hderivable, hrest, ?_, ?_⟩
  · exact parts_proper.2 t hderivable rest hrest
  · exact parts_proper.2 t hderivable t (mem_parts_self t)

end Schemata
