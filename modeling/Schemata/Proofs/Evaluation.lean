import Mathlib
import Schemata.Proofs.EvaluationRules

/-!
# Everything a session can hold is consistent

Types come into being by the evaluation of expressions, some of them
inside of definitions that are not complete. `Context.Valid` is the
invariant of a context: the parts of all held types are consistent with
the definitions under construction, and the stored values have distinct
field names.

Evaluation keeps it (`TypeExpr.valid_rules`). Each rule
either hands out a part of what is held (`Valid.holdPart`), puts a plain
node on top of it (`Valid.holdNode`), hands out a handle, or completes a
definition (`Valid.complete`); identities are new where a definition
begins (`Context.lt_fresh`). What follows for a session is that every
action keeps it (`Session.perform_valid`), so that it holds in every
session that can be reached (`Session.Reachable.valid`).
-/

namespace Schemata

/-- What a reference is followed to is a part of what is held. -/
theorem Scope.resolve_mem_parts {held : List Ty} {t : Ty}
    (ht : t ∈ Ty.partsOfList held) :
    (Scope.ofHeld held).resolve t ∈ Ty.partsOfList held := by
  rcases (ofHeld held).resolve_cases t with heq | ⟨_, _, id, d, rfl, hd, hr⟩
  · rw [heq]
    exact ht
  · rw [hr]
    exact mem_parts_of_find? hd

namespace Context

/-! ## What is at hand -/

/-- The context in which all of `ts` are held. -/
def holdAll (Γ : Context) (ts : List Ty) : Context :=
  { Γ with operands := ts ++ Γ.operands }

/-- `p` is a part of something held. -/
def Here (Γ : Context) (p : Ty) : Prop := p ∈ Ty.partsOfList Γ.held

theorem here_iff {Γ : Context} {p : Ty} :
    Γ.Here p ↔ ∃ t ∈ Γ.held, p ∈ t.parts :=
  Ty.mem_partsOfList

theorem here_holdAll {Γ : Context} {ts : List Ty} {p : Ty} :
    (Γ.holdAll ts).Here p ↔ p ∈ Ty.partsOfList ts ∨ Γ.Here p := by
  simp only [Here, holdAll, held, Ty.partsOfList_append, List.mem_append]
  tauto

theorem here_hold {Γ : Context} {t p : Ty} :
    (Γ.hold t).Here p ↔ p ∈ t.parts ∨ Γ.Here p := by
  refine Iff.trans (@here_holdAll Γ [t] p) ?_
  simp [Ty.partsOfList]

theorem here_bind {Γ : Context} {name : String} {t p : Ty} :
    (Γ.bind name t).Here p ↔ p ∈ t.parts ∨ Γ.Here p := by
  simp [Here, bind, held, Ty.partsOfList_append, Ty.partsOfList]

theorem Here.part {Γ : Context} {p t : Ty} (h : Γ.Here t)
    (hp : p ∈ t.parts) : Γ.Here p :=
  Ty.mem_partsOfList_trans hp h

theorem Here.component {Γ : Context} {c t : Ty} (h : Γ.Here t)
    (hc : c ∈ t.components) : Γ.Here c :=
  h.part (Ty.mem_parts_of_component hc)

theorem here_held {Γ : Context} {t : Ty} (h : t ∈ Γ.held) : Γ.Here t :=
  Ty.mem_partsOfList_self h

theorem here_of_mem_holdAll {Γ : Context} {ts : List Ty} {t : Ty}
    (h : t ∈ ts) : (Γ.holdAll ts).Here t :=
  here_holdAll.mpr (Or.inl (Ty.mem_partsOfList_self h))

/-- A node brings nothing new but itself, if its components are at hand. -/
theorem here_hold_cases {Γ Δ : Context} {t p : Ty}
    (hsub : ∀ q, Γ.Here q → Δ.Here q) (hc : ∀ c ∈ t.components, Δ.Here c)
    (hp : (Γ.hold t).Here p) : p = t ∨ Δ.Here p := by
  rcases here_hold.mp hp with hp | hp
  · rcases Ty.mem_parts_iff.mp hp with rfl | ⟨c, hmem, hp⟩
    · exact Or.inl rfl
    · exact Or.inr ((hc c hmem).part hp)
  · exact Or.inr (hsub p hp)

/-! ## New identities -/

theorem le_foldl_max {ids : List DefId} : ∀ {start : Nat},
    start ≤ ids.foldl max start ∧ ∀ id ∈ ids, id ≤ ids.foldl max start := by
  induction ids with
  | nil => simp
  | cons i ids ih =>
      intro start
      obtain ⟨hstart, hids⟩ := @ih (max start i)
      rw [List.foldl_cons]
      refine ⟨Nat.le_trans (Nat.le_max_left ..) hstart, fun id hid => ?_⟩
      rcases List.mem_cons.mp hid with rfl | hid
      · exact Nat.le_trans (Nat.le_max_right ..) hstart
      · exact hids id hid

/-- Everything at hand has an identity below the next one. -/
theorem lt_fresh {Γ : Context} {id : DefId}
    (h : (∃ p, Γ.Here p ∧ (p.target? = some id ∨ p.defId? = some id))
      ∨ id ∈ Γ.handles.map Handle.id) : id < Γ.fresh := by
  refine Nat.lt_succ_of_le (le_foldl_max.2 id ?_)
  rw [Ty.contentsOf_eq]
  simp only [List.mem_append]
  rcases h with ⟨p, hp, htarget | hdef⟩ | h
  · have hmem := (Ty.mem_references_list Γ.held).mpr ⟨p, hp, htarget⟩
    exact Or.inl (Or.inl hmem)
  · obtain ⟨d, hd, hid⟩ := (Ty.defines_list Γ.held).mpr ⟨p, hp, hdef⟩
    exact Or.inl (Or.inr (List.mem_filterMap.mpr ⟨d, hd, hid⟩))
  · exact Or.inr h

/-! ## Valid contexts -/

structure Valid (Γ : Context) : Prop where
  types : Consistent Γ.Here Γ.handles
  values : ∀ entry ∈ Γ.values, entry.2.NamesDistinct

/-- `Δ` holds more than `Γ`, inside of the same definitions. -/
structure Extends (Γ Δ : Context) : Prop where
  handles : Δ.handles = Γ.handles
  values : Δ.values = Γ.values
  here : ∀ p, Γ.Here p → Δ.Here p

namespace Valid

variable {Γ Δ : Context} {t : Ty}

theorem mono (h : Γ.Valid) (hhere : ∀ p, Δ.Here p → Γ.Here p)
    (hhandles : Δ.handles = Γ.handles) (hvalues : Δ.values = Γ.values) :
    Δ.Valid where
  types := hhandles ▸ h.types.mono hhere
  values := hvalues ▸ h.values

/-- A part of what is held. -/
theorem holdPart (us : List Ty) (h : (Γ.holdAll us).Valid)
    (ht : (Γ.holdAll us).Here t) : (Γ.hold t).Valid := by
  refine h.mono (fun p hp => ?_) rfl rfl
  rcases here_hold.mp hp with hp | hp
  · exact ht.part hp
  · exact here_holdAll.mpr (Or.inr hp)

/-- Types that are held one after the other. -/
theorem holdCons {ts : List Ty} (h : ((Γ.hold t).holdAll ts).Valid) :
    (Γ.holdAll (t :: ts)).Valid := by
  refine h.mono (fun p hp => ?_) rfl rfl
  rw [here_holdAll, Ty.partsOfList, List.mem_append] at hp
  rw [here_holdAll, here_hold]
  tauto

/-- A plain node on top of what is held. -/
theorem holdNode (us : List Ty) (h : (Γ.holdAll us).Valid)
    (hplain : t.Plain) (hc : ∀ c ∈ t.components, (Γ.holdAll us).Here c) :
    (Γ.hold t).Valid where
  types := by
    have hadd := h.types.add (· = t) fun p hp => hp ▸ hplain
    have hsub : ∀ p, Γ.Here p → (Γ.holdAll us).Here p :=
      fun p hp => here_holdAll.mpr (Or.inr hp)
    exact hadd.mono fun p hp => here_hold_cases hsub hc hp
  values := h.values

/-- A type all of whose parts are plain. -/
theorem holdPlain (h : Γ.Valid) (hplain : ∀ p ∈ t.parts, p.Plain) :
    (Γ.hold t).Valid where
  types := (h.types.add _ hplain).mono fun _ hp => here_hold.mp hp
  values := h.values

/-- A type that is bound is held as an operand would be. -/
theorem bind (h : (Γ.hold t).Valid) (name : String) : (Γ.bind name t).Valid :=
  h.mono (fun _ hp => here_hold.mpr (here_bind.mp hp)) rfl rfl

theorem holdLeaf (h : Γ.Valid) (hplain : t.Plain) (hnil : t.components = []) :
    (Γ.hold t).Valid :=
  h.holdPlain (Ty.forall_parts hplain (by simp [hnil]))

/-- A scalar type within its limits. -/
theorem holdScalar (h : Γ.Valid) (ht : ∃ s, t = .scalar s ∧ s.WithinLimits) :
    (Γ.hold t).Valid := by
  obtain ⟨s, rfl, hs⟩ := ht
  exact h.holdLeaf ⟨rfl, rfl, hs⟩ rfl

theorem holdHandle {k : Handle} (h : Γ.Valid) (hk : k ∈ Γ.handles) :
    (Γ.hold k.ref).Valid where
  types := by
    refine (h.types.addHandle hk).mono fun p hp => ?_
    refine (here_hold.mp hp).imp_left fun hp => ?_
    simpa [Handle.ref, Ty.parts] using hp
  values := h.values

theorem enterFresh (h : Γ.Valid) (form : Form) (name : Option String) :
    (Γ.enter ⟨form, name, Γ.fresh⟩).Valid where
  types := by
    refine h.types.enter (fun p hp => ⟨fun hid => ?_, fun hid => ?_⟩) ?_
    · exact Nat.lt_irrefl _ (lt_fresh (Or.inl ⟨p, hp, Or.inr hid⟩))
    · exact Nat.lt_irrefl _ (lt_fresh (Or.inl ⟨p, hp, Or.inl hid⟩))
    · exact fun hmem => Nat.lt_irrefl _ (lt_fresh (Or.inr hmem))
  values := h.values

/-- A definition that is complete: local names and the handle are given
up, and what the handle was completed to is held instead. -/
theorem complete {k : Handle} {us : List Ty} (h : (Δ.holdAll us).Valid)
    (hext : (Γ.enter k).Extends Δ) (ht : k.Completed t)
    (hc : ∀ c ∈ t.components, c ∈ us) : (Γ.hold t).Valid where
  types := by
    have hhandles : (Δ.holdAll us).handles = k :: Γ.handles := hext.handles
    have hconsistent := hhandles ▸ h.types
    have hsub : ∀ p, Γ.Here p → (Δ.holdAll us).Here p :=
      fun p hp => here_holdAll.mpr (Or.inr (hext.here p hp))
    have hheld : ∀ c ∈ t.components, (Δ.holdAll us).Here c :=
      fun c hmem => here_of_mem_holdAll (hc c hmem)
    refine (hconsistent.complete ht).mono fun p hp => ?_
    exact here_hold_cases hsub hheld hp
  values := by
    have hvalues : (Δ.holdAll us).values = Γ.values := hext.values
    exact hvalues ▸ h.values

end Valid

end Context

/-! ## Expressions for values -/

namespace ValueExpr

variable {values : List (String × Value)}

mutual

theorem eval_namesDistinct
    (hvalues : ∀ entry ∈ values, entry.2.NamesDistinct) :
    ∀ (e : ValueExpr) {v : Value}, eval values e = .ok v → v.NamesDistinct
  | .malformed, _, h => by cases h
  | .null, _, h => by
      rw [eval] at h
      exact Except.ok.inj h ▸ .null
  | .scalar s, _, h => by
      rw [eval] at h
      exact Except.ok.inj h ▸ .scalar
  | .text kind content, _, h => by
      rw [eval] at h
      exact Value.textOf_namesDistinct (Fault.lift_ok h)
  | .array items, _, h => by
      rw [eval] at h
      obtain ⟨vs, hvs, h⟩ := exists_of_bind_eq_ok h
      exact Except.ok.inj h ▸ .array (evalList_namesDistinct hvalues items hvs)
  | .packed items, _, h => by
      rw [eval] at h
      exact Except.ok.inj h ▸ .packed
  | .tuple items, _, h => by
      rw [eval] at h
      obtain ⟨vs, hvs, h⟩ := exists_of_bind_eq_ok h
      exact Except.ok.inj h ▸ .tuple (evalList_namesDistinct hvalues items hvs)
  | .map entries, _, h => by
      rw [eval] at h
      obtain ⟨es, hes, h⟩ := exists_of_bind_eq_ok h
      exact Value.mapOf_namesDistinct (Fault.lift_ok h)
        (evalEntries_namesDistinct hvalues entries hes)
  | .struct fields, _, h => by
      rw [eval] at h
      obtain ⟨fs, hfs, h⟩ := exists_of_bind_eq_ok h
      obtain rfl := Except.ok.inj h
      exact Value.structOf_namesDistinct
        (evalFields_namesDistinct hvalues fields hfs)
  | .var name, _, h => by
      rw [eval] at h
      exact hvalues _ (mem_of_lookup (Fault.ofOption_ok h))

theorem evalList_namesDistinct
    (hvalues : ∀ entry ∈ values, entry.2.NamesDistinct) :
    ∀ (es : List ValueExpr) {vs : List Value}, evalList values es = .ok vs →
      ∀ v ∈ vs, v.NamesDistinct
  | [], _, h => by
      rw [evalList] at h
      obtain rfl := Except.ok.inj h
      exact fun _ hv => (List.not_mem_nil hv).elim
  | e :: es, _, h => by
      rw [evalList] at h
      obtain ⟨v, hv, h⟩ := exists_of_bind_eq_ok h
      obtain ⟨vs, hvs, h⟩ := exists_of_bind_eq_ok h
      obtain rfl := Except.ok.inj h
      have hrest := evalList_namesDistinct hvalues es hvs
      exact List.forall_mem_cons.mpr ⟨eval_namesDistinct hvalues e hv, hrest⟩

theorem evalEntries_namesDistinct
    (hvalues : ∀ entry ∈ values, entry.2.NamesDistinct) :
    ∀ (es : List (ValueExpr × ValueExpr)) {vs : List (Value × Value)},
      evalEntries values es = .ok vs → ∀ v ∈ vs, v.2.NamesDistinct
  | [], _, h => by
      rw [evalEntries] at h
      obtain rfl := Except.ok.inj h
      exact fun _ hv => (List.not_mem_nil hv).elim
  | (_, e) :: es, _, h => by
      rw [evalEntries] at h
      obtain ⟨k, -, h⟩ := exists_of_bind_eq_ok h
      obtain ⟨v, hv, h⟩ := exists_of_bind_eq_ok h
      obtain ⟨vs, hvs, h⟩ := exists_of_bind_eq_ok h
      obtain rfl := Except.ok.inj h
      have hrest := evalEntries_namesDistinct hvalues es hvs
      exact List.forall_mem_cons.mpr ⟨eval_namesDistinct hvalues e hv, hrest⟩

theorem evalFields_namesDistinct
    (hvalues : ∀ entry ∈ values, entry.2.NamesDistinct) :
    ∀ (es : List (String × ValueExpr)) {vs : List (String × Value)},
      evalFields values es = .ok vs → ∀ v ∈ vs, v.2.NamesDistinct
  | [], _, h => by
      rw [evalFields] at h
      obtain rfl := Except.ok.inj h
      exact fun _ hv => (List.not_mem_nil hv).elim
  | (_, e) :: es, _, h => by
      rw [evalFields] at h
      obtain ⟨v, hv, h⟩ := exists_of_bind_eq_ok h
      obtain ⟨vs, hvs, h⟩ := exists_of_bind_eq_ok h
      obtain rfl := Except.ok.inj h
      have hrest := evalFields_namesDistinct hvalues es hvs
      exact List.forall_mem_cons.mpr ⟨eval_namesDistinct hvalues e hv, hrest⟩

end

end ValueExpr

/-! ## Expressions for types -/

namespace Context

variable {Γ : Context} {t : Ty}

/-- The struct of fields that are held, if their names are distinct. -/
theorem Valid.holdStruct {name : Option String}
    {fields : List (String × Ty)}
    (h : (Γ.holdAll (fields.map Prod.snd)).Valid)
    (hok : Ty.structOf name fields = .ok t) : (Γ.hold t).Valid := by
  obtain ⟨rfl, hnd⟩ := Ty.structOf_ok hok
  exact h.holdNode _ ⟨rfl, rfl, hnd⟩ fun c hc => here_of_mem_holdAll hc

/-- The union of variants that are held, if enough are distinct. -/
theorem Valid.holdUnion {name : Option String} {variants us : List Ty}
    (h : (Γ.holdAll us).Valid)
    (hvariants : ∀ v ∈ variants, (Γ.holdAll us).Here v)
    (hok : Ty.unionOfList name variants = .ok t) : (Γ.hold t).Valid := by
  obtain ⟨rfl, hregular⟩ := Ty.unionOfList_ok hok
  refine h.holdNode _ ⟨rfl, rfl, hregular⟩ fun c hc => ?_
  exact hvariants c (Ty.mem_of_mem_distinct hc)

theorem Valid.holdNullable (h : (Γ.hold t).Valid) (S : Scope) :
    (Γ.hold (S.nullable t)).Valid := by
  have ht : (Γ.hold t).Here t := here_hold.mpr (Or.inl (Ty.mem_parts_self t))
  rcases S.nullable_cases (h.types.regular t ht) with
    heq | ⟨variants, heq, hregular, hvariants⟩
  · rw [heq]
    exact h
  · -- the variants are held, or are `Null`
    have hnull : ((Γ.hold t).hold .null).Valid :=
      h.holdLeaf ⟨rfl, rfl, trivial⟩ rfl
    rw [heq]
    refine Valid.holdNode [.null, t] hnull ⟨rfl, rfl, hregular⟩ fun c hc => ?_
    refine here_holdAll.mpr (Or.inl (Ty.mem_partsOfList.mpr ?_))
    rcases hvariants c hc with rfl | rfl | hcomponent
    · exact ⟨.null, by simp, Ty.mem_parts_self _⟩
    · exact ⟨c, by simp, Ty.mem_parts_self _⟩
    · exact ⟨t, by simp, Ty.mem_parts_of_component hcomponent⟩

end Context

namespace TypeExpr

open Context

/-- A type that was evaluated in a valid context can be held there. -/
theorem valid_rules :
    Rules (fun Γ t => Γ.Valid → (Γ.hold t).Valid)
      (fun Γ ts => Γ.Valid → (Γ.holdAll ts).Valid)
      (fun Γ Δ => Γ.Valid → Δ.Valid ∧ Γ.Extends Δ) where
  any hΓ := hΓ.holdLeaf ⟨rfl, rfl, trivial⟩ rfl
  null hΓ := hΓ.holdLeaf ⟨rfl, rfl, trivial⟩ rfl
  scalar hok hΓ := hΓ.holdScalar (Ty.ofScalar_ok hok)
  array {Γ t} ht hΓ := by
    refine Valid.holdNode [t] (ht hΓ) ⟨rfl, rfl, trivial⟩ fun c hc => ?_
    exact here_of_mem_holdAll hc
  tuple hts hΓ := by
    refine Valid.holdNode _ (hts hΓ) ⟨rfl, rfl, trivial⟩ fun c hc => ?_
    exact here_of_mem_holdAll hc
  map hboth hok hΓ := by
    obtain ⟨s, rfl, rfl⟩ := Ty.mapOf_ok hok
    refine Valid.holdNode _ (hboth hΓ) ⟨rfl, rfl, trivial⟩ fun c hc => ?_
    exact here_of_mem_holdAll hc
  unionOf {Γ a b t} hboth hok hΓ := by
    refine (hboth hΓ).holdUnion (fun v hv => ?_) hok
    have hhere : ∀ r ∈ [a, b], v ∈ r.flattened →
        (Γ.holdAll [a, b]).Here v := by
      intro r hr hv
      rcases Ty.mem_flattened hv with rfl | hv
      · exact here_of_mem_holdAll hr
      · exact (here_of_mem_holdAll hr).component hv
    rcases List.mem_append.mp hv with hv | hv
    · exact hhere a (by simp) hv
    · exact hhere b (by simp) hv
  nullable ht hΓ := (ht hΓ).holdNullable _
  struct hfields hok hΓ := (hfields hΓ).holdStruct hok
  union hvariants hok hΓ :=
    (hvariants hΓ).holdUnion (fun _ hv => here_of_mem_holdAll hv) hok
  defineStruct hlets hfields hok hΓ := by
    obtain ⟨hvalid, hext⟩ := hlets (hΓ.enterFresh ..)
    obtain ⟨hdone, hcomponents⟩ := Handle.defineStruct_ok rfl hok
    exact (hfields hvalid).complete hext hdone fun c hc => hcomponents ▸ hc
  defineUnion hlets hvariants hok hΓ := by
    obtain ⟨hvalid, hext⟩ := hlets (hΓ.enterFresh ..)
    obtain ⟨hdone, hcomponents⟩ := Handle.defineUnion_ok rfl hok
    refine (hvariants hvalid).complete hext hdone fun c hc => ?_
    exact Ty.mem_of_mem_distinct (hcomponents ▸ hc)
  handle hk hΓ := hΓ.holdHandle hk
  held ht hΓ := Valid.holdPart [] hΓ (here_held ht)
  component {Γ t c} ht hc hΓ := by
    refine Valid.holdPart [t] (ht hΓ) (Here.component ?_ hc)
    exact here_of_mem_holdAll (List.mem_singleton.mpr rfl)
  resolve {Γ t} ht hΓ := by
    refine Valid.holdPart [t] (ht hΓ) ?_
    have hheld : t ∈ Γ.held ++ [t] := by simp
    have hmem := Scope.resolve_mem_parts (Ty.mem_partsOfList_self hheld)
    rw [Ty.partsOfList_append, List.mem_append] at hmem
    exact here_holdAll.mpr hmem.symm
  natural {Γ e v} hv hΓ :=
    hΓ.holdPlain (Value.naturalType_plain (e.eval_namesDistinct hΓ.values hv))
  nil hΓ := hΓ
  cons ht hts hΓ := (hts (ht hΓ)).holdCons
  stay hΓ := ⟨hΓ, rfl, rfl, fun _ hp => hp⟩
  bind {Γ Δ name t} ht hrest hΓ := by
    obtain ⟨hvalid, hhandles, hvalues, hsub⟩ := hrest ((ht hΓ).bind name)
    refine ⟨hvalid, hhandles, hvalues, fun p hp => ?_⟩
    exact hsub p (here_bind.mpr (Or.inr hp))

theorem eval_valid (e : TypeExpr) {Γ : Context} {t : Ty} (hΓ : Γ.Valid)
    (h : eval Γ e = .ok t) : (Γ.hold t).Valid :=
  valid_rules.eval e h hΓ

theorem evalList_valid (es : List TypeExpr) {Γ : Context} {ts : List Ty}
    (hΓ : Γ.Valid) (h : evalList Γ es = .ok ts) : (Γ.holdAll ts).Valid :=
  valid_rules.evalList es h hΓ

theorem evalFields_valid (es : List (String × TypeExpr)) {Γ : Context}
    {fields : List (String × Ty)} (hΓ : Γ.Valid)
    (h : evalFields Γ es = .ok fields) :
    (Γ.holdAll (fields.map Prod.snd)).Valid :=
  valid_rules.evalFields es h hΓ

theorem evalLets_valid (es : List (String × TypeExpr)) {Γ Δ : Context}
    (hΓ : Γ.Valid) (h : evalLets Γ es = .ok Δ) : Δ.Valid ∧ Γ.Extends Δ :=
  valid_rules.evalLets es h hΓ

end TypeExpr

/-! ## Sessions -/

namespace Registry

theorem mem_place {f g : Function} {fs : List Function} (h : g ∈ place f fs) :
    g = f ∨ g ∈ fs := by
  induction fs with
  | nil => exact Or.inl (List.mem_singleton.mp h)
  | cons k fs ih =>
      rw [place] at h
      split at h
      · exact List.mem_cons.mp h
      · split at h
        · exact (List.mem_cons.mp h).imp_right (List.mem_cons_of_mem _)
        · rcases List.mem_cons.mp h with rfl | h
          · exact Or.inr (List.mem_cons_self ..)
          · exact (ih h).imp_right (List.mem_cons_of_mem _)

theorem mem_foldl_put {g : Function} {fs : List Function} :
    ∀ {r : Registry}, g ∈ (fs.foldl put r).functions →
      g ∈ fs ∨ g ∈ r.functions := by
  induction fs with
  | nil => exact fun h => Or.inr h
  | cons f fs ih =>
      intro r h
      rcases ih h with h | h
      · exact Or.inl (List.mem_cons_of_mem _ h)
      · rcases mem_place h with rfl | h
        · exact Or.inl (List.mem_cons_self ..)
        · exact Or.inr h

theorem mem_held_withBuiltins {r : Registry} {t : Ty}
    (h : t ∈ r.withBuiltins.held) :
    t = .scalar .bigInt ∨ t ∈ r.held := by
  obtain ⟨g, hg, ht⟩ := List.mem_flatMap.mp h
  rcases mem_foldl_put hg with hg | hg
  · refine Or.inl ?_
    simp only [builtins, List.mem_cons, List.not_mem_nil, or_false] at hg
    rcases hg with rfl | rfl | rfl | rfl | rfl | rfl <;>
      simp_all [Function.held]
  · exact Or.inr (List.mem_flatMap.mpr ⟨g, hg, ht⟩)

theorem mem_held_register {r r' : Registry} {f : Function} {t : Ty}
    (hok : r.register f = .ok r') (h : t ∈ r'.held) :
    t ∈ f.held ∨ t ∈ r.held := by
  unfold register at hok
  split at hok
  · cases hok
  · obtain rfl := Except.ok.inj hok
    obtain ⟨g, hg, ht⟩ := List.mem_flatMap.mp h
    rcases mem_place hg with rfl | hg
    · exact Or.inl ht
    · exact Or.inr (List.mem_flatMap.mpr ⟨g, hg, ht⟩)

end Registry

namespace Session

open Context

theorem mem_held_iff {s : Session} {t : Ty} :
    t ∈ s.context.held ↔
      (∃ entry ∈ s.types, entry.2 = t) ∨ t ∈ s.registry.held := by
  simp [context, Context.held]

theorem mem_of_mem_store {α : Type} {stored : List (String × α)}
    {name : String} {a : α} {entry : String × α}
    (h : entry ∈ store stored name a) :
    entry = (name, a) ∨ entry ∈ stored :=
  (List.mem_cons.mp h).imp_right List.mem_of_mem_filter

/-- The rule of a new function holds nothing but a type that was
evaluated. -/
theorem ruleExpr_eval_held {Γ : Context} {rule : RuleExpr}
    {r : ReturnRule} (h : rule.eval Γ = .ok r) (name : String) :
    ∃ e t, TypeExpr.eval Γ e = .ok t
      ∧ ∀ u ∈ (Function.mk name r).held, u = t := by
  cases rule with
  | constant e =>
      obtain ⟨t, ht, h⟩ := exists_of_bind_eq_ok h
      obtain rfl := Except.ok.inj h
      exact ⟨e, t, ht, fun u hu => List.mem_singleton.mp hu⟩
  | rule q =>
      refine ⟨.null, .null, by rw [TypeExpr.eval], fun u hu => ?_⟩
      cases q with
      | constant t => cases h
      | _ => cases h; cases hu

/-- After an action nothing is held but what was held before, one type
that was evaluated, and `BigInt`. -/
theorem perform_held {s s' : Session} {a : Action}
    (h : s.perform a = .ok s') :
    ∃ e t, TypeExpr.eval s.context e = .ok t
      ∧ ∀ u ∈ s'.context.held,
          u = t ∨ u = .scalar .bigInt ∨ u ∈ s.context.held := by
  -- for the actions that evaluate no type
  have hnull : TypeExpr.eval s.context .null = .ok .null := by
    rw [TypeExpr.eval]
  cases a with
  | storeType name e =>
      obtain ⟨t, ht, h⟩ := exists_of_bind_eq_ok h
      obtain rfl := Except.ok.inj h
      refine ⟨e, t, ht, fun u hu => ?_⟩
      rw [mem_held_iff]
      rcases mem_held_iff.mp hu with ⟨entry, hentry, rfl⟩ | hu
      · rcases mem_of_mem_store hentry with rfl | hentry
        · exact Or.inl rfl
        · exact Or.inr (Or.inr (Or.inl ⟨entry, hentry, rfl⟩))
      · exact Or.inr (Or.inr (Or.inr hu))
  | dropType name =>
      obtain rfl := Except.ok.inj h
      refine ⟨_, _, hnull, fun u hu => Or.inr (Or.inr ?_)⟩
      rw [mem_held_iff]
      rcases mem_held_iff.mp hu with ⟨entry, hentry, rfl⟩ | hu
      · exact Or.inl ⟨entry, List.mem_of_mem_filter hentry, rfl⟩
      · exact Or.inr hu
  | storeValue name e =>
      obtain ⟨v, hv, h⟩ := exists_of_bind_eq_ok h
      obtain rfl := Except.ok.inj h
      exact ⟨_, _, hnull, fun u hu => Or.inr (Or.inr hu)⟩
  | newRegistry builtins =>
      obtain rfl := Except.ok.inj h
      refine ⟨_, _, hnull, fun u hu => Or.inr ?_⟩
      rw [mem_held_iff]
      rcases mem_held_iff.mp hu with hu | hu
      · exact Or.inr (Or.inl hu)
      · cases builtins with
        | false => cases hu
        | true =>
            refine Or.inl ((Registry.mem_held_withBuiltins hu).resolve_right ?_)
            exact List.not_mem_nil
  | addBuiltins =>
      obtain rfl := Except.ok.inj h
      refine ⟨_, _, hnull, fun u hu => Or.inr ?_⟩
      rw [mem_held_iff]
      rcases mem_held_iff.mp hu with hu | hu
      · exact Or.inr (Or.inl hu)
      · exact (Registry.mem_held_withBuiltins hu).imp_right Or.inr
  | register name rule =>
      obtain ⟨r, hr, h⟩ := exists_of_bind_eq_ok h
      obtain ⟨registry, hregistry, h⟩ := exists_of_bind_eq_ok h
      obtain rfl := Except.ok.inj h
      obtain ⟨e, t, ht, hheld⟩ := ruleExpr_eval_held hr name
      refine ⟨e, t, ht, fun u hu => ?_⟩
      rw [mem_held_iff]
      rcases mem_held_iff.mp hu with hu | hu
      · exact Or.inr (Or.inr (Or.inl hu))
      · have hok := Fault.lift_ok hregistry
        rcases Registry.mem_held_register hok hu with hu | hu
        · exact Or.inl (hheld u hu)
        · exact Or.inr (Or.inr (Or.inr hu))

/-- An action stores at most one value, which was evaluated. -/
theorem perform_values {s s' : Session} {a : Action}
    (h : s.perform a = .ok s') :
    s'.values = s.values ∨ ∃ name e v, ValueExpr.eval s.values e = .ok v
      ∧ s'.values = store s.values name v := by
  cases a with
  | storeValue name e =>
      obtain ⟨v, hv, h⟩ := exists_of_bind_eq_ok h
      obtain rfl := Except.ok.inj h
      exact Or.inr ⟨name, e, v, hv, rfl⟩
  | storeType name e =>
      obtain ⟨t, -, h⟩ := exists_of_bind_eq_ok h
      exact Or.inl (Except.ok.inj h ▸ rfl)
  | register name rule =>
      obtain ⟨r, -, h⟩ := exists_of_bind_eq_ok h
      obtain ⟨registry, -, h⟩ := exists_of_bind_eq_ok h
      exact Or.inl (Except.ok.inj h ▸ rfl)
  | _ => exact Or.inl (Except.ok.inj h ▸ rfl)

theorem perform_valid {s s' : Session} (hs : s.context.Valid) (a : Action)
    (h : s.perform a = .ok s') : s'.context.Valid where
  types := by
    obtain ⟨e, t, ht, hheld⟩ := perform_held h
    have hboth : ((s.context.hold t).hold (.scalar .bigInt)).Valid :=
      (e.eval_valid hs ht).holdLeaf ⟨rfl, rfl, trivial⟩ rfl
    refine hboth.types.mono fun p hp => ?_
    obtain ⟨u, hu, hp⟩ := here_iff.mp hp
    rw [here_hold, here_hold]
    rcases hheld u hu with rfl | rfl | hu
    · exact Or.inr (Or.inl hp)
    · exact Or.inl hp
    · exact Or.inr (Or.inr ((here_held hu).part hp))
  values := by
    show ∀ entry ∈ s'.values, entry.2.NamesDistinct
    rcases perform_values h with heq | ⟨name, e, v, hv, heq⟩ <;> rw [heq]
    · exact hs.values
    · intro entry hentry
      rcases mem_of_mem_store hentry with rfl | hentry
      · exact e.eval_namesDistinct hs.values hv
      · exact hs.values entry hentry

/-- The sessions that actions lead to. -/
inductive Reachable : Session → Prop where
  | empty : Reachable .empty
  | perform {s s' a} (hs : Reachable s) (h : s.perform a = .ok s') :
      Reachable s'

theorem Reachable.valid {s : Session} (h : s.Reachable) : s.context.Valid := by
  induction h with
  | empty =>
      refine ⟨Consistent.empty.mono ?_, ?_⟩
      · exact fun _ hp => List.not_mem_nil hp
      · exact fun _ hentry => (List.not_mem_nil hentry).elim
  | perform _ h ih => exact perform_valid ih _ h

/-- Everything in the scope of a question is consistent. -/
theorem Reachable.consistent {s : Session} (hs : s.Reachable)
    {es : List TypeExpr} {ts : List Ty} {S : Scope} (h : s.evalTypes es = .ok (ts, S)) :
    S = .ofHeld (s.held ++ ts)
      ∧ Consistent (· ∈ Ty.partsOfList (s.held ++ ts)) [] := by
  obtain ⟨us, hus, h⟩ := exists_of_bind_eq_ok h
  obtain ⟨rfl, rfl⟩ := Prod.mk.inj (Except.ok.inj h)
  have hvalid := TypeExpr.evalList_valid es hs.valid hus
  refine ⟨rfl, hvalid.types.mono fun p hp => ?_⟩
  rw [Ty.partsOfList_append, List.mem_append] at hp
  exact here_holdAll.mpr hp.symm

end Session

end Schemata
