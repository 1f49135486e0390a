import Mathlib
import Schemata.Proofs.NewIdentities
import Schemata.Proofs.Reachability
import Schemata.Proofs.UnionLaws
import Schemata.Proofs.Membership

/-!
# What becomes of references

A reference does not keep alive what it refers to, so it may come to lead
nowhere. That happens when something is taken out of what is held, and in no
other way (`Session.RemovesRoot`, `Session.Reachable.find?_after`). The way
back is closed: a reference that leads nowhere never leads anywhere again,
because whatever is defined later has an identity that nothing at hand
mentions (`Session.Reachable.find?_eq_none_after`).

Questions about stored types depend on the session only through what
references lead to. If two scopes agree on the references that one can come
to, they agree on nullability, membership and subtyping (`Scope.SameOn`). So
an action that takes nothing out changes no answer. The scope of a question
holds its operands too, but these are stored already.

All this is about one action in a session that can be reached. For runs it
follows by induction, as long as the reference is held: an identity that
nothing mentions any more is free to be used again.
-/

namespace Schemata

/-! ## Scopes that agree -/

namespace Scope

variable {S S' : Scope} {here : Ty → Prop}

/-- Following references from the types that are `here`, both scopes lead to
the same types, which are here too. -/
structure SameOn (S S' : Scope) (here : Ty → Prop) : Prop where
  component : ∀ {t c}, here t → c ∈ t.components → here c
  find : ∀ {form name id}, here (.ref form name id) →
    S'.find? id = S.find? id
  follow : ∀ {form name id d}, here (.ref form name id) →
    S.find? id = some d → here d

namespace SameOn

theorem symm (h : S.SameOn S' here) : S'.SameOn S here where
  component := h.component
  find ht := (h.find ht).symm
  follow ht hd := h.follow ht ((h.find ht).symm.trans hd)

theorem resolve (h : S.SameOn S' here) {t : Ty} (ht : here t) :
    S'.resolve t = S.resolve t ∧ here (S.resolve t) := by
  cases t with
  | ref form name id =>
      refine ⟨by rw [Scope.resolve, Scope.resolve, h.find ht], ?_⟩
      cases hd : S.find? id with
      | none => simpa [Scope.resolve, hd] using ht
      | some d => simpa [Scope.resolve, hd] using h.follow ht hd
  | _ => exact ⟨rfl, ht⟩

theorem isNullable (h : S.SameOn S' here) {t : Ty} (ht : here t) :
    S'.isNullable t = S.isNullable t := by
  rw [Scope.isNullable, Scope.isNullable, (h.resolve ht).1]

theorem member (h : S.SameOn S' here) {v : Value} {t : Ty}
    (hv : v.Member S t) (ht : here t) : v.Member S' t := by
  induction hv with
  | any => exact .any
  | null => exact .null
  | scalar hs => exact .scalar hs
  | array _ ih =>
      exact .array fun v hv => ih v hv (h.component ht List.mem_cons_self)
  | packed _ ih =>
      exact .packed fun n hn => ih n hn (h.component ht List.mem_cons_self)
  | tuple hlen _ ih =>
      refine .tuple hlen fun p hp => ih p hp (h.component ht ?_)
      exact (List.of_mem_zip hp).2
  | map hk _ ih =>
      refine .map hk fun e he => ih e he (h.component ht ?_)
      exact List.mem_cons_of_mem _ List.mem_cons_self
  | struct _ ih =>
      exact .struct fun f hf =>
        ih f hf (h.component ht (List.mem_map_of_mem hf))
  | union hw _ ih => exact .union hw (ih (h.component ht hw))
  | ref hd _ ih =>
      exact .ref ((h.find ht).trans hd) (ih (h.follow ht hd))

theorem isInstance (h : S.SameOn S' here) {t : Ty} (ht : here t)
    (v : Value) : v.isInstance S' t = v.isInstance S t := by
  rw [Bool.eq_iff_iff, Value.isInstance_iff, Value.isInstance_iff]
  exact ⟨fun hv => h.symm.member hv ht, fun hv => h.member hv ht⟩

/-- What a comparison asks for is here, if the types are. -/
theorem opens (h : S.SameOn S' here) {P P' : Pending} {a b x y : Ty}
    (hopens : Opens P a b P' x y) (ha : here a) (hb : here b) :
    here x ∧ here y := by
  cases hopens with
  | toUnion _ hv => exact ⟨ha, h.component hb hv⟩
  | ofUnion _ hv => exact ⟨h.component ha hv, hb⟩
  | fields _ _ hg ht =>
      have hdeclared := List.mem_map_of_mem (f := Prod.snd) (mem_of_lookup ht)
      exact ⟨h.component ha hdeclared, h.component hb (List.mem_map_of_mem hg)⟩

theorem subtypeWithin (h : S.SameOn S' here) (n : Nat) {P : Pending}
    {a b : Ty} (ha : here a) (hb : here b)
    (hsub : S.subtypeWithin n P a b = true) :
    S'.subtypeWithin n P a b = true := by
  induction n generalizing P a b with
  | zero => cases hsub
  | succ n ih =>
      obtain ⟨hresolveA, ha'⟩ := h.resolve ha
      obtain ⟨hresolveB, hb'⟩ := h.resolve hb
      refine subtypeWithin_succ.mpr ?_
      rw [hresolveA, hresolveB]
      refine (subtypeWithin_succ.mp hsub).imp_right
        (Or.imp_right fun hrule => hrule.opens.imp ?_)
      rintro P' x y ⟨hsub, hopens⟩
      obtain ⟨hx, hy⟩ := h.opens hopens ha' hb'
      exact ih hx hy hsub

/-- The bounds on the steps may differ, but both are enough. -/
theorem isSubtype (h : S.SameOn S' here) {a b : Ty} (ha : here a)
    (hb : here b) : S'.isSubtype a b = S.isSubtype a b := by
  rw [Bool.eq_iff_iff, isSubtype_iff, isSubtype_iff]
  refine exists_congr fun n => ⟨fun hsub => ?_, fun hsub => ?_⟩
  · exact h.symm.subtypeWithin n ha hb hsub
  · exact h.subtypeWithin n ha hb hsub

end SameOn

/-! ## Definitions that are held -/

/-- The same definition is found where the parts with its identity are the
same. -/
theorem find?_congr {held held' : List Ty} {handles : List Handle}
    {id : DefId} (hc : Consistent (· ∈ Ty.partsOfList held') handles)
    (hkeep : ∀ d ∈ Ty.partsOfList held, d.defId? = some id →
      d ∈ Ty.partsOfList held')
    (hback : ∀ d ∈ Ty.partsOfList held', d.defId? = some id →
      d ∈ Ty.partsOfList held) :
    (ofHeld held').find? id = (ofHeld held).find? id := by
  cases hd : (ofHeld held).find? id with
  | some d =>
      have hid := defId?_of_find? hd
      exact find?_of_part hc (hkeep d (mem_parts_of_find? hd) hid) hid
  | none =>
      rw [find?_eq_none_iff] at hd ⊢
      exact fun p hp hid => hd p (hback p hp hid) hid

end Scope

/-! ## Roots -/

namespace Registry

theorem contains_of_mem {r : Registry} {g : Function}
    (hg : g ∈ r.functions) : r.contains g.name = true := by
  rw [contains, find?, List.find?_isSome]
  exact ⟨g, hg, beq_self_eq_true _⟩

theorem mem_place_of_ne {f g : Function} {fs : List Function} (hg : g ∈ fs)
    (hne : f.name ≠ g.name) : g ∈ place f fs := by
  induction fs with
  | nil => cases hg
  | cons k fs ih =>
      rw [place]
      split
      · exact List.mem_cons_of_mem f hg
      · split
        · next heq =>
            rcases List.mem_cons.mp hg with rfl | hg
            · exact absurd heq hne
            · exact List.mem_cons_of_mem f hg
        · rcases List.mem_cons.mp hg with rfl | hg
          · exact List.mem_cons_self
          · exact List.mem_cons_of_mem k (ih hg)

theorem mem_foldl_put_of_ne {g : Function} {fs : List Function} :
    ∀ {r : Registry}, g ∈ r.functions → (∀ f ∈ fs, f.name ≠ g.name) →
      g ∈ (fs.foldl put r).functions := by
  induction fs with
  | nil => exact fun hg _ => hg
  | cons f fs ih =>
      intro r hg hne
      obtain ⟨hf, hfs⟩ := List.forall_mem_cons.mp hne
      exact ih (mem_place_of_ne hg hf) hfs

end Registry

namespace Session

variable {s s' : Session} {a : Action} {id : DefId}

/-- The action takes something out of what is held: it succeeds in storing
over a name, it drops one, or it puts functions in the place of others. -/
def RemovesRoot (s : Session) : Action → Prop
  | .storeType name e =>
    name ∈ s.types.map Prod.fst ∧ ∃ t, e.eval s.context = .ok t
  | .dropType name => name ∈ s.types.map Prod.fst
  | .newRegistry _ => s.registry.functions ≠ []
  | .addBuiltins => ∃ f ∈ Registry.builtins, s.registry.contains f.name = true
  | .storeValue .. => False
  | .register .. => False

theorem filter_of_not_stored {α : Type} {stored : List (String × α)}
    {name : String} (h : name ∉ stored.map Prod.fst) :
    stored.filter (fun entry => entry.1 != name) = stored := by
  refine List.filter_eq_self.mpr fun entry hentry => bne_iff_ne.mpr ?_
  exact fun heq => h (heq ▸ List.mem_map_of_mem hentry)

/-- Without a root removed, the stored types are the same or one more, and
no function is gone. -/
theorem perform_keeps (h : s.perform a = .ok s') (hroot : ¬s.RemovesRoot a) :
    (s'.types = s.types ∨ ∃ name t, name ∉ s.types.map Prod.fst
      ∧ s'.types = (name, t) :: s.types)
    ∧ ∀ f ∈ s.registry.functions, f ∈ s'.registry.functions := by
  cases a with
  | storeType name e =>
      obtain ⟨t, ht, h⟩ := exists_of_bind_eq_ok h
      obtain rfl := Except.ok.inj h
      have hnew : name ∉ s.types.map Prod.fst := fun hmem => hroot ⟨hmem, t, ht⟩
      refine ⟨Or.inr ⟨name, t, hnew, ?_⟩, fun f hf => hf⟩
      exact congrArg _ (filter_of_not_stored hnew)
  | dropType name =>
      obtain rfl := Except.ok.inj h
      exact ⟨Or.inl (filter_of_not_stored hroot), fun f hf => hf⟩
  | storeValue name e =>
      obtain ⟨v, -, h⟩ := exists_of_bind_eq_ok h
      obtain rfl := Except.ok.inj h
      exact ⟨Or.inl rfl, fun f hf => hf⟩
  | newRegistry builtins =>
      obtain rfl := Except.ok.inj h
      refine ⟨Or.inl rfl, fun f hf => ?_⟩
      rw [not_not.mp hroot] at hf
      cases hf
  | addBuiltins =>
      obtain rfl := Except.ok.inj h
      refine ⟨Or.inl rfl, fun f hf => ?_⟩
      refine Registry.mem_foldl_put_of_ne hf fun g hg heq => hroot ⟨g, hg, ?_⟩
      exact heq ▸ Registry.contains_of_mem hf
  | register name rule =>
      obtain ⟨r, -, h⟩ := exists_of_bind_eq_ok h
      obtain ⟨registry, hregistry, h⟩ := exists_of_bind_eq_ok h
      obtain rfl := Except.ok.inj h
      refine ⟨Or.inl rfl, fun f hf => ?_⟩
      have hok := Fault.lift_ok hregistry
      unfold Registry.register at hok
      split at hok
      · cases hok
      · next hnew =>
          obtain rfl := Except.ok.inj hok
          refine Registry.mem_place_of_ne hf fun heq => hnew ?_
          exact heq ▸ Registry.contains_of_mem hf

/-- The session after an action; one that fails changes nothing. -/
def after (s : Session) (a : Action) : Session :=
  match s.perform a with
  | .ok s' => s'
  | .error _ => s

theorem after_cases (s : Session) (a : Action) :
    s.perform a = .ok (s.after a) ∨ s.after a = s := by
  unfold after
  cases s.perform a with
  | ok s' => exact Or.inl rfl
  | error e => exact Or.inr rfl

theorem Reachable.after (hs : s.Reachable) (a : Action) :
    (s.after a).Reachable := by
  rcases s.after_cases a with h | h
  · exact hs.perform h
  · rwa [h]

theorem after_keeps (hroot : ¬s.RemovesRoot a) :
    ((s.after a).types = s.types ∨ ∃ name t, name ∉ s.types.map Prod.fst
      ∧ (s.after a).types = (name, t) :: s.types)
    ∧ ∀ f ∈ s.registry.functions, f ∈ (s.after a).registry.functions := by
  rcases s.after_cases a with h | h
  · exact perform_keeps h hroot
  · rw [h]
    exact ⟨Or.inl rfl, fun f hf => hf⟩

theorem lookup_after (hroot : ¬s.RemovesRoot a) {x : String} {t : Ty}
    (hx : s.types.lookup x = some t) :
    (s.after a).types.lookup x = some t := by
  rcases (after_keeps hroot).1 with heq | ⟨name, u, hnew, heq⟩
  · rw [heq, hx]
  · have hne : (x == name) = false := by
      rw [beq_eq_false_iff_ne]
      rintro rfl
      exact hnew (List.mem_map.mpr ⟨_, mem_of_lookup hx, rfl⟩)
    rw [heq, List.lookup_cons, hne, hx]

theorem mem_held_after (hroot : ¬s.RemovesRoot a) {t : Ty}
    (ht : t ∈ s.held) : t ∈ (s.after a).held := by
  obtain ⟨htypes, hfunctions⟩ := after_keeps hroot
  rcases List.mem_append.mp ht with ht | ht
  · refine List.mem_append_left _ ?_
    rcases htypes with heq | ⟨name, u, -, heq⟩
    · rwa [heq]
    · rw [heq]
      exact List.mem_cons_of_mem u ht
  · obtain ⟨f, hf, ht⟩ := List.mem_flatMap.mp ht
    exact List.mem_append_right _
      (List.mem_flatMap.mpr ⟨f, hfunctions f hf, ht⟩)

/-! ## One action -/

/-- What a session resolves its references in. -/
def scope (s : Session) : Scope := .ofHeld s.held

/-- Something held refers to the definition. -/
def Mentions (s : Session) (id : DefId) : Prop :=
  ∃ p ∈ Ty.partsOfList s.held, p.target? = some id

/-- After an action, what has an identity that was mentioned before was
held before. -/
theorem mem_parts_of_perform (hs : s.Reachable) (h : s.perform a = .ok s')
    (hid : s.Mentions id) {d : Ty} (hd : d ∈ Ty.partsOfList s'.held)
    (hdef : d.defId? = some id) : d ∈ Ty.partsOfList s.held := by
  obtain ⟨e, t, ht, hheld⟩ := perform_held h
  obtain ⟨u, hu, hd⟩ := Ty.mem_partsOfList.mp hd
  rcases hheld u hu with rfl | rfl | hu
  · obtain ⟨p, hp, htarget⟩ := hid
    have hlt : id < s.context.fresh :=
      Context.lt_fresh (Or.inl ⟨p, hp, Or.inl htarget⟩)
    rcases TypeExpr.eval_newOrHere e hs.valid.values ht d hd id hdef with
      hhere | hle
    · exact hhere
    · exact absurd hle (Nat.not_le.mpr hlt)
  · rw [Ty.parts, List.mem_singleton] at hd
    rw [hd] at hdef
    cases hdef
  · exact Ty.mem_partsOfList.mpr ⟨u, hu, hd⟩

theorem Reachable.mem_parts_of_after (hs : s.Reachable) (a : Action)
    (hid : s.Mentions id) {d : Ty} (hd : d ∈ Ty.partsOfList (s.after a).held)
    (hdef : d.defId? = some id) : d ∈ Ty.partsOfList s.held := by
  rcases s.after_cases a with h | h
  · exact mem_parts_of_perform hs h hid hd hdef
  · rwa [h] at hd

/-- No action revives a reference. -/
theorem Reachable.find?_eq_none_after (hs : s.Reachable) (a : Action)
    (hid : s.Mentions id) (hnone : s.scope.find? id = none) :
    (s.after a).scope.find? id = none := by
  unfold scope at hnone ⊢
  rw [Scope.find?_eq_none_iff] at hnone ⊢
  intro p hp hdef
  exact hnone p (hs.mem_parts_of_after a hid hp hdef) hdef

/-- A reference does not come to lead to another definition. -/
theorem Reachable.find?_unique_after (hs : s.Reachable) (a : Action)
    (hid : s.Mentions id) {d d' : Ty} (hd : s.scope.find? id = some d)
    (hd' : (s.after a).scope.find? id = some d') : d' = d := by
  have hdef := Scope.defId?_of_find? hd'
  have hpart :=
    hs.mem_parts_of_after a hid (Scope.mem_parts_of_find? hd') hdef
  exact hs.valid.types.unique d' d id hpart (Scope.mem_parts_of_find? hd) hdef
    (Scope.defId?_of_find? hd)

/-- A definition that is held stays so, unless a root is removed. -/
theorem Reachable.find?_after (hs : s.Reachable) (hroot : ¬s.RemovesRoot a)
    {d : Ty} (hd : s.scope.find? id = some d) :
    (s.after a).scope.find? id = some d := by
  obtain ⟨t, ht, hpart⟩ := Ty.mem_partsOfList.mp (Scope.mem_parts_of_find? hd)
  refine Scope.find?_of_part (hs.after a).valid.types ?_
    (Scope.defId?_of_find? hd)
  exact Ty.mem_partsOfList.mpr ⟨t, mem_held_after hroot ht, hpart⟩

/-! ## Questions about stored types -/

/-- Names are evaluated to what they stand for, also where other things are
held. -/
theorem evalList_var {Γ Δ : Context} {xs : List String} {ts : List Ty}
    (hlookup : ∀ x t, Γ.types.lookup x = some t → Δ.types.lookup x = some t)
    (h : TypeExpr.evalList Γ (xs.map .var) = .ok ts) :
    TypeExpr.evalList Δ (xs.map .var) = .ok ts
      ∧ ∀ t ∈ ts, t ∈ Γ.types.map Prod.snd := by
  induction xs generalizing Γ Δ ts with
  | nil =>
      rw [List.map_nil, TypeExpr.evalList] at h ⊢
      obtain rfl := Except.ok.inj h
      exact ⟨rfl, fun t ht => (List.not_mem_nil ht).elim⟩
  | cons x xs ih =>
      rw [List.map_cons, TypeExpr.evalList] at h ⊢
      obtain ⟨t, ht, h⟩ := exists_of_bind_eq_ok h
      obtain ⟨us, hus, h⟩ := exists_of_bind_eq_ok h
      obtain rfl := Except.ok.inj h
      rw [TypeExpr.eval] at ht ⊢
      have hx := Fault.ofOption_ok ht
      obtain ⟨hrest, hmem⟩ :=
        ih (Γ := Γ.hold t) (Δ := Δ.hold t) hlookup hus
      constructor
      · rw [hlookup x t hx]
        show (TypeExpr.evalList (Δ.hold t) (xs.map .var) >>= fun us =>
          pure (t :: us)) = .ok (t :: us)
        rw [hrest]
        rfl
      · refine List.forall_mem_cons.mpr ⟨?_, hmem⟩
        exact List.mem_map.mpr ⟨(x, t), mem_of_lookup hx, rfl⟩

/-- Without a root removed, references inside of what was held lead to the
same types, while stored types are held a second time for a question. -/
theorem Reachable.sameOn_after (hs : s.Reachable) (hroot : ¬s.RemovesRoot a)
    {us : List Ty} (hus : ∀ t ∈ us, t ∈ s.held)
    (hc : Consistent (· ∈ Ty.partsOfList ((s.after a).held ++ us)) []) :
    (Scope.ofHeld (s.held ++ us)).SameOn (.ofHeld ((s.after a).held ++ us))
      (· ∈ Ty.partsOfList s.held) := by
  have hboth : ∀ p ∈ Ty.partsOfList (s.held ++ us),
      p ∈ Ty.partsOfList s.held := by
    intro p hp
    obtain ⟨t, ht, hp⟩ := Ty.mem_partsOfList.mp hp
    refine Ty.mem_partsOfList.mpr ⟨t, ?_, hp⟩
    exact (List.mem_append.mp ht).elim id (hus t)
  constructor
  · intro t c ht hc
    exact Context.Here.component (Γ := s.context) ht hc
  · intro form name id href
    refine Scope.find?_congr hc (fun d hd _ => ?_) fun d hd hdef => ?_
    · obtain ⟨t, ht, hd⟩ := Ty.mem_partsOfList.mp (hboth d hd)
      refine Ty.mem_partsOfList.mpr ⟨t, ?_, hd⟩
      exact List.mem_append_left _ (mem_held_after hroot ht)
    · rw [Ty.partsOfList_append, List.mem_append] at hd ⊢
      exact hd.imp_left fun hd =>
        hs.mem_parts_of_after a ⟨_, href, rfl⟩ hd hdef
  · intro form name id d _ hd
    exact hboth d (Scope.mem_parts_of_find? hd)

/-- Without a root removed, a question about stored types is asked about the
same types, and its answer is the same. -/
theorem Reachable.evalTypes_after (hs : s.Reachable)
    (hroot : ¬s.RemovesRoot a) {xs : List String} {ts : List Ty} {S : Scope}
    (h : s.evalTypes (xs.map .var) = .ok (ts, S)) :
    ∃ S', (s.after a).evalTypes (xs.map .var) = .ok (ts, S')
      ∧ ∀ t ∈ ts, S'.isNullable t = S.isNullable t
        ∧ (∀ v : Value, v.isInstance S' t = v.isInstance S t)
        ∧ ∀ u ∈ ts, S'.isSubtype t u = S.isSubtype t u := by
  obtain ⟨us, hus, hrest⟩ := exists_of_bind_eq_ok h
  obtain ⟨rfl, rfl⟩ := Prod.mk.inj (Except.ok.inj hrest)
  obtain ⟨hus', hstored⟩ := evalList_var (Δ := (s.after a).context)
    (fun x t hx => lookup_after hroot hx) hus
  have hheld : ∀ t ∈ us, t ∈ s.held :=
    fun t ht => List.mem_append_left _ (hstored t ht)
  have h' : (s.after a).evalTypes (xs.map .var)
      = .ok (us, (s.after a).context.scope us) := by
    unfold evalTypes
    rw [hus']
    rfl
  have hsame := hs.sameOn_after hroot hheld ((hs.after a).consistent h').2
  refine ⟨_, h', fun t ht => ?_⟩
  have hhere := Ty.mem_partsOfList_self (hheld t ht)
  refine ⟨hsame.isNullable hhere, hsame.isInstance hhere, fun u hu => ?_⟩
  exact hsame.isSubtype hhere (Ty.mem_partsOfList_self (hheld u hu))

/-! ## Runs -/

/-- The session after several actions. -/
def run (s : Session) (actions : List Action) : Session :=
  actions.foldl after s

/-- The property holds of every action and the session it is performed
in. -/
def Along (P : Session → Action → Prop) (s : Session)
    (actions : List Action) : Prop :=
  ∀ before a rest, actions = before ++ a :: rest → P (s.run before) a

theorem Along.head {P : Session → Action → Prop} {actions : List Action}
    (h : Along P s (a :: actions)) : P s a :=
  h [] a actions rfl

theorem Along.tail {P : Session → Action → Prop} {actions : List Action}
    (h : Along P s (a :: actions)) : Along P (s.after a) actions := by
  intro before b rest heq
  exact h (a :: before) b rest (by rw [heq, List.cons_append])

/-- As long as something refers to it, what is gone stays gone. -/
theorem Reachable.find?_eq_none_run (hs : s.Reachable)
    {actions : List Action} (hid : Along (fun s _ => s.Mentions id) s actions)
    (hnone : s.scope.find? id = none) :
    (s.run actions).scope.find? id = none := by
  induction actions generalizing s with
  | nil => exact hnone
  | cons a actions ih =>
      exact ih (hs.after a) hid.tail
        (hs.find?_eq_none_after a hid.head hnone)

/-- As long as no root is removed, what is there stays there. -/
theorem Reachable.find?_run (hs : s.Reachable) {actions : List Action}
    (hroots : Along (fun s a => ¬s.RemovesRoot a) s actions) {d : Ty}
    (hd : s.scope.find? id = some d) :
    (s.run actions).scope.find? id = some d := by
  induction actions generalizing s with
  | nil => exact hd
  | cons a actions ih =>
      exact ih (hs.after a) hroots.tail (hs.find?_after hroots.head hd)

/-- In every session, for every reference inside of what is held: an action
does not revive it, nor lead it to another definition, and if it cannot be
followed any more then the action removed a root. Hence other actions, also
those that fail, leave all answers about stored types as they are; equality
is decided by the types alone, which are the same. In a run, a reference
stays dead while it is held, and alive until a root is removed. -/
theorem Reachable.reference_lifetime (hs : s.Reachable) :
    (∀ (a : Action) (form : Form) (name : String) (id : DefId),
      .ref form name id ∈ Ty.partsOfList s.held →
      (s.scope.find? id = none → (s.after a).scope.find? id = none)
      ∧ (∀ d, s.scope.find? id = some d →
        (s.after a).scope.find? id = some d
        ∨ ((s.after a).scope.find? id = none ∧ s.RemovesRoot a)))
    ∧ (∀ (a : Action), ¬s.RemovesRoot a →
      ∀ (xs : List String) (ts : List Ty) (S : Scope),
      s.evalTypes (xs.map .var) = .ok (ts, S) →
      ∃ S', (s.after a).evalTypes (xs.map .var) = .ok (ts, S')
        ∧ ∀ t ∈ ts, S'.isNullable t = S.isNullable t
          ∧ (∀ v : Value, v.isInstance S' t = v.isInstance S t)
          ∧ ∀ u ∈ ts, S'.isSubtype t u = S.isSubtype t u)
    ∧ (∀ (actions : List Action) (id : DefId),
      (Along (fun s _ => s.Mentions id) s actions →
        s.scope.find? id = none → (s.run actions).scope.find? id = none)
      ∧ (Along (fun s a => ¬s.RemovesRoot a) s actions →
        ∀ d, s.scope.find? id = some d →
          (s.run actions).scope.find? id = some d)) := by
  refine ⟨fun a form name id href => ⟨?_, fun d hd => ?_⟩, ?_, ?_⟩
  · exact hs.find?_eq_none_after a ⟨_, href, rfl⟩
  · cases hd' : (s.after a).scope.find? id with
    | some d' =>
        exact Or.inl (congrArg some
          (hs.find?_unique_after a ⟨_, href, rfl⟩ hd hd'))
    | none =>
        refine Or.inr ⟨rfl, ?_⟩
        by_contra hroot
        rw [hs.find?_after hroot hd] at hd'
        cases hd'
  · intro a hroot xs ts S h
    exact hs.evalTypes_after hroot h
  · intro actions id
    exact ⟨hs.find?_eq_none_run, fun hroots d => hs.find?_run hroots⟩

/-- The tail of a list outlives the list that it refers to. When the list is
dropped the reference is dead, and another list of the same name does not
revive it. -/
theorem reference_lifetime_tail :
    let r : Ty := .ref .struct "L" 1
    let tail : Ty := .union (.plain none) [r, .null]
    let list : Ty := .struct (.recursive "L" 1) [("next", tail)]
    let s : Session := ⟨[("tail", tail), ("list", list)], [], .empty⟩
    let dropped : Session := ⟨[("tail", tail)], [], .empty⟩
    let again : Action := .storeType "list"
      (.defineStruct (some "L") [] [("next", .nullable (.self 0))])
    s.Reachable ∧ s.scope.find? 1 = some list
      ∧ s.after (.dropType "list") = dropped
      ∧ dropped.scope.find? 1 = none ∧ s.RemovesRoot (.dropType "list")
      ∧ (dropped.after again).scope.find? 1 = none := by
  intro r tail list s dropped again
  have hlist : Session.empty.perform again
      = .ok ⟨[("list", list)], [], .empty⟩ := by cbv
  have htail : Session.perform ⟨[("list", list)], [], .empty⟩
      (.storeType "tail" (.field (.var "list") "next")) = .ok s := by cbv
  have hs : s.Reachable := (Reachable.empty.perform hlist).perform htail
  have hfind : s.scope.find? 1 = some list := by cbv
  have hdropped : s.after (.dropType "list") = dropped := by cbv
  have hnone : dropped.scope.find? 1 = none := by cbv
  have hpart : r ∈ tail.parts := Ty.mem_parts_of_component List.mem_cons_self
  refine ⟨hs, hfind, hdropped, hnone, ?_, ?_⟩
  · have hmem : r ∈ Ty.partsOfList s.held :=
      Ty.mem_partsOfList.mpr ⟨tail, List.mem_cons_self, hpart⟩
    rcases (hs.reference_lifetime.1 (.dropType "list") _ _ _ hmem).2 list
      hfind with hkept | ⟨-, hroot⟩
    · rw [hdropped, hnone] at hkept
      cases hkept
    · exact hroot
  · have hmem : r ∈ Ty.partsOfList dropped.held :=
      Ty.mem_partsOfList.mpr ⟨tail, List.mem_cons_self, hpart⟩
    have hreach : dropped.Reachable := hdropped ▸ hs.after _
    exact (hreach.reference_lifetime.1 again _ _ _ hmem).1 hnone

end Session

end Schemata
