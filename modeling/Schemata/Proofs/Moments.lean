import Mathlib
import Schemata.Proofs.Reachability

/-!
# The moments of a session

What a session can hold is not only what it has stored. While an
expression is evaluated its operands are held, and inside of a definition
the local names; while a definition is checked its members are held and it
does not exist yet; while a function is asked for its return type, the
columns and then the type are held. And at any time something may be given
up.

`Context.Arises` are the contexts in which expressions are evaluated, and
`Moment` is what is held, together with the definitions that are under
construction. Everything that is held at a moment is consistent
(`Moment.consistent`). A type is *constructible* if it is held at some
moment, as a whole or as a part (`Ty.Constructible`); so constructible
types are well formed.
-/

namespace Schemata

/-! ## Moments of a session -/

/-- The contexts that come up: those of the sessions that can be reached,
and what becomes of them when operands are held, local names are bound and
definitions are begun. -/
inductive Context.Arises : Context → Prop where
  | session {s : Session} (hs : s.Reachable) : Arises s.context
  | operands {Γ es ts} (hΓ : Arises Γ) (h : TypeExpr.evalList Γ es = .ok ts) :
      Arises (Γ.holdAll ts)
  | letIn {Γ e t} (hΓ : Arises Γ) (name : String)
      (h : TypeExpr.eval Γ e = .ok t) : Arises (Γ.bind name t)
  | define {Γ} (hΓ : Arises Γ) (form : Form) (name : Option String) :
      Arises (Γ.enter ⟨form, name, Γ.fresh⟩)

/-- What is held at some moment, and the definitions that are under
construction then, innermost first. -/
inductive Moment : List Ty → List Handle → Prop where
  /-- Between two actions. -/
  | idle {s : Session} (hs : s.Reachable) : Moment s.held []
  /-- Types have been evaluated, possibly inside of definitions. -/
  | evaluated {Γ : Context} {es ts} (hΓ : Γ.Arises)
      (h : TypeExpr.evalList Γ es = .ok ts) :
      Moment (Γ.held ++ ts) Γ.handles
  /-- A struct is checked: its local names have been given up. -/
  | checkStruct {Γ Δ : Context} {name lets es fields} (hΓ : Γ.Arises)
      (hΔ : TypeExpr.evalLets (Γ.enter ⟨.struct, name, Γ.fresh⟩) lets = .ok Δ)
      (h : TypeExpr.evalFields Δ es = .ok fields) :
      Moment (Γ.held ++ fields.map Prod.snd)
        (⟨.struct, name, Γ.fresh⟩ :: Γ.handles)
  /-- A union is checked: of equal variants the first is left. -/
  | checkUnion {Γ Δ : Context} {name lets es variants} (hΓ : Γ.Arises)
      (hΔ : TypeExpr.evalLets (Γ.enter ⟨.union, name, Γ.fresh⟩) lets = .ok Δ)
      (h : TypeExpr.evalList Δ es = .ok variants) :
      Moment (Γ.held ++ Ty.distinct variants)
        (⟨.union, name, Γ.fresh⟩ :: Γ.handles)
  /-- A function has been asked for its return type on some columns. -/
  | returned {s : Session} {columns name input S t} (hs : s.Reachable)
      (hinput : s.evalSchema columns = .ok (input, S))
      (h : s.registry.returnType name s.held input = .ok t) :
      Moment (s.held ++ t :: input.types) []
  /-- Something is given up, or only a part of it is kept. -/
  | giveUp {held kept handles} (h : Moment held handles)
      (hkept : ∀ t ∈ kept, t ∈ Ty.partsOfList held) : Moment kept handles

/-- The types that are held at some moment, and their parts. -/
def Ty.Constructible (t : Ty) : Prop :=
  ∃ held handles, Moment held handles ∧ t ∈ partsOfList held

/-! ## Contexts -/

namespace Context

theorem Arises.valid {Γ : Context} (h : Γ.Arises) : Γ.Valid := by
  induction h with
  | session hs => exact hs.valid
  | operands _ h ih => exact TypeExpr.evalList_valid _ ih h
  | @letIn Γ e t _ name h ih => exact (e.eval_valid ih h).bind name
  | define _ form name ih => exact ih.enterFresh form name

theorem Arises.lets {es : List (String × TypeExpr)} :
    ∀ {Γ Δ : Context}, Γ.Arises → TypeExpr.evalLets Γ es = .ok Δ →
      Δ.Arises := by
  induction es with
  | nil =>
      intro Γ Δ hΓ h
      rw [TypeExpr.evalLets] at h
      obtain rfl := Except.ok.inj h
      exact hΓ
  | cons e es ih =>
      intro Γ Δ hΓ h
      rw [TypeExpr.evalLets] at h
      obtain ⟨t, ht, h⟩ := exists_of_bind_eq_ok h
      exact ih (.letIn hΓ e.1 ht) h

theorem Valid.consistent {Γ : Context} {ts : List Ty}
    (h : (Γ.holdAll ts).Valid) :
    Consistent (· ∈ Ty.partsOfList (Γ.held ++ ts)) Γ.handles := by
  refine h.types.mono fun p hp => ?_
  rw [Ty.partsOfList_append, List.mem_append] at hp
  exact here_holdAll.mpr hp.symm

/-- While a definition is checked, everything that is held was held when
its members were evaluated. -/
theorem Valid.consistent_check {Γ Δ : Context} {k : Handle}
    {us members : List Ty} (h : (Δ.holdAll us).Valid)
    (hext : (Γ.enter k).Extends Δ) (hsub : ∀ t ∈ members, t ∈ us) :
    Consistent (· ∈ Ty.partsOfList (Γ.held ++ members)) (k :: Γ.handles) := by
  have hhandles : (Δ.holdAll us).handles = k :: Γ.handles := hext.handles
  have hconsistent := hhandles ▸ h.types
  refine hconsistent.mono fun p hp => ?_
  rw [Ty.partsOfList_append, List.mem_append] at hp
  rcases hp with hp | hp
  · exact here_holdAll.mpr (Or.inr (hext.here p hp))
  · obtain ⟨t, ht, hp⟩ := Ty.mem_partsOfList.mp hp
    exact (here_of_mem_holdAll (hsub t ht)).part hp

end Context

/-! ## Return types -/

theorem Schema.map_snd_fields (s : Schema) :
    s.fields.map Prod.snd = s.types :=
  List.map_map

namespace Function

/-- What a function can answer with: its own type, the type of a column,
`Double`, and what is built from the columns, or null. -/
inductive Returns (f : Function) (input : Schema) : Ty → Prop where
  | constant {t} (h : t ∈ f.held) : Returns f input t
  | column {t} (h : t ∈ input.types) : Returns f input t
  | double : Returns f input (.scalar .double)
  | struct {name t} (h : Ty.structOf name input.fields = .ok t) :
      Returns f input t
  | tuple : Returns f input (.tuple input.types)
  | union {t} (h : Ty.unionOfList none input.types = .ok t) :
      Returns f input t
  | nullable {t} (S : Scope) (h : Returns f input t) :
      Returns f input (S.nullable t)

variable {f : Function} {input : Schema}

theorem returns_singleColumn {c : Column}
    (h : f.singleColumn input = .ok c) : f.Returns input c.type := by
  unfold singleColumn at h
  split at h
  · next d heq =>
      obtain rfl := Except.ok.inj h
      exact .column (by simp [Schema.types, heq])
  · cases h

theorem returns_numericColumn {c : Column}
    (h : f.numericColumn input = .ok c) : f.Returns input c.type := by
  obtain ⟨d, hd, h⟩ := exists_of_bind_eq_ok h
  split at h
  · obtain rfl := Except.ok.inj h
    exact returns_singleColumn hd
  · cases h

theorem returns_of_returnType {held : List Ty} {t : Ty}
    (h : f.returnType held input = .ok t) : f.Returns input t := by
  unfold returnType at h
  simp only at h
  split at h
  · next u hrule =>
      obtain rfl := Except.ok.inj h
      exact .constant (by simp [Function.held, hrule])
  · obtain ⟨c, hc, h⟩ := exists_of_bind_eq_ok h
    exact Except.ok.inj h ▸ .nullable _ (returns_numericColumn hc)
  · obtain ⟨c, -, h⟩ := exists_of_bind_eq_ok h
    exact Except.ok.inj h ▸ .nullable _ .double
  · obtain ⟨c, hc, h⟩ := exists_of_bind_eq_ok h
    exact Except.ok.inj h ▸ .nullable _ (returns_singleColumn hc)
  · exact .struct h
  · exact .struct h
  · exact Except.ok.inj h ▸ .tuple
  · exact .union h
  · obtain ⟨u, hu, h⟩ := exists_of_bind_eq_ok h
    exact Except.ok.inj h ▸ .nullable _ (.struct hu)
  · split at h
    · next c hc =>
        obtain rfl := Except.ok.inj h
        exact .column (List.mem_map.mpr ⟨c, List.mem_of_find?_eq_some hc, rfl⟩)
    · cases h

end Function

/-- A registry answers for a function that it has. -/
theorem Registry.returns_of_returnType {r : Registry} {name : String}
    {held : List Ty} {input : Schema} {t : Ty}
    (h : r.returnType name held input = .ok t) :
    ∃ f : Function, (∀ u ∈ f.held, u ∈ r.held) ∧ f.Returns input t := by
  unfold returnType at h
  split at h
  · next f hf =>
      refine ⟨f, fun u hu => ?_, Function.returns_of_returnType h⟩
      exact List.mem_flatMap.mpr ⟨f, List.mem_of_find?_eq_some hf, hu⟩
  · cases h

namespace Context.Valid

variable {Γ : Context} {t : Ty}

/-- What is a part of something held may be held by itself. -/
theorem holdHere {us : List Ty} (h : Γ.Valid) (hus : ∀ u ∈ us, Γ.Here u) :
    (Γ.holdAll us).Valid := by
  refine h.mono (fun p hp => ?_) rfl rfl
  rcases here_holdAll.mp hp with hp | hp
  · obtain ⟨u, hu, hp⟩ := Ty.mem_partsOfList.mp hp
    exact (hus u hu).part hp
  · exact hp

/-- The struct of the input, or the row of a table. -/
theorem holdInput {name : Option String} {input : Schema} (h : Γ.Valid)
    (hinput : ∀ u ∈ input.types, Γ.Here u)
    (hok : Ty.structOf name input.fields = .ok t) : (Γ.hold t).Valid := by
  refine holdStruct (h.holdHere fun u hu => hinput u ?_) hok
  rwa [Schema.map_snd_fields] at hu

/-- A return type brings nothing but plain nodes. -/
theorem holdReturned {f : Function} {input : Schema}
    (h : Γ.Valid) (hf : ∀ u ∈ f.held, Γ.Here u)
    (hinput : ∀ u ∈ input.types, Γ.Here u) (ht : f.Returns input t) :
    (Γ.hold t).Valid := by
  induction ht with
  | constant hmem => exact holdPart [] h (hf _ hmem)
  | column hmem => exact holdPart [] h (hinput _ hmem)
  | double => exact h.holdLeaf ⟨rfl, rfl, trivial⟩ rfl
  | struct hok => exact h.holdInput hinput hok
  | tuple =>
      refine holdNode input.types (h.holdHere hinput) ⟨rfl, rfl, trivial⟩ ?_
      exact fun c hc => here_of_mem_holdAll hc
  | union hok =>
      refine holdUnion (h.holdHere hinput) (fun v hv => ?_) hok
      exact here_of_mem_holdAll hv
  | nullable S _ ih => exact ih.holdNullable S

end Context.Valid

/-- The input of a function has the types that were evaluated. -/
theorem Session.evalSchema_types {s : Session}
    {columns : List (String × TypeExpr)} {input : Schema} {S : Scope}
    (h : s.evalSchema columns = .ok (input, S)) :
    ∃ cs, TypeExpr.evalFields s.context columns = .ok cs
      ∧ input.types = cs.map Prod.snd := by
  obtain ⟨cs, hcs, h⟩ := exists_of_bind_eq_ok h
  obtain ⟨schema, hschema, h⟩ := exists_of_bind_eq_ok h
  obtain ⟨rfl, -⟩ := Prod.mk.inj (Except.ok.inj h)
  refine ⟨cs, hcs, ?_⟩
  rw [← Context.fields_of_schemaOf hschema, Schema.map_snd_fields]

/-- The return type is held together with the columns. -/
theorem Session.Reachable.returned_valid {s : Session} (hs : s.Reachable)
    {columns : List (String × TypeExpr)} {name : String} {input : Schema}
    {S : Scope} {t : Ty} (hinput : s.evalSchema columns = .ok (input, S))
    (h : s.registry.returnType name s.held input = .ok t) :
    (s.context.holdAll (t :: input.types)).Valid := by
  obtain ⟨cs, hcs, htypes⟩ := Session.evalSchema_types hinput
  have hvalid := TypeExpr.evalFields_valid columns hs.valid hcs
  rw [← htypes] at hvalid
  obtain ⟨f, hf, hreturns⟩ := Registry.returns_of_returnType h
  refine hvalid.holdReturned (fun u hu => ?_) (fun u hu => ?_) hreturns
  · have hheld : u ∈ s.context.held :=
      Session.mem_held_iff.mpr (Or.inr (hf u hu))
    exact Context.here_holdAll.mpr (Or.inr (Context.here_held hheld))
  · exact Context.here_of_mem_holdAll hu

/-! ## Consistency -/

theorem Moment.consistent {held : List Ty} {handles : List Handle}
    (h : Moment held handles) :
    Consistent (· ∈ Ty.partsOfList held) handles := by
  induction h with
  | idle hs => exact hs.valid.types
  | evaluated hΓ h => exact (TypeExpr.evalList_valid _ hΓ.valid h).consistent
  | checkStruct hΓ hΔ h =>
      obtain ⟨hvalid, hext⟩ :=
        TypeExpr.evalLets_valid _ (hΓ.valid.enterFresh ..) hΔ
      have hmembers := TypeExpr.evalFields_valid _ hvalid h
      exact hmembers.consistent_check hext fun t ht => ht
  | checkUnion hΓ hΔ h =>
      obtain ⟨hvalid, hext⟩ :=
        TypeExpr.evalLets_valid _ (hΓ.valid.enterFresh ..) hΔ
      have hmembers := TypeExpr.evalList_valid _ hvalid h
      exact hmembers.consistent_check hext fun t => Ty.mem_of_mem_distinct
  | returned hs hinput h => exact (hs.returned_valid hinput h).consistent
  | giveUp _ hkept ih =>
      exact ih.mono fun p hp => Ty.partsOfList_subset hkept hp

theorem Ty.Constructible.wellFormed {t : Ty} (h : t.Constructible) :
    t.WellFormed := by
  obtain ⟨held, handles, hmoment, ht⟩ := h
  intro p hp
  exact hmoment.consistent.regular p (Ty.mem_partsOfList_trans hp ht)

/-- What an expression yields is constructible. -/
theorem Context.Arises.constructible {Γ : Context} (hΓ : Γ.Arises)
    {es : List TypeExpr} {ts : List Ty}
    (h : TypeExpr.evalList Γ es = .ok ts) {t : Ty} (ht : t ∈ ts) :
    t.Constructible :=
  ⟨_, _, .evaluated hΓ h,
    Ty.mem_partsOfList_self (List.mem_append_right _ ht)⟩

end Schemata
