import Mathlib
import Schemata.Proofs.NewIdentities
import Schemata.Proofs.WidthSubtyping

/-!
# The same expressions inside of two definitions

Two definitions that are given the same expressions need not get the same
body. Whether `nullable` adds null depends on what a reference leads to, and
if that is given up between the two definitions, null is added inside of one
of them and not of the other.

As long as nothing is given up this does not happen, whatever else is
defined in between. A new definition has an identity that no reference had
before (`Context.Grows`), so a reference that led nowhere still does, and
one that led somewhere leads to the same. Then the same expressions give one
body (`Context.givesBody_of_template`), and a definition that has more
fields is a subtype (`Context.Arises.isSubtype_of_same_expressions`).
-/

namespace Schemata

/-! ## Contexts that grow -/

namespace Context

variable {Γ Γ₁ Γ₂ Δ Δ' Ε : Context} {h k : Handle} {t x y : Ty}

/-- `Δ` has the definitions of `Γ` and new ones, so nothing has been given
up. -/
structure Grows (Γ Δ : Context) : Prop extends Γ.Precedes Δ where
  kept : ∀ p, Γ.Here p → Δ.Here p

theorem Grows.trans (h : Γ.Grows Δ) (h' : Δ.Grows Ε) : Γ.Grows Ε where
  toPrecedes := h.toPrecedes.trans h'.toPrecedes
  kept p hp := h'.kept p (h.kept p hp)

theorem grows_hold (hΓ : Γ.Valid) {e : TypeExpr}
    (heval : TypeExpr.eval Γ e = .ok t) : Γ.Grows (Γ.hold t) where
  toPrecedes := .hold (e.eval_newOrHere hΓ.values heval)
  kept _ hp := here_hold.mpr (Or.inr hp)

theorem grows_enter (Γ : Context) (h : Handle) : Γ.Grows (Γ.enter h) where
  toPrecedes := .enter Γ h
  kept _ hp := hp

theorem grows_lets (hΓ : Γ.Valid) {lets : List (String × TypeExpr)}
    (hlets : TypeExpr.evalLets Γ lets = .ok Δ) : Γ.Grows Δ where
  toPrecedes := (TypeExpr.newOrHere_rules.evalLets lets hlets hΓ.values).1
  kept := (TypeExpr.evalLets_valid lets hΓ hlets).2.here

/-- Every reference inside of the type has an identity that is not free. -/
def Knows (Γ : Context) (t : Ty) : Prop :=
  ∀ p ∈ t.parts, ∀ id, p.target? = some id → id < Γ.fresh

theorem Knows.component {u : Ty} (ht : Γ.Knows t) (hu : u ∈ t.components) :
    Γ.Knows u :=
  fun p hp => ht p (Ty.mem_parts_trans hp (Ty.mem_parts_of_component hu))

/-- Holding a reference brings no definition. -/
theorem here_of_find?_ref {form : Form} {name : String} {target id : DefId}
    {d : Ty} (hd : (Δ.scope [.ref form name target]).find? id = some d) :
    Δ.Here d := by
  have hpart := Scope.mem_parts_of_find? hd
  rw [Ty.partsOfList_append, List.mem_append] at hpart
  rcases hpart with hpart | hpart
  · exact hpart
  · obtain ⟨u, hu, hpart⟩ := Ty.mem_partsOfList.mp hpart
    rw [List.mem_singleton.mp hu, Ty.parts, List.mem_singleton] at hpart
    have hid := Scope.defId?_of_find? hd
    rw [hpart] at hid
    cases hid

/-- Whether a known type accepts null does not depend on what else has been
defined. -/
theorem Grows.isNullable_eq (hΔ : Γ.Grows Δ) (ht : Γ.Knows t)
    (hvalid : (Δ.holdAll [t]).Valid) :
    (Δ.scope [t]).isNullable t = (Scope.ofHeld Γ.held).isNullable t := by
  cases t with
  | ref form name id =>
      rw [Scope.isNullable, Scope.isNullable, Scope.resolve, Scope.resolve]
      cases hfind : (Scope.ofHeld Γ.held).find? id with
      | some d =>
          -- what can be followed here leads to the same there
          have hpart : d ∈ Ty.partsOfList (Δ.held ++ [.ref form name id]) := by
            rw [Ty.partsOfList_append]
            exact List.mem_append_left _
              (hΔ.kept d (Scope.mem_parts_of_find? hfind))
          rw [scope, Scope.find?_of_part hvalid.consistent hpart
            (Scope.defId?_of_find? hfind)]
      | none =>
          cases hfind' : (Δ.scope [.ref form name id]).find? id with
          | none => rfl
          | some d =>
              -- a new definition has none of the known identities
              have hid := Scope.defId?_of_find? hfind'
              rcases hΔ.here d id (here_of_find?_ref hfind') hid with hd | hnew
              · exact (Scope.find?_eq_none_iff.mp hfind d hd hid).elim
              · have hlt := ht _ (Ty.mem_parts_self _) id rfl
                exact absurd hlt (Nat.not_lt.mpr hnew)
  | _ => rfl

-- what is given up matters
example :
    let r : Ty := .ref .union "U" 1
    let u : Ty := .union (.recursive "U" 1) [.null, .array r]
    (Scope.ofHeld [u]).isNullable r = true
      ∧ (Scope.ofHeld []).isNullable r = false := by
  decide +kernel

/-! ## The same expressions -/

/-- The expression stands for the type inside of every definition that is
begun here, whatever is held. -/
def Denotes (Γ : Context) (e : TypeExpr) (t : Ty) : Prop :=
  ∀ Δ : Context, Δ.types = Γ.types → Δ.values = Γ.values →
    Δ.handles.tail = Γ.handles → TypeExpr.eval Δ e = .ok t

/-- Inside of a definition that is begun in `Γ₁`, where `Γ₁` has come from
`Γ`. -/
structure Inside (Γ Γ₁ : Context) (h : Handle) (Δ : Context) : Prop
    extends Γ.Grows Δ where
  types : Δ.types = Γ₁.types
  values : Δ.values = Γ₁.values
  handles : Δ.handles = h :: Γ₁.handles
  valid : Δ.Valid

theorem Grows.inside (hΓ : Γ.Grows Γ₁) (hvalid : Γ₁.Valid) (form : Form)
    (name : Option String) :
    Γ.Inside Γ₁ ⟨form, name, Γ₁.fresh⟩
      (Γ₁.enter ⟨form, name, Γ₁.fresh⟩) where
  toGrows := hΓ.trans (grows_enter Γ₁ _)
  types := rfl
  values := rfl
  handles := rfl
  valid := hvalid.enterFresh form name

namespace Inside

theorem hold (hΔ : Γ.Inside Γ₁ h Δ) {e : TypeExpr}
    (heval : TypeExpr.eval Δ e = .ok x) : Γ.Inside Γ₁ h (Δ.hold x) where
  toGrows := hΔ.toGrows.trans (grows_hold hΔ.valid heval)
  types := hΔ.types
  values := hΔ.values
  handles := hΔ.handles
  valid := e.eval_valid hΔ.valid heval

theorem denoted {e : TypeExpr} (hΔ : Γ.Inside Γ₁ h Δ)
    (ht : Γ₁.Denotes e t) : TypeExpr.eval Δ e = .ok t := by
  refine ht Δ hΔ.types hΔ.values ?_
  rw [hΔ.handles]
  rfl

theorem isNullable_handle (hΔ : Γ.Inside Γ₁ h Δ)
    (hvalid : (Δ.holdAll [h.ref]).Valid) :
    (Δ.scope [h.ref]).isNullable h.ref = false := by
  have hmem : h ∈ Δ.handles := hΔ.handles ▸ List.mem_cons_self
  rw [Scope.isNullable, scope, hvalid.consistent.resolve_handle hmem]
  rfl

theorem isNullable_twin {c : Ty → Prop} (hknows : ∀ t, c t → Γ.Knows t)
    (hΔ : Γ.Inside Γ₁ h Δ) (hΔ' : Γ.Inside Γ₂ k Δ') (hx : (Δ.hold x).Valid)
    (hy : (Δ'.hold y).Valid) (ht : Ty.Twin c h k x y) :
    (Δ.scope [x]).isNullable x = (Δ'.scope [y]).isNullable y := by
  cases ht with
  | same ht =>
      rw [hΔ.toGrows.isNullable_eq (hknows _ ht) hx,
        hΔ'.toGrows.isNullable_eq (hknows _ ht) hy]
  | self => rw [hΔ.isNullable_handle hx, hΔ'.isNullable_handle hy]
  | union hvs => exact Ty.Twin.any_isNull hvs
  | struct => rfl

end Inside

end Context

namespace TypeExpr

theorem evalList_of_evalFields {es : List (String × TypeExpr)} :
    ∀ {Γ : Context} {fs : List (String × Ty)}, evalFields Γ es = .ok fs →
      fs.map Prod.fst = es.map Prod.fst
        ∧ evalList Γ (es.map Prod.snd) = .ok (fs.map Prod.snd) := by
  induction es with
  | nil =>
      intro Γ fs hfs
      rw [evalFields] at hfs
      obtain rfl := Except.ok.inj hfs
      exact ⟨rfl, by rw [List.map_nil, evalList]; rfl⟩
  | cons e es ih =>
      intro Γ fs hfs
      rw [evalFields] at hfs
      obtain ⟨t, ht, hfs⟩ := exists_of_bind_eq_ok hfs
      obtain ⟨rest, hrest, hfs⟩ := exists_of_bind_eq_ok hfs
      obtain rfl := Except.ok.inj hfs
      obtain ⟨hnames, hlist⟩ := ih hrest
      refine ⟨congrArg (e.1 :: ·) hnames, ?_⟩
      rw [List.map_cons, evalList, ht]
      show (evalList (Γ.hold t) (es.map Prod.snd) >>= _) = _
      rw [hlist]
      rfl

theorem evalFields_append {es es' : List (String × TypeExpr)} :
    ∀ {Γ : Context} {fs : List (String × Ty)},
      evalFields Γ (es ++ es') = .ok fs →
      ∃ gs extra, fs = gs ++ extra ∧ evalFields Γ es = .ok gs := by
  induction es with
  | nil =>
      intro Γ fs _
      exact ⟨[], fs, rfl, by rw [evalFields]⟩
  | cons e es ih =>
      intro Γ fs hfs
      rw [List.cons_append, evalFields] at hfs
      obtain ⟨t, ht, hfs⟩ := exists_of_bind_eq_ok hfs
      obtain ⟨rest, hrest, hfs⟩ := exists_of_bind_eq_ok hfs
      obtain rfl := Except.ok.inj hfs
      obtain ⟨gs, extra, rfl, hgs⟩ := ih hrest
      refine ⟨(e.1, t) :: gs, extra, rfl, ?_⟩
      rw [evalFields, ht]
      show (evalFields (Γ.hold t) es >>= _) = _
      rw [hgs]
      rfl

/-- What a definition of a struct is evaluated to. -/
theorem eval_defineStruct {Γ : Context} {name : Option String}
    {es : List (String × TypeExpr)} {t : Ty}
    (heval : eval Γ (.defineStruct name [] es) = .ok t) :
    let h : Handle := ⟨.struct, name, Γ.fresh⟩
    ∃ fs, evalFields (Γ.enter h) es = .ok fs
      ∧ h.defineStruct Γ.held fs = .ok t := by
  intro h
  rw [eval] at heval
  obtain ⟨Δ, hΔ, heval⟩ := exists_of_bind_eq_ok heval
  rw [evalLets] at hΔ
  obtain rfl := Except.ok.inj hΔ
  obtain ⟨fs, hfs, heval⟩ := exists_of_bind_eq_ok heval
  exact ⟨fs, hfs, Fault.lift_ok heval⟩

/-- An expression for a type that refers to the definition under
construction only inside of plain structs and unions, and otherwise uses
types that are the same in both contexts, have none of the names and were
known before. -/
inductive Template (Γ Γ₁ Γ₂ : Context) (names : List String) :
    TypeExpr → Prop where
  | constant {e t} (h₁ : Γ₁.Denotes e t) (h₂ : Γ₂.Denotes e t)
      (ht : t.AvoidsNames names) (hknown : Γ.Knows t) :
      Template Γ Γ₁ Γ₂ names e
  | self : Template Γ Γ₁ Γ₂ names (.self 0)
  | struct {name es} (h : ∀ e ∈ es, Template Γ Γ₁ Γ₂ names e.2) :
      Template Γ Γ₁ Γ₂ names (.struct name es)
  | union {name es} (h : ∀ e ∈ es, Template Γ Γ₁ Γ₂ names e) :
      Template Γ Γ₁ Γ₂ names (.union name es)
  | unionOf {a b} (ha : Template Γ Γ₁ Γ₂ names a)
      (hb : Template Γ Γ₁ Γ₂ names b) : Template Γ Γ₁ Γ₂ names (.unionOf a b)
  | nullable {e} (h : Template Γ Γ₁ Γ₂ names e) :
      Template Γ Γ₁ Γ₂ names (.nullable e)

end TypeExpr

namespace Context

variable {Γ Γ₁ Γ₂ : Context} {names : List String} {h k : Handle}

/-- A type that is the same inside of both definitions. -/
def Constant (Γ : Context) (names : List String) (t : Ty) : Prop :=
  t.AvoidsNames names ∧ Γ.Knows t

theorem constant_null : Γ.Constant names .null := by
  refine ⟨Ty.avoidsNames_null, fun p hp id hid => ?_⟩
  rw [Ty.parts, List.mem_singleton] at hp
  rw [hp] at hid
  cases hid

theorem apart_constant (l p : String) (i j : DefId) :
    Ty.Apart ⟨.struct, some l, i⟩ ⟨.struct, some p, j⟩ (Γ.Constant [l, p]) :=
  (Ty.apart_avoidsNames l p i j).and Knows.component

/-- Evaluated inside of two definitions, the expression gives what the two
get from one body. -/
def GivesBody (Γ Γ₁ Γ₂ : Context) (names : List String) (h k : Handle)
    (e : TypeExpr) : Prop :=
  ∀ Δ Δ' x y, Γ.Inside Γ₁ h Δ → Γ.Inside Γ₂ k Δ' →
    TypeExpr.eval Δ e = .ok x → TypeExpr.eval Δ' e = .ok y →
    ∃ b, Ty.Body (Γ.Constant names) b ∧ b h = x ∧ b k = y

theorem evalList_bodies {es : List TypeExpr}
    (hes : ∀ e ∈ es, Γ.GivesBody Γ₁ Γ₂ names h k e) :
    ∀ {Δ Δ' xs ys}, Γ.Inside Γ₁ h Δ → Γ.Inside Γ₂ k Δ' →
      TypeExpr.evalList Δ es = .ok xs → TypeExpr.evalList Δ' es = .ok ys →
      ∃ bs : List (Handle → Ty), (∀ b ∈ bs, Ty.Body (Γ.Constant names) b)
        ∧ bs.map (· h) = xs ∧ bs.map (· k) = ys := by
  induction es with
  | nil =>
      intro Δ Δ' xs ys _ _ hxs hys
      rw [TypeExpr.evalList] at hxs hys
      obtain rfl := Except.ok.inj hxs
      obtain rfl := Except.ok.inj hys
      exact ⟨[], List.forall_mem_nil _, rfl, rfl⟩
  | cons e es ih =>
      intro Δ Δ' xs ys hΔ hΔ' hxs hys
      rw [TypeExpr.evalList] at hxs hys
      obtain ⟨x, hx, hxs⟩ := exists_of_bind_eq_ok hxs
      obtain ⟨xs, hrest, hxs⟩ := exists_of_bind_eq_ok hxs
      obtain ⟨y, hy, hys⟩ := exists_of_bind_eq_ok hys
      obtain ⟨ys, hrest', hys⟩ := exists_of_bind_eq_ok hys
      obtain rfl := Except.ok.inj hxs
      obtain rfl := Except.ok.inj hys
      obtain ⟨hhead, htail⟩ := List.forall_mem_cons.mp hes
      obtain ⟨b, hb, rfl, rfl⟩ := hhead Δ Δ' x y hΔ hΔ' hx hy
      obtain ⟨bs, hbs, rfl, rfl⟩ :=
        ih htail (hΔ.hold hx) (hΔ'.hold hy) hrest hrest'
      exact ⟨b :: bs, List.forall_mem_cons.mpr ⟨hb, hbs⟩, rfl, rfl⟩

theorem evalFields_bodies {es : List (String × TypeExpr)}
    (hes : ∀ e ∈ es, Γ.GivesBody Γ₁ Γ₂ names h k e.2) {Δ Δ' : Context}
    {fs gs : List (String × Ty)} (hΔ : Γ.Inside Γ₁ h Δ)
    (hΔ' : Γ.Inside Γ₂ k Δ') (hfs : TypeExpr.evalFields Δ es = .ok fs)
    (hgs : TypeExpr.evalFields Δ' es = .ok gs) :
    ∃ body : List (String × (Handle → Ty)),
      (∀ f ∈ body, Ty.Body (Γ.Constant names) f.2)
        ∧ Ty.fieldsAt body h = fs ∧ Ty.fieldsAt body k = gs := by
  obtain ⟨hnames, hxs⟩ := TypeExpr.evalList_of_evalFields hfs
  obtain ⟨hnames', hys⟩ := TypeExpr.evalList_of_evalFields hgs
  obtain ⟨bs, hbs, hleft, hright⟩ :=
    evalList_bodies (List.forall_mem_map.mpr hes) hΔ hΔ' hxs hys
  refine ⟨(es.map Prod.fst).zip bs, fun f hf => ?_, ?_, ?_⟩
  · exact hbs f.2 (List.of_mem_zip hf).2
  · rw [List.zip_of_prod hnames hleft.symm, List.zip_map_right]
    rfl
  · rw [List.zip_of_prod hnames' hright.symm, List.zip_map_right]
    rfl

/-- The same expressions give one body. -/
theorem givesBody_of_template (hc : Ty.Apart h k (Γ.Constant names))
    {e : TypeExpr} (he : e.Template Γ Γ₁ Γ₂ names) :
    Γ.GivesBody Γ₁ Γ₂ names h k e := by
  induction he with
  | constant h₁ h₂ ht hknown =>
      intro Δ Δ' x y hΔ hΔ' hx hy
      obtain rfl := Except.ok.inj ((hΔ.denoted h₁).symm.trans hx)
      obtain rfl := Except.ok.inj ((hΔ'.denoted h₂).symm.trans hy)
      exact ⟨_, .constant ⟨ht, hknown⟩, rfl, rfl⟩
  | self =>
      intro Δ Δ' x y hΔ hΔ' hx hy
      rw [TypeExpr.eval, hΔ.handles] at hx
      rw [TypeExpr.eval, hΔ'.handles] at hy
      exact ⟨_, .self, Except.ok.inj hx, Except.ok.inj hy⟩
  | struct _ ih =>
      intro Δ Δ' x y hΔ hΔ' hx hy
      rw [TypeExpr.eval] at hx hy
      obtain ⟨fs, hfs, hx⟩ := exists_of_bind_eq_ok hx
      obtain ⟨gs, hgs, hy⟩ := exists_of_bind_eq_ok hy
      obtain ⟨body, hbody, rfl, rfl⟩ := evalFields_bodies ih hΔ hΔ' hfs hgs
      obtain ⟨rfl, -⟩ := Ty.structOf_ok (Fault.lift_ok hx)
      obtain ⟨rfl, -⟩ := Ty.structOf_ok (Fault.lift_ok hy)
      exact ⟨_, .struct hbody, rfl, rfl⟩
  | union _ ih =>
      intro Δ Δ' x y hΔ hΔ' hx hy
      rw [TypeExpr.eval] at hx hy
      obtain ⟨xs, hxs, hx⟩ := exists_of_bind_eq_ok hx
      obtain ⟨ys, hys, hy⟩ := exists_of_bind_eq_ok hy
      obtain ⟨bs, hbs, rfl, rfl⟩ := evalList_bodies ih hΔ hΔ' hxs hys
      obtain ⟨rfl, -⟩ := Ty.unionOfList_ok (Fault.lift_ok hx)
      obtain ⟨rfl, -⟩ := Ty.unionOfList_ok (Fault.lift_ok hy)
      exact ⟨_, .union hbs, rfl, rfl⟩
  | unionOf _ _ iha ihb =>
      intro Δ Δ' x y hΔ hΔ' hx hy
      rw [TypeExpr.eval] at hx hy
      obtain ⟨a, ha, hx⟩ := exists_of_bind_eq_ok hx
      obtain ⟨b, hb, hx⟩ := exists_of_bind_eq_ok hx
      obtain ⟨a', ha', hy⟩ := exists_of_bind_eq_ok hy
      obtain ⟨b', hb', hy⟩ := exists_of_bind_eq_ok hy
      obtain ⟨f, hf, rfl, rfl⟩ := iha Δ Δ' a a' hΔ hΔ' ha ha'
      obtain ⟨g, hg, rfl, rfl⟩ :=
        ihb _ _ b b' (hΔ.hold ha) (hΔ'.hold ha') hb hb'
      obtain ⟨-, rfl⟩ := Ty.unionOf_ok (Fault.lift_ok hx)
      obtain ⟨-, rfl⟩ := Ty.unionOf_ok (Fault.lift_ok hy)
      exact ⟨_, .unionOf hf hg, rfl, rfl⟩
  | @nullable e _ ih =>
      intro Δ Δ' x y hΔ hΔ' hx hy
      rw [TypeExpr.eval] at hx hy
      obtain ⟨a, ha, hx⟩ := exists_of_bind_eq_ok hx
      obtain ⟨a', ha', hy⟩ := exists_of_bind_eq_ok hy
      obtain rfl := Except.ok.inj hx
      obtain rfl := Except.ok.inj hy
      obtain ⟨b, hb, rfl, rfl⟩ := ih Δ Δ' a a' hΔ hΔ' ha ha'
      -- null is added inside of both definitions or inside of neither
      have hsame := hΔ.isNullable_twin (fun _ ht => ht.2) hΔ'
        (e.eval_valid hΔ.valid ha) (e.eval_valid hΔ'.valid ha')
        (hb.twin hc constant_null)
      cases hnull : (Δ.scope [b h]).isNullable (b h) with
      | true =>
          rw [hnull] at hsame
          exact ⟨b, hb, (Scope.nullable_of_nullable hnull).symm,
            (Scope.nullable_of_nullable hsame.symm).symm⟩
      | false =>
          rw [hnull] at hsame
          exact ⟨_, .orNull hb, (Scope.nullable_eq hnull).symm,
            (Scope.nullable_eq hsame.symm).symm⟩

/-- Two definitions are made after any local names have been defined. They
have the same fields, given by the same expressions, but `l` has more. Then
`l` is a subtype of `p` at every moment at which both are held. -/
theorem Arises.isSubtype_of_same_expressions (hΓ : Γ.Arises)
    {lets₁ lets₂ : List (String × TypeExpr)}
    (hlets₁ : TypeExpr.evalLets Γ lets₁ = .ok Γ₁)
    (hlets₂ : TypeExpr.evalLets Γ lets₂ = .ok Γ₂) {l p : String}
    {es extra : List (String × TypeExpr)}
    (hes : ∀ e ∈ es, e.2.Template Γ Γ₁ Γ₂ [l, p]) {a b : Ty}
    (ha : TypeExpr.eval Γ₁ (.defineStruct (some l) [] (es ++ extra)) = .ok a)
    (hb : TypeExpr.eval Γ₂ (.defineStruct (some p) [] es) = .ok b)
    {held : List Ty} {handles : List Handle} (hm : Moment held handles)
    (hheld : a ∈ Ty.partsOfList held) (hheld' : b ∈ Ty.partsOfList held) :
    (Scope.ofHeld held).isSubtype a b = true := by
  obtain ⟨all, hall, ha⟩ := TypeExpr.eval_defineStruct ha
  obtain ⟨gs, hgs, hb⟩ := TypeExpr.eval_defineStruct hb
  obtain ⟨fs, more, rfl, hfs⟩ := TypeExpr.evalFields_append hall
  have hapart : Ty.Apart _ _ (Γ.Constant [l, p]) :=
    apart_constant l p Γ₁.fresh Γ₂.fresh
  have hinside₁ := (grows_lets hΓ.valid hlets₁).inside
    (hΓ.lets hlets₁).valid .struct (some l)
  have hinside₂ := (grows_lets hΓ.valid hlets₂).inside
    (hΓ.lets hlets₂).valid .struct (some p)
  obtain ⟨body, hbody, rfl, rfl⟩ := evalFields_bodies (fun e he =>
    givesBody_of_template hapart (hes e he)) hinside₁ hinside₂ hfs hgs
  exact Scope.isSubtype_of_body hm.consistent hapart constant_null hbody ha hb
    hheld hheld'

end Context

end Schemata
