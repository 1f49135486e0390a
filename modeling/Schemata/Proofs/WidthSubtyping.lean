import Mathlib
import Schemata.Proofs.Moments
import Schemata.Proofs.Twins

/-!
# Width subtyping of recursive structs

A struct that has the fields of another one and more is a subtype of it,
also if both are recursive, so that the fields are not the same: where one
refers to itself, the other refers to itself
(`Moment.isSubtype_of_more_fields`).

What the two have in common is a body: the types of the fields as functions
of the handle, built from other types and the handle by structs and unions
(`Ty.Body`). What two definitions get from one body are twins
(`Body.twin`). It does not matter when the definitions are made, and what is
made or given up in between.
-/

namespace Schemata

/-! ## Bodies -/

namespace Ty

variable {c : Ty → Prop} {h k : Handle}

/-- No recursive struct inside of the type, and no reference to one, has one
of the names. -/
def AvoidsNames (names : List String) (t : Ty) : Prop :=
  ∀ p ∈ t.parts, ∀ name ∈ names, p.nominal? ≠ some (.struct, name)

/-- The fields that the definition with the handle gets. -/
def fieldsAt (fields : List (String × (Handle → Ty))) (h : Handle) :
    List (String × Ty) :=
  fields.map fun f => (f.1, f.2 h)

/-- What can be built from the types of `c` and the handle of a definition,
as a function of the handle. -/
inductive Body (c : Ty → Prop) : (Handle → Ty) → Prop where
  | constant {t} (ht : c t) : Body c fun _ => t
  | self : Body c Handle.ref
  | struct {name} {fields : List (String × (Handle → Ty))}
      (hfields : ∀ f ∈ fields, Body c f.2) :
      Body c fun h => .struct (.plain name) (fieldsAt fields h)
  | union {name} {variants : List (Handle → Ty)}
      (hvariants : ∀ v ∈ variants, Body c v) :
      Body c fun h => .union (.plain name) (distinct (variants.map (· h)))
  | unionOf {a b} (ha : Body c a) (hb : Body c b) :
      Body c fun h => .union (.plain none) (joined (a h) (b h))
  /-- What `nullable` makes of a type that does not accept null; a type that
  does is left as it is. -/
  | orNull {b} (hb : Body c b) :
      Body c fun h => .union (.plain none) (joined (b h) .null)

theorem forall₂_map_at {bodies : List (Handle → Ty)}
    (hbodies : ∀ b ∈ bodies, Twin c h k (b h) (b k)) :
    List.Forall₂ (Twin c h k) (bodies.map (· h)) (bodies.map (· k)) := by
  rw [List.forall₂_map_left_iff, List.forall₂_map_right_iff]
  exact List.forall₂_same.mpr hbodies

theorem forall₂_fieldsAt {fields : List (String × (Handle → Ty))}
    (hfields : ∀ f ∈ fields, Twin c h k (f.2 h) (f.2 k)) :
    List.Forall₂ (TwinField c h k) (fieldsAt fields h) (fieldsAt fields k) := by
  rw [fieldsAt, fieldsAt, List.forall₂_map_left_iff,
    List.forall₂_map_right_iff]
  exact List.forall₂_same.mpr fun f hf => ⟨rfl, hfields f hf⟩

/-- Two definitions get twins from a body. -/
theorem Body.twin {b : Handle → Ty} (hc : Apart h k c) (hnull : c .null)
    (hb : Body c b) : Twin c h k (b h) (b k) := by
  induction hb with
  | constant ht => exact .same ht
  | self => exact .self
  | struct _ ih =>
      obtain ⟨hnames, hfields⟩ :=
        forall₂_twinField_iff.mp (forall₂_fieldsAt ih)
      exact .struct hnames hfields
  | union _ ih => exact .union (Twin.distinct hc (forall₂_map_at ih))
  | unionOf _ _ iha ihb => exact .union (iha.joined hc ihb)
  | orNull _ ih => exact .union (ih.joined hc (.same hnull))

theorem avoidsNames_null {names : List String} : Ty.null.AvoidsNames names := by
  intro p hp name _
  rw [parts, List.mem_singleton] at hp
  rw [hp]
  nofun

theorem apart_avoidsNames (l p : String) (i j : DefId) :
    Apart ⟨.struct, some l, i⟩ ⟨.struct, some p, j⟩ (AvoidsNames [l, p]) where
  component ht hu q hq :=
    ht q (mem_parts_trans hq (mem_parts_of_component hu))
  left ht := ht _ (mem_parts_self _) l (by simp)
  right ht := ht _ (mem_parts_self _) p (by simp)

end Ty

/-! ## Definitions -/

/-- Two definitions get the fields of a body, and the first of them gets
others as well. -/
theorem Scope.isSubtype_of_body {c : Ty → Prop} {h k : Handle}
    {body : List (String × (Handle → Ty))} {extra : List (String × Ty)}
    {held₁ held₂ held : List Ty} {handles : List Handle} {a b : Ty}
    (hc : Consistent (· ∈ Ty.partsOfList held) handles)
    (hapart : Ty.Apart h k c) (hnull : c .null)
    (hbody : ∀ f ∈ body, Ty.Body c f.2)
    (ha : h.defineStruct held₁ (Ty.fieldsAt body h ++ extra) = .ok a)
    (hb : k.defineStruct held₂ (Ty.fieldsAt body k) = .ok b)
    (hheld : a ∈ Ty.partsOfList held) (hheld' : b ∈ Ty.partsOfList held) :
    (ofHeld held).isSubtype a b = true := by
  have hla := Handle.defineStruct_labels ha
  have hlb := Handle.defineStruct_labels hb
  obtain ⟨la, rfl, -⟩ := Handle.exists_label_of_defineStruct ha
  obtain ⟨lb, rfl, -⟩ := Handle.exists_label_of_defineStruct hb
  have hfields := Ty.forall₂_fieldsAt fun f hf =>
    (hbody f hf).twin hapart hnull
  exact isSubtype_of_twins hc hfields hheld hheld' hla hlb

namespace Moment

/-- A definition with the name `p` gets the fields of a body, and one with
the name `l` gets those and others. Nothing else in the body has one of the
names. The two are made at whatever moments; at every moment at which both
are held, `l` is a subtype of `p`. -/
theorem isSubtype_of_more_fields {l p : String} {i j : DefId}
    {body : List (String × (Handle → Ty))} {extra : List (String × Ty)}
    {held₁ held₂ held : List Ty} {handles : List Handle} {a b : Ty}
    (hbody : ∀ f ∈ body, Ty.Body (Ty.AvoidsNames [l, p]) f.2)
    (ha : Handle.defineStruct ⟨.struct, some l, i⟩ held₁
      (Ty.fieldsAt body ⟨.struct, some l, i⟩ ++ extra) = .ok a)
    (hb : Handle.defineStruct ⟨.struct, some p, j⟩ held₂
      (Ty.fieldsAt body ⟨.struct, some p, j⟩) = .ok b)
    (hm : Moment held handles) (hheld : a ∈ Ty.partsOfList held)
    (hheld' : b ∈ Ty.partsOfList held) :
    (Scope.ofHeld held).isSubtype a b = true :=
  Scope.isSubtype_of_body hm.consistent (Ty.apart_avoidsNames l p i j)
    Ty.avoidsNames_null hbody ha hb hheld hheld'

/-- The definition is used inside of a union, together with another
recursive struct, and inside of a struct. Between the two definitions
something else is defined. -/
theorem isSubtype_of_labeled_list :
    let X : Ty := .struct (.recursive "X" 1)
      [("x", .union (.plain none) [.ref .struct "X" 1, .null])]
    let Q : Ty := .struct (.recursive "Q" 3)
      [("q", .union (.plain none) [.ref .struct "Q" 3, .null])]
    let nested (h : Handle) : Ty :=
      .union (.plain none) (Ty.distinct ([fun _ => .null, Handle.ref].map (· h)))
    let body : List (String × (Handle → Ty)) :=
      [("next", fun h => .union (.plain none) (Ty.joined h.ref .null)),
        ("other", fun h => .union (.plain none) (Ty.joined X
          (.struct (.plain none) (Ty.fieldsAt [("s", nested)] h))))]
    let extra : List (String × Ty) := [("label", .scalar .string)]
    let a : Ty := .struct (.recursive "L" 2)
      (Ty.fieldsAt body ⟨.struct, some "L", 2⟩ ++ extra)
    let b : Ty := .struct (.recursive "P" 4)
      (Ty.fieldsAt body ⟨.struct, some "P", 4⟩)
    let es : List (String × TypeExpr) :=
      [("next", .nullable (.self 0)),
        ("other", .unionOf (.var "x")
          (.struct none [("s", .union none [.null, .self 0])]))]
    let lets : List (String × TypeExpr) :=
      [("x", .defineStruct (some "X") [] [("x", .nullable (.self 0))]),
        ("l", .defineStruct (some "L") [] (es ++ [("label", .scalar .string)])),
        ("q", .defineStruct (some "Q") [] [("q", .nullable (.self 0))])]
    let Γ := Session.empty.context
    let Δ := ((Γ.bind "x" X).bind "l" a).bind "q" Q
    TypeExpr.evalLets Γ lets = .ok Δ
      ∧ TypeExpr.evalList Δ [.defineStruct (some "P") [] es] = .ok [b]
      ∧ (Δ.scope [b]).isSubtype a b = true
      ∧ (Δ.scope [b]).isSubtype b a = false := by
  intro X Q nested body extra a b es lets Γ Δ
  obtain ⟨ha, hb, hlets, heval⟩ :
      Handle.defineStruct ⟨.struct, some "L", 2⟩ [X]
          (Ty.fieldsAt body ⟨.struct, some "L", 2⟩ ++ extra) = .ok a
        ∧ Handle.defineStruct ⟨.struct, some "P", 4⟩ [X, a, Q]
          (Ty.fieldsAt body ⟨.struct, some "P", 4⟩) = .ok b
        ∧ TypeExpr.evalLets Γ lets = .ok Δ
        ∧ TypeExpr.evalList Δ [.defineStruct (some "P") [] es] = .ok [b] := by
    refine ⟨?_, ?_, ?_, ?_⟩ <;> cbv
  have hΔ : Δ.Arises := .lets (.session .empty) hlets
  have hnull : Ty.Body (Ty.AvoidsNames ["L", "P"]) fun _ => .null :=
    .constant Ty.avoidsNames_null
  have hX : Ty.Body (Ty.AvoidsNames ["L", "P"]) fun _ => X :=
    .constant (by unfold Ty.AvoidsNames; decide)
  have hnested : Ty.Body (Ty.AvoidsNames ["L", "P"]) nested :=
    .union (by simp [hnull, Ty.Body.self])
  have hstruct : Ty.Body (Ty.AvoidsNames ["L", "P"]) fun h =>
      .struct (.plain none) (Ty.fieldsAt [("s", nested)] h) :=
    .struct (by simp [hnested])
  have hbody : ∀ f ∈ body, Ty.Body (Ty.AvoidsNames ["L", "P"]) f.2 := by
    simp [body, Ty.Body.orNull .self, Ty.Body.unionOf hX hstruct]
  have hhere : Δ.Here a := Context.here_bind.mpr
    (Or.inr (Context.here_bind.mpr (Or.inl (Ty.mem_parts_self a))))
  have hheld : a ∈ Ty.partsOfList (Δ.held ++ [b]) := by
    rw [Ty.partsOfList_append]
    exact List.mem_append_left _ hhere
  have hheld' : b ∈ Ty.partsOfList (Δ.held ++ [b]) :=
    Ty.mem_partsOfList_self (List.mem_append_right _ List.mem_cons_self)
  refine ⟨hlets, heval, ?_, by decide +kernel⟩
  exact isSubtype_of_more_fields hbody ha hb (.evaluated hΔ heval) hheld hheld'

end Moment

end Schemata
