import Mathlib
import Schemata.Proofs.Building
import Schemata.Session.Basic

/-!
# Induction over evaluation

There are many forms of expressions, and few things that their evaluation
does to types. It hands out a leaf, a type that is held, the reference of a
handle, or a component of what was evaluated; it applies one of the checked
constructors to operands; it completes a definition; and it follows a
reference. `TypeExpr.Rules` has one rule for each of these. It is about what
is true of a type in the context in which it was evaluated (`P`), of the
operands that were evaluated one after the other (`Q`), and of a context and
what local names make of it (`R`).

What obeys the rules holds of all that is evaluated (`Rules.eval`), so that a
property of evaluation is proved rule by rule, and expressions are taken apart
once.
-/

namespace Schemata

theorem Fault.lift_ok {α : Type} {x : Except Error α} {a : α}
    (h : lift x = .ok a) : x = .ok a := by
  cases x with
  | error e => cases h
  | ok b => exact congrArg Except.ok (Except.ok.inj h)

theorem Fault.ofOption_ok {α : Type} {x : Option α} {a : α}
    (h : ofOption x = .ok a) : x = some a := by
  cases x with
  | none => cases h
  | some b => exact congrArg some (Except.ok.inj h)

/-- A schema has the columns that it was made of. -/
theorem Context.fields_of_schemaOf {columns : List (String × Ty)} {s : Schema}
    (hs : TypeExpr.schemaOf columns = .ok s) : s.fields = columns := by
  have hs := Fault.lift_ok hs
  unfold Schema.ofColumns at hs
  split at hs
  · cases hs
  · obtain rfl := Except.ok.inj hs
    exact List.map_map.trans (List.map_id columns)

namespace TypeExpr

/-! ## Projections -/

theorem mem_components_of_element? {t c : Ty} (h : t.element? = some c) :
    c ∈ t.components := by
  cases t <;> simp_all [Ty.element?, Ty.components]

theorem mem_components_of_item? {i : Nat} {t c : Ty} (h : t.item? i = some c) :
    c ∈ t.components := by
  cases t with
  | tuple elements => exact List.mem_of_getElem? h
  | _ => simp [Ty.item?, Ty.elements?] at h

theorem mem_components_of_key? {t c : Ty}
    (h : t.key?.map Ty.scalar = some c) : c ∈ t.components := by
  cases t <;> simp_all [Ty.key?, Ty.components]

theorem mem_components_of_value? {t c : Ty} (h : t.value? = some c) :
    c ∈ t.components := by
  cases t <;> simp_all [Ty.value?, Ty.components]

theorem mem_components_of_field? {name : String} {t c : Ty}
    (h : t.field? name = some c) : c ∈ t.components := by
  cases t with
  | struct label fields => exact List.mem_map.mpr ⟨_, mem_of_lookup h, rfl⟩
  | _ => simp [Ty.field?] at h

theorem mem_components_of_variant? {i : Nat} {t c : Ty}
    (h : t.variant? i = some c) : c ∈ t.components := by
  cases t with
  | union label variants => exact List.mem_of_getElem? h
  | _ => simp [Ty.variant?] at h

/-! ## The rules -/

/-- What evaluation does to types, step by step. -/
structure Rules (P : Context → Ty → Prop) (Q : Context → List Ty → Prop)
    (R : Context → Context → Prop) : Prop where
  any {Γ} : P Γ .any
  null {Γ} : P Γ .null
  scalar {Γ s t} : Ty.ofScalar s = .ok t → P Γ t
  array {Γ t} : P Γ t → P Γ (.array t)
  tuple {Γ ts} : Q Γ ts → P Γ (.tuple ts)
  map {Γ key value t} : Q Γ [key, value] → Ty.mapOf key value = .ok t → P Γ t
  unionOf {Γ a b t} : Q Γ [a, b] → Ty.unionOf a b = .ok t → P Γ t
  nullable {Γ t} : P Γ t → P Γ ((Γ.scope [t]).nullable t)
  struct {Γ name fields t} : Q Γ (fields.map Prod.snd) →
    Ty.structOf name fields = .ok t → P Γ t
  union {Γ name variants t} : Q Γ variants →
    Ty.unionOfList name variants = .ok t → P Γ t
  defineStruct {Γ Δ name fields t} : R (Γ.enter ⟨.struct, name, Γ.fresh⟩) Δ →
    Q Δ (fields.map Prod.snd) →
    Handle.defineStruct ⟨.struct, name, Γ.fresh⟩ Γ.held fields = .ok t → P Γ t
  defineUnion {Γ Δ name variants t} : R (Γ.enter ⟨.union, name, Γ.fresh⟩) Δ →
    Q Δ variants →
    Handle.defineUnion ⟨.union, name, Γ.fresh⟩ Γ.held variants = .ok t → P Γ t
  handle {Γ k} : k ∈ Γ.handles → P Γ k.ref
  held {Γ t} : t ∈ Γ.held → P Γ t
  component {Γ t c} : P Γ t → c ∈ t.components → P Γ c
  resolve {Γ t} : P Γ t → P Γ ((Γ.scope [t]).resolve t)
  natural {Γ e v} : ValueExpr.eval Γ.values e = .ok v → P Γ v.naturalType
  -- operands, each of which is held while those after it are evaluated
  nil {Γ} : Q Γ []
  cons {Γ t ts} : P Γ t → Q (Γ.hold t) ts → Q Γ (t :: ts)
  -- local names
  stay {Γ} : R Γ Γ
  bind {Γ Δ name t} : P Γ t → R (Γ.bind name t) Δ → R Γ Δ

namespace Rules

variable {P : Context → Ty → Prop} {Q : Context → List Ty → Prop}
  {R : Context → Context → Prop}

theorem projection (r : Rules P Q R) {Γ : Context} {x : Except Fault Ty}
    {part? : Ty → Option Ty} {c : Ty}
    (hpart : ∀ {t c}, part? t = some c → c ∈ t.components)
    (hx : ∀ {t}, x = .ok t → P Γ t)
    (h : (x >>= fun t => Fault.ofOption (part? t)) = .ok c) : P Γ c := by
  obtain ⟨t, ht, h⟩ := exists_of_bind_eq_ok h
  exact r.component (hx ht) (hpart (Fault.ofOption_ok h))

/-- The struct or row of a schema is the struct of its columns. -/
theorem schema (r : Rules P Q R) {Γ : Context} {name : Option String}
    {columns : List (String × Ty)} {s : Schema} {t : Ty}
    (hcolumns : Q Γ (columns.map Prod.snd)) (hs : schemaOf columns = .ok s)
    (h : Ty.structOf name s.fields = .ok t) : P Γ t := by
  rw [Context.fields_of_schemaOf hs] at h
  exact r.struct hcolumns h

mutual

theorem eval (r : Rules P Q R) : ∀ (e : TypeExpr) {Γ : Context} {t : Ty},
    TypeExpr.eval Γ e = .ok t → P Γ t
  | .malformed, _, _, h => by
      rw [TypeExpr.eval] at h
      cases h
  | .any, _, _, h => by
      rw [TypeExpr.eval] at h
      exact Except.ok.inj h ▸ r.any
  | .null, _, _, h => by
      rw [TypeExpr.eval] at h
      exact Except.ok.inj h ▸ r.null
  | .scalar s, _, _, h => by
      rw [TypeExpr.eval] at h
      exact r.scalar (Fault.lift_ok h)
  | .decimal precision scale, _, t, h => by
      rw [TypeExpr.eval] at h
      have hok : Ty.ofScalar (.decimal precision scale) = .ok t :=
        Fault.lift_ok h
      exact r.scalar hok
  | .char length, _, t, h => by
      rw [TypeExpr.eval] at h
      have hok : Ty.ofScalar (.char length) = .ok t := Fault.lift_ok h
      exact r.scalar hok
  | .varchar length, _, t, h => by
      rw [TypeExpr.eval] at h
      have hok : Ty.ofScalar (.varchar length) = .ok t := Fault.lift_ok h
      exact r.scalar hok
  | .array e, _, _, h => by
      rw [TypeExpr.eval] at h
      obtain ⟨u, hu, h⟩ := exists_of_bind_eq_ok h
      exact Except.ok.inj h ▸ r.array (r.eval e hu)
  | .tuple es, _, _, h => by
      rw [TypeExpr.eval] at h
      obtain ⟨us, hus, h⟩ := exists_of_bind_eq_ok h
      exact Except.ok.inj h ▸ r.tuple (r.evalList es hus)
  | .map k e, _, _, h => by
      rw [TypeExpr.eval] at h
      obtain ⟨key, hkey, h⟩ := exists_of_bind_eq_ok h
      obtain ⟨value, hvalue, h⟩ := exists_of_bind_eq_ok h
      have hboth := r.cons (r.eval k hkey) (r.cons (r.eval e hvalue) r.nil)
      exact r.map hboth (Fault.lift_ok h)
  | .unionOf a b, _, _, h => by
      rw [TypeExpr.eval] at h
      obtain ⟨s, hs, h⟩ := exists_of_bind_eq_ok h
      obtain ⟨u, hu, h⟩ := exists_of_bind_eq_ok h
      have hboth := r.cons (r.eval a hs) (r.cons (r.eval b hu) r.nil)
      exact r.unionOf hboth (Fault.lift_ok h)
  | .nullable e, _, _, h => by
      rw [TypeExpr.eval] at h
      obtain ⟨u, hu, h⟩ := exists_of_bind_eq_ok h
      exact Except.ok.inj h ▸ r.nullable (r.eval e hu)
  | .struct name fields, _, _, h => by
      rw [TypeExpr.eval] at h
      obtain ⟨fs, hfs, h⟩ := exists_of_bind_eq_ok h
      exact r.struct (r.evalFields fields hfs) (Fault.lift_ok h)
  | .union name variants, _, _, h => by
      rw [TypeExpr.eval] at h
      obtain ⟨vs, hvs, h⟩ := exists_of_bind_eq_ok h
      exact r.union (r.evalList variants hvs) (Fault.lift_ok h)
  | .defineStruct name lets fields, _, _, h => by
      rw [TypeExpr.eval] at h
      obtain ⟨Δ, hΔ, h⟩ := exists_of_bind_eq_ok h
      obtain ⟨fs, hfs, h⟩ := exists_of_bind_eq_ok h
      exact r.defineStruct (r.evalLets lets hΔ) (r.evalFields fields hfs)
        (Fault.lift_ok h)
  | .defineUnion name lets variants, _, _, h => by
      rw [TypeExpr.eval] at h
      obtain ⟨Δ, hΔ, h⟩ := exists_of_bind_eq_ok h
      obtain ⟨vs, hvs, h⟩ := exists_of_bind_eq_ok h
      exact r.defineUnion (r.evalLets lets hΔ) (r.evalList variants hvs)
        (Fault.lift_ok h)
  | .self up, _, _, h => by
      rw [TypeExpr.eval] at h
      obtain ⟨k, hk, rfl⟩ := Option.map_eq_some_iff.mp (Fault.ofOption_ok h)
      exact r.handle (List.mem_of_getElem? hk)
  | .var name, _, _, h => by
      rw [TypeExpr.eval] at h
      have hmem := mem_of_lookup (Fault.ofOption_ok h)
      refine r.held (List.mem_append_left _ ?_)
      exact List.mem_map.mpr ⟨_, hmem, rfl⟩
  | .element e, _, _, h => by
      rw [TypeExpr.eval] at h
      exact r.projection mem_components_of_element? (r.eval e) h
  | .item e i, _, _, h => by
      rw [TypeExpr.eval] at h
      exact r.projection mem_components_of_item? (r.eval e) h
  | .key e, _, _, h => by
      rw [TypeExpr.eval] at h
      exact r.projection mem_components_of_key? (r.eval e) h
  | .value e, _, _, h => by
      rw [TypeExpr.eval] at h
      exact r.projection mem_components_of_value? (r.eval e) h
  | .field e name, _, _, h => by
      rw [TypeExpr.eval] at h
      exact r.projection mem_components_of_field? (r.eval e) h
  | .variant e i, _, _, h => by
      rw [TypeExpr.eval] at h
      exact r.projection mem_components_of_variant? (r.eval e) h
  | .resolve e, _, _, h => by
      rw [TypeExpr.eval] at h
      obtain ⟨u, hu, h⟩ := exists_of_bind_eq_ok h
      exact Except.ok.inj h ▸ r.resolve (r.eval e hu)
  | .schemaStruct columns, _, _, h => by
      rw [TypeExpr.eval] at h
      obtain ⟨cs, hcs, h⟩ := exists_of_bind_eq_ok h
      obtain ⟨s, hs, h⟩ := exists_of_bind_eq_ok h
      exact r.schema (r.evalFields columns hcs) hs (Fault.lift_ok h)
  | .row columns name, _, _, h => by
      rw [TypeExpr.eval] at h
      obtain ⟨cs, hcs, h⟩ := exists_of_bind_eq_ok h
      obtain ⟨s, hs, h⟩ := exists_of_bind_eq_ok h
      exact r.schema (r.evalFields columns hcs) hs (Fault.lift_ok h)
  | .natural e, _, _, h => by
      rw [TypeExpr.eval] at h
      obtain ⟨v, hv, h⟩ := exists_of_bind_eq_ok h
      exact Except.ok.inj h ▸ r.natural hv

theorem evalList (r : Rules P Q R) : ∀ (es : List TypeExpr) {Γ : Context}
    {ts : List Ty}, TypeExpr.evalList Γ es = .ok ts → Q Γ ts
  | [], _, _, h => by
      rw [TypeExpr.evalList] at h
      exact Except.ok.inj h ▸ r.nil
  | e :: es, _, _, h => by
      rw [TypeExpr.evalList] at h
      obtain ⟨t, ht, h⟩ := exists_of_bind_eq_ok h
      obtain ⟨ts, hts, h⟩ := exists_of_bind_eq_ok h
      exact Except.ok.inj h ▸ r.cons (r.eval e ht) (r.evalList es hts)

theorem evalFields (r : Rules P Q R) : ∀ (es : List (String × TypeExpr))
    {Γ : Context} {fields : List (String × Ty)},
    TypeExpr.evalFields Γ es = .ok fields → Q Γ (fields.map Prod.snd)
  | [], _, _, h => by
      rw [TypeExpr.evalFields] at h
      exact Except.ok.inj h ▸ r.nil
  | (_, e) :: es, _, _, h => by
      rw [TypeExpr.evalFields] at h
      obtain ⟨t, ht, h⟩ := exists_of_bind_eq_ok h
      obtain ⟨fields, hfields, h⟩ := exists_of_bind_eq_ok h
      exact Except.ok.inj h ▸ r.cons (r.eval e ht) (r.evalFields es hfields)

theorem evalLets (r : Rules P Q R) : ∀ (es : List (String × TypeExpr))
    {Γ Δ : Context}, TypeExpr.evalLets Γ es = .ok Δ → R Γ Δ
  | [], _, _, h => by
      rw [TypeExpr.evalLets] at h
      exact Except.ok.inj h ▸ r.stay
  | (_, e) :: es, _, _, h => by
      rw [TypeExpr.evalLets] at h
      obtain ⟨t, ht, h⟩ := exists_of_bind_eq_ok h
      exact r.bind (r.eval e ht) (r.evalLets es h)

end

end Rules

end TypeExpr

end Schemata
