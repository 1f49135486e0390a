import Mathlib
import Schemata.Proofs.LeastUpperBound
import Schemata.Proofs.Lifetime
import Schemata.Proofs.Twins

/-!
# The return types of the aggregates

The least, the greatest and the first entry of a column, and the sum of a
numeric one, have the type of the column, or are null if there are no rows.
So the return type must accept the values of the column and null, and
nothing else (`Moment.aggregate_types`).

That is a statement about `Scope.nullable`, which leaves a type alone if it
accepts null already, and otherwise makes a union of what it stands for and
`Null`. Whether a reference accepts null depends on what it leads to, so
the type is judged in one scope and used in another one, where the return
type is held too. The two agree, because the return type brings no
definitions that are not held already (`Scope.sameOn_ofHeld_append`).

A column that leads nowhere is no exception: nothing but null is then an
instance of the return type. Nor is a recursive union: comparisons that are
in progress could be in the way, but the one with the return type is the
first.
-/

namespace Schemata

/-! ## Looking up a function -/

namespace Registry

theorem find?_put_self (r : Registry) (f : Function) :
    (r.put f).find? f.name = some f := by
  obtain ⟨fs⟩ := r
  show (place f fs).find? (fun g => g.name == f.name) = some f
  induction fs with
  | nil => exact List.find?_cons_of_pos (beq_self_eq_true f.name)
  | cons g fs ih =>
      rw [place]
      split_ifs with hlt heq
      · exact List.find?_cons_of_pos (beq_self_eq_true f.name)
      · exact List.find?_cons_of_pos (beq_self_eq_true f.name)
      · rwa [List.find?_cons_of_neg]
        simpa using Ne.symm heq

theorem find?_put_of_ne {f : Function} {name : String} (h : f.name ≠ name)
    (r : Registry) : (r.put f).find? name = r.find? name := by
  obtain ⟨fs⟩ := r
  show (place f fs).find? (fun g => g.name == name)
    = fs.find? (fun g => g.name == name)
  have hskip : (f.name == name) = false := beq_eq_false_iff_ne.mpr h
  induction fs with
  | nil => simp only [place, List.find?_cons, hskip]
  | cons g fs ih =>
      rw [place]
      split_ifs with hlt heq
      · simp only [List.find?_cons, hskip]
      · simp only [List.find?_cons, ← heq, hskip]
      · rw [List.find?_cons, List.find?_cons, ih]

theorem find?_foldl_put_of_ne {fs : List Function} {name : String}
    (h : ∀ f ∈ fs, f.name ≠ name) (r : Registry) :
    (fs.foldl put r).find? name = r.find? name := by
  induction fs generalizing r with
  | nil => rfl
  | cons f fs ih =>
      obtain ⟨hf, hfs⟩ := List.forall_mem_cons.mp h
      rw [List.foldl_cons, ih hfs, find?_put_of_ne hf]

/-- What is put in under a name of its own is found, whatever was there
before. -/
theorem find?_foldl_put {f : Function} {fs : List Function} :
    ∀ {r : Registry}, (fs.map Function.name).Nodup → f ∈ fs →
      (fs.foldl put r).find? f.name = some f := by
  induction fs with
  | nil => exact fun _ hf => (List.not_mem_nil hf).elim
  | cons g fs ih =>
      intro r hnodup hf
      rw [List.map_cons, List.nodup_cons] at hnodup
      rcases List.mem_cons.mp hf with rfl | hf
      · rw [List.foldl_cons, find?_foldl_put_of_ne, find?_put_self]
        intro k hk heq
        exact hnodup.1 (heq ▸ List.mem_map_of_mem hk)
      · exact ih hnodup.2 hf

theorem builtins_names_nodup : (builtins.map Function.name).Nodup := by
  decide

theorem returnType_withBuiltins (r : Registry) {f : Function}
    (hf : f ∈ builtins) (held : List Ty) (input : Schema) :
    r.withBuiltins.returnType f.name held input = f.returnType held input := by
  rw [returnType, withBuiltins, find?_foldl_put builtins_names_nodup hf]

/-- What the aggregates over a column ask of it, and what they return. -/
theorem exists_aggregate {name : String}
    (h : name ∈ ["min", "max", "first", "sum", "avg"]) :
    ∃ f ∈ builtins, f.name = name
      ∧ ((f.rule = .nullableColumn ∧ name ∉ ["sum", "avg"])
        ∨ (f.rule = .nullableNumeric ∧ name = "sum")
        ∨ (f.rule = .nullableDouble ∧ name = "avg")) := by
  simp only [List.mem_cons, List.not_mem_nil, or_false] at h
  rcases h with rfl | rfl | rfl | rfl | rfl <;> simp [builtins]

end Registry

/-! ## A type or null -/

namespace Value

variable {S : Scope} {v : Value} {t : Ty}

theorem member_null_iff : Member S v .null ↔ v = .null := by
  constructor
  · rintro ⟨⟩
    rfl
  · rintro rfl
    exact .null

theorem member_union_iff {label : Label} {variants : List Ty} :
    Member S v (.union label variants) ↔ ∃ u ∈ variants, Member S v u := by
  constructor
  · intro h
    cases h with
    | union hw h => exact ⟨_, hw, h⟩
  · rintro ⟨u, hu, h⟩
    exact .union hu h

theorem member_flattened_iff :
    (∃ u ∈ t.flattened, Member S v u) ↔ Member S v t := by
  unfold Ty.flattened
  split
  · exact member_union_iff.symm
  · simp

theorem Member.of_resolve (h : Member S v (S.resolve t)) : Member S v t := by
  rcases S.resolve_cases t with heq | ⟨form, name, id, d, rfl, hd, heq⟩
  · rwa [heq] at h
  · rw [heq] at h
    exact .ref hd h

theorem member_null_of_nullable (h : S.isNullable t = true) :
    Member S .null t := by
  refine .of_resolve ?_
  unfold Scope.isNullable at h
  split at h
  · next ht => rw [ht]; exact .null
  · next ht => rw [ht]; exact .any
  · next label variants ht =>
      rw [ht]
      obtain ⟨u, hu, hnull⟩ := List.any_eq_true.mp h
      cases u with
      | null => exact .union hu .null
      | _ => cases hnull
  · cases h

end Value

namespace Scope

variable {S S' : Scope} {t r : Ty}

/-- `r` accepts what `t` accepts and null, and nothing else. -/
structure OrNull (S : Scope) (t r : Ty) : Prop where
  above : S.isSubtype t r = true
  aboveNull : S.isSubtype .null r = true
  nullable : S.isNullable r = true
  instances : ∀ v : Value,
    v.isInstance S r = true ↔ v.isInstance S t = true ∨ v = .null

theorem orNull_self (hbeq : (S.resolve t == t) = true)
    (h : S.isNullable t = true) : S.OrNull t t where
  above := S.isSubtype_refl t
  aboveNull := isSubtype_null_of_nullable hbeq h
  nullable := h
  instances v := by
    rw [Value.isInstance_iff]
    refine ⟨Or.inl, ?_⟩
    rintro (hv | rfl)
    · exact hv
    · exact Value.member_null_of_nullable h

/-- An anonymous union is below what all its variants are below; here it
does not matter whether there are references in them. -/
theorem isSubtype_of_flattened {label : Label} {variants : List Ty}
    (h : ∀ v ∈ t.flattened, S.isSubtype v (.union label variants) = true) :
    S.isSubtype t (.union label variants) = true := by
  unfold Ty.flattened at h
  split at h
  · next vs =>
      refine isSubtype_iff_subtypeUnder.mpr (subtypeUnder_iff.mpr ?_)
      refine Or.inr (Or.inr (rule_empty_union_left.mpr (Or.inl ?_)))
      exact fun v hv => isSubtype_iff_subtypeUnder.mp (h v hv)
  · exact h t (List.mem_singleton.mpr rfl)

theorem orNull_union (hbeq : ∀ v ∈ t.flattened, (S.resolve v == v) = true) :
    S.OrNull t (.union (.plain none) (t.flattened ++ [.null])) where
  above := isSubtype_of_flattened fun v hv =>
    isSubtype_of_variant rfl (List.mem_append_left _ hv) (hbeq v hv)
  aboveNull := isSubtype_of_variant rfl (by simp) (Ty.beq_self .null)
  nullable := by simp [isNullable, resolve, Ty.isNull]
  instances v := by
    rw [Value.isInstance_iff, Value.isInstance_iff, Value.member_union_iff,
      ← Value.member_flattened_iff]
    simp only [List.mem_append, List.mem_singleton, or_and_right, exists_or,
      exists_eq_left, Value.member_null_iff]

/-- It suffices that the two scopes agree on whether the type accepts null
as it is. -/
theorem orNull_nullable (ht : t.Regular)
    (hbeq : ∀ p ∈ t.parts, (S'.resolve p == p) = true)
    (h : S'.isNullable t = S.isNullable t) : S'.OrNull t (S.nullable t) := by
  cases hnull : S.isNullable t with
  | true =>
      rw [nullable_of_nullable hnull]
      exact orNull_self (hbeq t (Ty.mem_parts_self t)) (h.trans hnull)
  | false =>
      rw [nullable, hnull, distinct_flattened_null ht hnull]
      refine orNull_union fun v hv => hbeq v ?_
      rcases Ty.mem_flattened hv with rfl | hv
      · exact Ty.mem_parts_self v
      · exact Ty.mem_parts_of_component hv

/-- What brings no definitions that are not held does not change the
scope. -/
theorem sameOn_ofHeld_append {held extra : List Ty}
    (h : ∀ p ∈ Ty.partsOfList extra,
      p.defId? = none ∨ p ∈ Ty.partsOfList held) :
    (ofHeld held).SameOn (ofHeld (held ++ extra)) fun _ => True where
  component _ _ := trivial
  follow _ _ := trivial
  find {_ _ id} _ := by
    rw [find?_ofHeld, find?_ofHeld, Ty.partsOfList_append, List.find?_append]
    cases hfind : (Ty.partsOfList held).find? (Ty.hasId id) with
    | some d => rfl
    | none =>
        rw [Option.none_or, List.find?_eq_none]
        intro p hp hid
        rcases h p hp with hnone | hheld
        · simp [Ty.hasId, hnone] at hid
        · exact List.find?_eq_none.mp hfind p hheld hid

end Scope

/-- At every moment, a type that is held and null. -/
theorem Moment.orNull_nullable {held types : List Ty} {handles : List Handle}
    (hmoment : Moment held handles)
    (htypes : ∀ u ∈ types, u ∈ Ty.partsOfList held) {t : Ty}
    (ht : t ∈ Ty.partsOfList held) :
    let r := (Scope.ofHeld (held ++ types)).nullable t
    (Scope.ofHeld (held ++ r :: types)).OrNull t r := by
  intro r
  have hc := hmoment.consistent
  have hcolumns : ∀ p ∈ Ty.partsOfList types, p ∈ Ty.partsOfList held :=
    fun p hp => Ty.partsOfList_subset htypes hp
  -- null and the union with it define nothing
  have hr : ∀ p ∈ r.parts, p.defId? = none ∨ p ∈ Ty.partsOfList held := by
    rcases Scope.nullable_cases (Scope.ofHeld (held ++ types))
      (hc.regular t ht) with heq | ⟨variants, heq, -, hvariants⟩
    · rw [show r = t from heq]
      exact fun p hp => Or.inr (Ty.mem_partsOfList_trans hp ht)
    · rw [show r = .union (.plain none) variants from heq]
      refine Ty.forall_parts (Or.inl rfl) fun v hv p hp => ?_
      rcases hvariants v hv with rfl | rfl | hv
      · obtain rfl := List.mem_singleton.mp hp
        exact Or.inl rfl
      · exact Or.inr (Ty.mem_partsOfList_trans hp ht)
      · have hpart := Ty.mem_parts_trans hp (Ty.mem_parts_of_component hv)
        exact Or.inr (Ty.mem_partsOfList_trans hpart ht)
  have hbefore := Scope.sameOn_ofHeld_append fun p hp => Or.inr (hcolumns p hp)
  have hafter : (Scope.ofHeld held).SameOn
      (Scope.ofHeld (held ++ r :: types)) fun _ => True := by
    refine Scope.sameOn_ofHeld_append fun p hp => ?_
    rcases List.mem_append.mp hp with hp | hp
    · exact hr p hp
    · exact Or.inr (hcolumns p hp)
  refine Scope.orNull_nullable (hc.regular t ht) (fun p hp => ?_) ?_
  · rw [(hafter.resolve trivial).1]
    exact Scope.beq_resolve_of_consistent hc (Ty.mem_partsOfList_trans hp ht)
  · exact (hafter.isNullable trivial).trans (hbefore.isNullable trivial).symm

/-! ## Columns -/

namespace Function

variable {f : Function} {held : List Ty} {input : Schema} {c : Column}

theorem singleColumn_ok (hc : input.columns = [c]) :
    f.singleColumn input = .ok c := by
  rw [singleColumn, hc]

theorem numericColumn_ok (hc : input.columns = [c])
    (hnumeric : c.type.isNumeric = true) : f.numericColumn input = .ok c := by
  rw [numericColumn, singleColumn_ok hc]
  simp only [bind, Except.bind, hnumeric]
  rfl

theorem singleColumn_error (h : input.columns.length ≠ 1) :
    ∃ message, f.singleColumn input = .error (.invalidArgument message) := by
  unfold singleColumn
  split
  · next c hc => simp [hc] at h
  · exact ⟨_, rfl⟩

theorem numericColumn_error
    (h : input.columns.length ≠ 1
      ∨ ∃ c, input.columns = [c] ∧ c.type.isNumeric = false) :
    ∃ message, f.numericColumn input = .error (.invalidArgument message) := by
  rcases h with h | ⟨c, hc, hnumeric⟩
  · obtain ⟨message, herror⟩ := singleColumn_error (f := f) h
    exact ⟨message, by rw [numericColumn, herror]; rfl⟩
  · refine ⟨f.name ++ " expects a numeric column, got " ++ c.render, ?_⟩
    rw [numericColumn, singleColumn_ok hc]
    simp only [bind, Except.bind, hnumeric]
    rfl

/-- The return type of an aggregate that may be null: the type of its
column. -/
theorem returnType_ok (hc : input.columns = [c])
    (hrule : f.rule = .nullableColumn
      ∨ f.rule = .nullableNumeric ∧ c.type.isNumeric = true) :
    f.returnType held input
      = .ok ((Scope.ofHeld (held ++ input.types)).nullable c.type) := by
  unfold returnType
  rcases hrule with hrule | ⟨hrule, hnumeric⟩
  · simp only [hrule, singleColumn_ok hc]
    rfl
  · simp only [hrule, numericColumn_ok hc hnumeric]
    rfl

/-- Errors about the column are passed on. -/
theorem returnType_error {e : Error}
    (h : (f.rule = .nullableColumn ∧ f.singleColumn input = .error e)
      ∨ ((f.rule = .nullableNumeric ∨ f.rule = .nullableDouble)
        ∧ f.numericColumn input = .error e)) :
    f.returnType held input = .error e := by
  unfold returnType
  rcases h with ⟨hrule, herror⟩ | ⟨hrule | hrule, herror⟩
  all_goals
    simp only [hrule, herror]
    rfl

end Function

/-- The error of an argument that does not fit. -/
structure Error.OfArgument (e : Error) : Prop where
  kind : e.kind = .invalidParameter
  code : e.code.render = "TAB0007"

theorem Error.ofArgument (message : String) :
    (Error.invalidArgument message).OfArgument := by
  have hrender : (⟨7⟩ : ErrorCode).render = "TAB0007" := by decide
  exact ⟨rfl, hrender⟩

/-- Whatever else is registered: for one column, which must be numeric for
the sum, the aggregates return a type that accepts what the column accepts
and null. For any other number of columns, and for the sum and the average
of a column that is not numeric, they refuse the argument. -/
theorem Moment.aggregate_types {held : List Ty} {handles : List Handle}
    (hmoment : Moment held handles) (registry : Registry) (input : Schema)
    (hinput : ∀ t ∈ input.types, t ∈ Ty.partsOfList held) :
    (∀ name ∈ ["min", "max", "first", "sum"], ∀ c, input.columns = [c] →
      (name = "sum" → c.type.isNumeric = true) →
        ∃ r, registry.withBuiltins.returnType name held input = .ok r
          ∧ (Scope.ofHeld (held ++ r :: input.types)).OrNull c.type r)
    ∧ (∀ name ∈ ["min", "max", "first", "sum", "avg"],
      input.columns.length ≠ 1 →
        ∃ e, registry.withBuiltins.returnType name held input = .error e
          ∧ e.OfArgument)
    ∧ (∀ name ∈ ["sum", "avg"], ∀ c, input.columns = [c] →
      c.type.isNumeric = false →
        ∃ e, registry.withBuiltins.returnType name held input = .error e
          ∧ e.OfArgument) := by
  refine ⟨fun name hname c hc hnumeric => ?_, fun name hname hlength => ?_,
    fun name hname c hc hnumeric => ?_⟩
  · have hheld : c.type ∈ Ty.partsOfList held :=
      hinput c.type (by simp [Schema.types, hc])
    refine ⟨_, ?_, hmoment.orNull_nullable hinput hheld⟩
    obtain ⟨f, hf, rfl, hrule⟩ := Registry.exists_aggregate
      (List.mem_append_left ["avg"] hname)
    rw [Registry.returnType_withBuiltins registry hf]
    refine Function.returnType_ok hc ?_
    rcases hrule with ⟨hrule, -⟩ | ⟨hrule, hsum⟩ | ⟨-, havg⟩
    · exact Or.inl hrule
    · exact Or.inr ⟨hrule, hnumeric hsum⟩
    · simp [havg] at hname
  · obtain ⟨f, hf, rfl, hrule⟩ := Registry.exists_aggregate hname
    rw [Registry.returnType_withBuiltins registry hf]
    rcases hrule with ⟨hrule, -⟩ | hrule
    · obtain ⟨message, herror⟩ := Function.singleColumn_error (f := f) hlength
      exact ⟨_, Function.returnType_error (Or.inl ⟨hrule, herror⟩),
        Error.ofArgument message⟩
    · obtain ⟨message, herror⟩ :=
        Function.numericColumn_error (f := f) (Or.inl hlength)
      exact ⟨_, Function.returnType_error
        (Or.inr ⟨hrule.imp And.left And.left, herror⟩),
        Error.ofArgument message⟩
  · obtain ⟨f, hf, rfl, hrule⟩ := Registry.exists_aggregate
      (List.mem_append_right ["min", "max", "first"] hname)
    rw [Registry.returnType_withBuiltins registry hf]
    have hrule := hrule.resolve_left fun h => h.2 hname
    obtain ⟨message, herror⟩ :=
      Function.numericColumn_error (f := f) (Or.inr ⟨c, hc, hnumeric⟩)
    exact ⟨_, Function.returnType_error
      (Or.inr ⟨hrule.imp And.left And.left, herror⟩), Error.ofArgument message⟩

/-- Inside of a union `U`, for a column that refers to it and cannot be
followed, and for one that refers to a recursive union with `Null`. Null is
added to the first and not to the second. -/
theorem Moment.aggregate_types_references :
    let outer : Handle := ⟨.union, some "U", 1⟩
    let inner : Handle := ⟨.union, some "Tree", 2⟩
    let tree : Ty := .union (.recursive "Tree" 2) [.null, .array inner.ref]
    let held := [tree, outer.ref]
    let column (t : Ty) : Schema := ⟨[⟨"c", t⟩], rfl⟩
    let added : Ty := .union (.plain none) [outer.ref, .null]
    let returnType := Registry.empty.withBuiltins.returnType
    Moment held [outer]
      ∧ returnType "max" held (column outer.ref) = .ok added
      ∧ (Scope.ofHeld (held ++ [added, outer.ref])).OrNull outer.ref added
      ∧ returnType "first" held (column inner.ref) = .ok inner.ref
      ∧ (Scope.ofHeld (held ++ [inner.ref, inner.ref])).OrNull inner.ref
          inner.ref
      ∧ (∃ e, returnType "avg" held (column inner.ref) = .error e
        ∧ e.OfArgument)
      ∧ (∃ e, returnType "min" held .empty = .error e ∧ e.OfArgument) := by
  intro outer inner tree held column added returnType
  have hmoment : Moment held [outer] := by
    have hΓ : (Session.empty.context.enter outer).Arises :=
      .define (.session .empty) .union (some "U")
    have heval : TypeExpr.evalList (Session.empty.context.enter outer)
        [.defineUnion (some "Tree") [] [.null, .array (.self 0)], .self 0]
          = .ok held := by
      cbv
    exact .evaluated hΓ heval
  have houter : ∀ t ∈ (column outer.ref).types, t ∈ Ty.partsOfList held :=
    List.forall_mem_singleton.mpr (Ty.mem_partsOfList_self (by simp [held]))
  have hinner : ∀ t ∈ (column inner.ref).types, t ∈ Ty.partsOfList held :=
    List.forall_mem_singleton.mpr
      (by simp [held, tree, Ty.partsOfList, Ty.parts, Ty.mem_parts_self])
  have hmax : returnType "max" held (column outer.ref) = .ok added := by cbv
  have hfirst : returnType "first" held (column inner.ref) = .ok inner.ref := by
    cbv
  refine ⟨hmoment, hmax, ?_, hfirst, ?_, ?_, ?_⟩
  · obtain ⟨r, hr, hornull⟩ :=
      (hmoment.aggregate_types .empty (column outer.ref) houter).1 "max"
        (by simp) ⟨"c", outer.ref⟩ rfl (by simp)
    obtain rfl := Except.ok.inj (hmax.symm.trans hr)
    exact hornull
  · obtain ⟨r, hr, hornull⟩ :=
      (hmoment.aggregate_types .empty (column inner.ref) hinner).1 "first"
        (by simp) ⟨"c", inner.ref⟩ rfl (by simp)
    obtain rfl := Except.ok.inj (hfirst.symm.trans hr)
    exact hornull
  · exact (hmoment.aggregate_types .empty (column inner.ref) hinner).2.2 "avg"
      (by simp) ⟨"c", inner.ref⟩ rfl rfl
  · exact (hmoment.aggregate_types .empty .empty
      fun t ht => (List.not_mem_nil ht).elim).2.1 "min" (by simp) (by decide)

end Schemata
