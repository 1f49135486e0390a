import Mathlib
import Schemata.Proofs.Derivation
import Schemata.Proofs.Mentioning

/-!
# Structs and unions that do not refer to themselves

A plain struct or union is a definition that makes no use of its handle.
So it would pass the checks of a definition, for whatever its members are:
they may refer to definitions that are complete, that are gone, or that are
still under construction around it, possibly under the same name. All that
matters is that the identity of the new definition is new. Everything the
checks can come to is a part of what is held, nothing of that refers to the
new identity, and what cannot be reached is neither mentioned nor forced
(`Scope.not_mentions_of_new`, `Scope.not_forces_of_new`).

Hence the plain constructors need no checks but those for names and for the
number of variants (`Handle.defineStruct_of_new`,
`Handle.defineUnion_of_new`). Types that are built from distinct names
without asking rest on this: the struct of a schema, the row of a table and
the natural type of a struct (`Context.plain_constructors`).
-/

namespace Schemata

/-! ## The first repeated name -/

namespace Names

/-- `name` comes a second time, and no other name did so before. -/
def IsFirstRepeated (names : List String) (name : String) : Prop :=
  ∃ earlier later, names = earlier ++ name :: later
    ∧ earlier.Nodup ∧ name ∈ earlier

theorem repeatedFrom?_eq_some {names : List String} {name : String} :
    ∀ {seen : List String}, repeatedFrom? seen names = some name →
      ∃ earlier later, names = earlier ++ name :: later
        ∧ repeatedFrom? seen earlier = none
        ∧ (name ∈ seen ∨ name ∈ earlier) := by
  induction names with
  | nil => exact fun h => by cases h
  | cons n names ih =>
      intro seen h
      rw [repeatedFrom?] at h
      split at h
      · next hseen =>
          obtain rfl := Option.some.inj h
          exact ⟨[], names, rfl, rfl, Or.inl (by simpa using hseen)⟩
      · next hseen =>
          obtain ⟨earlier, later, rfl, hnone, hmem⟩ := ih h
          refine ⟨n :: earlier, later, rfl, ?_, ?_⟩
          · rw [repeatedFrom?, if_neg hseen, hnone]
          · rw [List.mem_cons]
            rw [List.mem_cons] at hmem
            tauto

theorem isFirstRepeated_of_repeated? {names : List String} {name : String}
    (h : repeated? names = some name) : IsFirstRepeated names name := by
  obtain ⟨earlier, later, heq, hnone, hmem⟩ := repeatedFrom?_eq_some h
  refine ⟨earlier, later, heq, repeated?_eq_none.mp hnone, ?_⟩
  exact hmem.resolve_left List.not_mem_nil

end Names

/-! ## What cannot be reached -/

theorem Ty.Regular.exists_variant {label : Label} {variants : List Ty}
    (h : (Ty.union label variants).Regular) : ∃ v, v ∈ variants :=
  List.exists_mem_of_length_pos (Nat.lt_of_lt_of_le (by decide) h.1)

namespace Scope

variable {held : List Ty} {target : DefId} {t : Ty}

theorem not_mentions_of_new
    (hnew : ∀ p ∈ Ty.partsOfList held, p.target? ≠ some target)
    (ht : t ∈ Ty.partsOfList held) :
    ¬(ofHeld held).mentions target t = true := by
  rw [mentions_iff]
  rintro ⟨form, name, hreach⟩
  have hpart := hreach.here (List.forall_mem_singleton.mpr ht)
  exact hnew _ hpart rfl

/-- A union has variants, so also what forces a definition by all of them
leads to a reference. -/
theorem Forces.exists_reference (hregular : ∀ p ∈ Ty.partsOfList held, p.Regular)
    (h : (ofHeld held).Forces target t) (ht : t ∈ Ty.partsOfList held) :
    ∃ p ∈ Ty.partsOfList held, p.target? = some target := by
  have hcomponent : ∀ u ∈ Ty.partsOfList held, ∀ c ∈ u.components,
      c ∈ Ty.partsOfList held := fun u hu c hc =>
    Ty.mem_partsOfList_trans (Ty.mem_parts_of_component hc) hu
  induction h with
  | self => exact ⟨_, ht, rfl⟩
  | follow hd _ ih => exact ih (mem_parts_of_find? hd)
  | element he _ ih => exact ih (hcomponent _ ht _ he)
  | field hf _ ih => exact ih (hcomponent _ ht _ (List.mem_map_of_mem hf))
  | variants _ ih =>
      obtain ⟨v, hv⟩ := (hregular _ ht).exists_variant
      exact ih v hv (hcomponent _ ht v hv)

theorem not_forces_of_new
    (hregular : ∀ p ∈ Ty.partsOfList held, p.Regular)
    (hnew : ∀ p ∈ Ty.partsOfList held, p.target? ≠ some target)
    (ht : t ∈ Ty.partsOfList held) :
    ¬(ofHeld held).forces target t = true := by
  rw [forces_iff]
  intro hforces
  obtain ⟨p, hp, htarget⟩ := hforces.exists_reference hregular ht
  exact hnew p hp htarget

end Scope

/-! ## Definitions under a new identity -/

namespace Handle

variable {h : Handle} {held : List Ty}

theorem defineStruct_of_new {fields : List (String × Ty)}
    (hregular : ∀ p ∈ Ty.partsOfList (held ++ fields.map Prod.snd), p.Regular)
    (hnew : ∀ p ∈ Ty.partsOfList (held ++ fields.map Prod.snd),
      p.target? ≠ some h.id) :
    h.defineStruct held fields = Ty.structOf h.name fields := by
  unfold defineStruct Ty.structOf
  cases hchecked : Ty.checkedFields h.name fields with
  | error e => rfl
  | ok checked =>
      obtain rfl := (Ty.checkedFields_ok hchecked).1.symm
      have hmember : ∀ f ∈ fields,
          f.2 ∈ Ty.partsOfList (held ++ fields.map Prod.snd) := fun f hf =>
        Ty.mem_partsOfList_self
          (List.mem_append_right _ (List.mem_map_of_mem hf))
      have hplain := List.any_eq_false.mpr fun f hf =>
        Scope.not_mentions_of_new hnew (hmember f hf)
      have hfinite := List.find?_eq_none.mpr fun f hf =>
        Scope.not_forces_of_new hregular hnew (hmember f hf)
      simp only [bind, Except.bind, hplain, hfinite, label?]

theorem defineUnion_of_new {variants : List Ty}
    (hregular : ∀ p ∈ Ty.partsOfList (held ++ variants), p.Regular)
    (hnew : ∀ p ∈ Ty.partsOfList (held ++ variants), p.target? ≠ some h.id) :
    h.defineUnion held variants = Ty.unionOfList h.name variants := by
  unfold defineUnion Ty.unionOfList
  cases hchecked : Ty.checkedVariants variants with
  | error e => rfl
  | ok kept =>
      obtain ⟨rfl, hkept⟩ := Ty.checkedVariants_ok hchecked
      -- of equal variants only the first is looked at
      have hsub : ∀ p ∈ Ty.partsOfList (held ++ Ty.distinct variants),
          p ∈ Ty.partsOfList (held ++ variants) := by
        intro p hp
        obtain ⟨t, ht, hp⟩ := Ty.mem_partsOfList.mp hp
        refine Ty.mem_partsOfList.mpr ⟨t, ?_, hp⟩
        rw [List.mem_append] at ht ⊢
        exact ht.imp_right Ty.mem_of_mem_distinct
      have hmember : ∀ v ∈ Ty.distinct variants,
          v ∈ Ty.partsOfList (held ++ Ty.distinct variants) := fun v hv =>
        Ty.mem_partsOfList_self (List.mem_append_right _ hv)
      have hnew' := fun p hp => hnew p (hsub p hp)
      have hplain := List.any_eq_false.mpr fun v hv =>
        Scope.not_mentions_of_new hnew' (hmember v hv)
      obtain ⟨v, hv⟩ := (hkept (.plain none)).exists_variant
      have hfinite := List.all_eq_false.mpr ⟨v, hv,
        Scope.not_forces_of_new (fun p hp => hregular p (hsub p hp)) hnew'
          (hmember v hv)⟩
      simp only [bind, Except.bind, hplain, hfinite, label?]
      rfl

end Handle

/-! ## The plain constructors -/

namespace Ty

theorem structOf_of_nodup {name : Option String} {fields : List (String × Ty)}
    (h : (fields.map Prod.fst).Nodup) :
    structOf name fields = .ok (.struct (.plain name) fields) := by
  rw [structOf, checkedFields, Names.repeated?_eq_none.mpr h]
  rfl

theorem structOf_cases (name : Option String) (fields : List (String × Ty)) :
    (∃ n, Names.IsFirstRepeated (fields.map Prod.fst) n
        ∧ structOf name fields = .error
          (.duplicateName n ("struct " ++ name.getD anonymousName)))
      ∨ ((fields.map Prod.fst).Nodup
        ∧ structOf name fields = .ok (.struct (.plain name) fields)) := by
  cases hrepeated : Names.repeated? (fields.map Prod.fst) with
  | some n =>
      refine Or.inl ⟨n, Names.isFirstRepeated_of_repeated? hrepeated, ?_⟩
      rw [structOf, checkedFields, hrepeated]
      rfl
  | none =>
      have hnodup := Names.repeated?_eq_none.mp hrepeated
      exact Or.inr ⟨hnodup, structOf_of_nodup hnodup⟩

theorem unionOfList_cases (name : Option String) (variants : List Ty) :
    ((distinct variants).length < 2
        ∧ unionOfList name variants
          = .error (.unionArity (distinct variants).length))
      ∨ (2 ≤ (distinct variants).length
        ∧ unionOfList name variants
          = .ok (.union (.plain name) (distinct variants))) := by
  rcases Nat.lt_or_ge (distinct variants).length Limit.unionVariants
    with hlt | hle
  · refine Or.inl ⟨hlt, ?_⟩
    rw [unionOfList, checkedVariants, if_pos hlt]
    rfl
  · refine Or.inr ⟨hle, ?_⟩
    rw [unionOfList, checkedVariants, if_neg (Nat.not_lt.mpr hle)]
    rfl

/-- The name of a plain struct is not looked at. -/
theorem struct_beq_struct (name name' : Option String)
    (fields : List (String × Ty)) :
    (Ty.struct (.plain name) fields == .struct (.plain name') fields) = true :=
  struct_beq_iff.mpr ⟨name', fields, rfl, rfl,
    fun f hf => ⟨f, hf, rfl, beq_self f.2⟩⟩

end Ty

theorem Schema.fields_nodup (s : Schema) : (s.fields.map Prod.fst).Nodup := by
  have hnodup := Names.repeated?_eq_none.mp s.distinct
  rwa [fields, List.map_map]

namespace Context

variable {Γ : Context} {types : List Ty} {id : DefId}

/-- An identity that has not been given away is new to everything at
hand. -/
theorem target?_ne_of_fresh_le (hid : (Γ.holdAll types).fresh ≤ id) :
    ∀ p ∈ Ty.partsOfList (Γ.held ++ types), p.target? ≠ some id := by
  intro p hp htarget
  rw [Ty.partsOfList_append, List.mem_append] at hp
  have hhere : (Γ.holdAll types).Here p := here_holdAll.mpr hp.symm
  have hlt := lt_fresh (Or.inl ⟨p, hhere, Or.inl htarget⟩)
  exact absurd hlt (Nat.not_lt.mpr hid)

theorem regular_of_derivable (h : ∀ t ∈ Γ.held ++ types, t.Derivable) :
    ∀ p ∈ Ty.partsOfList (Γ.held ++ types), p.Regular := by
  intro p hp
  obtain ⟨t, ht, hp⟩ := Ty.mem_partsOfList.mp hp
  exact (h t ht).wellFormed p hp

/-- Whatever the members are, a struct or a union that does not use its
handle is never refused as recursive and never taken for recursive. The
handle may have any name, also that of a definition under construction
around it. All that can be wrong is a name that comes a second time, or
that too few variants are left.

So a schema and a table have a type, which differ only in the name, and a
struct has a natural type. -/
theorem plain_constructors (Γ : Context) :
    (∀ (name : Option String) (fields : List (String × Ty)) (id : DefId),
      (∀ t ∈ Γ.held ++ fields.map Prod.snd, t.Derivable) →
      (Γ.holdAll (fields.map Prod.snd)).fresh ≤ id →
        Handle.defineStruct ⟨.struct, name, id⟩ Γ.held fields
            = Ty.structOf name fields
          ∧ ((∃ n, Names.IsFirstRepeated (fields.map Prod.fst) n
              ∧ Ty.structOf name fields = .error
                (.duplicateName n ("struct " ++ name.getD Ty.anonymousName)))
            ∨ ((fields.map Prod.fst).Nodup
              ∧ Ty.structOf name fields
                = .ok (.struct (.plain name) fields))))
    ∧ (∀ (name : Option String) (variants : List Ty) (id : DefId),
      (∀ t ∈ Γ.held ++ variants, t.Derivable) →
      (Γ.holdAll variants).fresh ≤ id →
        Handle.defineUnion ⟨.union, name, id⟩ Γ.held variants
            = Ty.unionOfList name variants
          ∧ (((Ty.distinct variants).length < 2
              ∧ Ty.unionOfList name variants
                = .error (.unionArity (Ty.distinct variants).length))
            ∨ (2 ≤ (Ty.distinct variants).length
              ∧ Ty.unionOfList name variants
                = .ok (.union (.plain name) (Ty.distinct variants)))))
    ∧ (∀ (s : Schema) (name : String),
      ∃ structType rowType, s.structType = .ok structType
        ∧ Table.rowType ⟨name, s⟩ = .ok rowType
        ∧ structType
          = .struct (.plain none) (s.columns.map fun c => (c.name, c.type))
        ∧ rowType = .struct (.plain (some name))
          (s.columns.map fun c => (c.name, c.type))
        ∧ (structType == rowType) = true ∧ (rowType == structType) = true)
    ∧ (∀ fields : List (String × Value),
      (Value.struct fields).naturalType = .struct (.plain none)
          (fields.map fun f => (f.1, f.2.naturalType))
        ∧ ((Value.struct fields).NamesDistinct →
          Ty.structOf none (fields.map fun f => (f.1, f.2.naturalType))
            = .ok (Value.struct fields).naturalType)) := by
  refine ⟨fun name fields id hfields hid => ⟨?_, Ty.structOf_cases name fields⟩,
    fun name variants id hvariants hid =>
      ⟨?_, Ty.unionOfList_cases name variants⟩,
    fun s name => ?_, fun fields => ?_⟩
  · exact Handle.defineStruct_of_new (regular_of_derivable hfields)
      (target?_ne_of_fresh_le hid)
  · exact Handle.defineUnion_of_new (regular_of_derivable hvariants)
      (target?_ne_of_fresh_le hid)
  · exact ⟨_, _, Ty.structOf_of_nodup s.fields_nodup,
      Ty.structOf_of_nodup s.fields_nodup, rfl, rfl,
      Ty.struct_beq_struct .., Ty.struct_beq_struct ..⟩
  · have hnatural : (Value.struct fields).naturalType = .struct (.plain none)
        (fields.map fun f => (f.1, f.2.naturalType)) := by
      rw [Value.naturalType, Value.fieldTypes_eq]
    refine ⟨hnatural, fun hdistinct => ?_⟩
    rw [hnatural]
    cases hdistinct with
    | struct hnodup _ =>
        refine Ty.structOf_of_nodup ?_
        rwa [List.map_map]

/-- Inside of the definition of a struct `N`, another struct `N` is made of
a reference to the unfinished one, a reference that can be followed and one
whose definition is gone. It is plain. With the fields in twice, the second
`up` is refused, and a union of two references to some `N` has one variant. -/
theorem plain_constructors_inside :
    let outer : Handle := ⟨.struct, some "N", 1⟩
    let list : Handle := ⟨.struct, some "List", 2⟩
    let rest : Ty := .union (.plain none) [list.ref, .null]
    let Γ := (Session.empty.context.enter outer).hold
      (.struct (.recursive "List" 2) [("rest", rest)])
    let fields : List (String × Ty) :=
      [("up", outer.ref), ("next", list.ref), ("gone", .ref .union "G" 9)]
    (∀ t ∈ Γ.held ++ fields.map Prod.snd, t.Derivable)
      ∧ (Γ.holdAll (fields.map Prod.snd)).fresh = 10
      ∧ Handle.defineStruct ⟨.struct, some "N", 10⟩ Γ.held fields
        = .ok (.struct (.plain (some "N")) fields)
      ∧ Handle.defineStruct ⟨.struct, some "N", 10⟩ Γ.held (fields ++ fields)
        = .error (.duplicateName "up" "struct N")
      ∧ Handle.defineUnion ⟨.union, some "N", 10⟩ Γ.held
          [outer.ref, .ref .struct "N" 9] = .error (.unionArity 1)
      ∧ Ty.structOf none [("b", .null), ("a", .array .any)]
        = .ok (Value.struct [("b", .null), ("a", .array [])]).naturalType := by
  intro outer list rest Γ fields
  have hderives : (Session.empty.context.enter outer).Derives :=
    (Context.Arises.session .empty).derives.enter outer
  have hlist : Ty.Derivable (.struct (.recursive "List" 2) [("rest", rest)]) :=
    TypeExpr.eval_derivable
      (.defineStruct (some "List") [] [("rest", .nullable (.self 0))])
      hderives (by cbv)
  have hheld : ∀ t ∈ Γ.held, t.Derivable := (hderives.hold hlist).types
  have hfields : ∀ t ∈ fields.map Prod.snd, t.Derivable := by
    simp only [fields, List.map_cons, List.map_nil, List.forall_mem_cons]
    exact ⟨.handle outer, .handle list, .handle ⟨.union, some "G", 9⟩,
      fun t ht => (List.not_mem_nil ht).elim⟩
  have htwice : ∀ t ∈ (fields ++ fields).map Prod.snd, t.Derivable := by
    rw [List.map_append]
    exact List.forall_mem_append.mpr ⟨hfields, hfields⟩
  have hvariants : ∀ t ∈ [outer.ref, .ref .struct "N" 9], t.Derivable :=
    List.forall_mem_cons.mpr ⟨.handle outer,
      List.forall_mem_singleton.mpr (.handle ⟨.struct, some "N", 9⟩)⟩
  obtain ⟨hstruct, hunion, -, hnatural⟩ := plain_constructors Γ
  refine ⟨List.forall_mem_append.mpr ⟨hheld, hfields⟩, by cbv, ?_, ?_, ?_, ?_⟩
  · exact (hstruct (some "N") fields 10
      (List.forall_mem_append.mpr ⟨hheld, hfields⟩) (by cbv)).1.trans (by cbv)
  · exact (hstruct (some "N") (fields ++ fields) 10
      (List.forall_mem_append.mpr ⟨hheld, htwice⟩) (by cbv)).1.trans (by cbv)
  · exact (hunion (some "N") _ 10
      (List.forall_mem_append.mpr ⟨hheld, hvariants⟩) (by cbv)).1.trans (by cbv)
  · have hempty : (Value.array []).NamesDistinct :=
      .array fun v hv => (List.not_mem_nil hv).elim
    exact (hnatural [("b", .null), ("a", .array [])]).2 (.struct (by decide)
      (List.forall_mem_cons.mpr
        ⟨.null, List.forall_mem_singleton.mpr hempty⟩))

end Context

end Schemata
