import Mathlib
import Schemata.Proofs.Membership
import Schemata.Proofs.Reachability

/-!
# Which types have values

A definition is refused if one of its members can only be satisfied by a
value that contains another value of the definition. The question is
asked of one definition at a time, while the ones around it are not
complete; so it finds a definition that needs itself, and not several
that only need each other.

The exact condition is that no set of definitions is *endless*: each of
them can only be satisfied by a value that contains a value of one of
the set (`Scope.Endless`). A type that can be built has an instance
exactly if it does not force a value of an endless set
(`Session.Reachable.exists_isInstance_iff`). The check at definition
time is enough if every definition only refers to what is inside of it
(`Ty.SelfContained`); a definition that refers to an enclosing one may
make both uninhabited (`not_exists_isInstance_of_mutual`).

Both halves rest on one step (`inhabited_or_forcing`): a node whose
components have members or force a definition has a member or forces
one.
-/

namespace Schemata

open Value (Member)

/-- Some value is a member. -/
def Scope.Inhabited (S : Scope) (t : Ty) : Prop := ∃ v, Member S v t

/-- Each of these definitions can only be satisfied by a value that
contains a value of one of them. -/
def Scope.Endless (S : Scope) (ids : List DefId) : Prop :=
  ∀ id ∈ ids, ∃ d, S.find? id = some d ∧ d.forcing ids.contains = true

/-- Every reference inside of the type refers to a definition inside of
it. -/
def Ty.SelfContained (d : Ty) : Prop :=
  ∀ p ∈ d.parts, ∀ id ∈ p.target?, ∃ q ∈ d.parts, q.defId? = some id

/-- A type is no component of a part of itself. -/
theorem Ty.ne_of_component {c u d : Ty} (hu : u ∈ d.parts)
    (hc : c ∈ u.components) : c ≠ d := by
  rintro rfl
  have hlt := Ty.length_parts_component_lt hc
  have hle := Ty.length_parts_le hu
  omega

/-! ## Values of each kind -/

theorem ScalarType.exists_member {type : ScalarType}
    (h : type.WithinLimits) : ∃ s : Scalar, s.Member type := by
  cases type with
  | boolean => exact ⟨.boolean false, .boolean⟩
  | tinyInt => exact ⟨.number (.tinyInt 0), .tinyInt⟩
  | smallInt => exact ⟨.number (.smallInt 0), .smallInt⟩
  | int => exact ⟨.number (.int 0), .int⟩
  | bigInt => exact ⟨.number (.bigInt 0), .bigInt⟩
  | float => exact ⟨.number (.float ⟨0⟩), .float⟩
  | double => exact ⟨.number (.double ⟨0⟩), .double⟩
  | decimal precision scale =>
      -- zero has one digit, which every decimal type allows
      refine ⟨.number (.decimal (.ofInt 0)), .decimal ?_ ?_⟩
      · exact h.1
      · exact Nat.zero_le scale
  | date => exact ⟨.date ⟨1970, 1, 1, by decide⟩, .date⟩
  | timestamp =>
      let midnight : Timestamp :=
        ⟨⟨1970, 1, 1, by decide⟩, 0, 0, 0, 0, by decide⟩
      exact ⟨.timestamp midnight, .timestamp⟩
  | char length => exact ⟨.text .char "", .char⟩
  | varchar length => exact ⟨.text .varchar "", .varchar⟩
  | string => exact ⟨.text .string "", .string⟩

namespace Scope

variable {S : Scope}

theorem exists_items {elements : List Ty}
    (h : ∀ e ∈ elements, S.Inhabited e) :
    ∃ items : List Value, items.length = elements.length
      ∧ ∀ p ∈ items.zip elements, Member S p.1 p.2 := by
  induction elements with
  | nil => exact ⟨[], rfl, by simp⟩
  | cons e elements ih =>
      obtain ⟨⟨v, hv⟩, hrest⟩ := List.forall_mem_cons.mp h
      obtain ⟨items, hlen, hall⟩ := ih hrest
      refine ⟨v :: items, by simp [hlen], ?_⟩
      rw [List.zip_cons_cons]
      exact List.forall_mem_cons.mpr ⟨hv, hall⟩

theorem inhabited_tuple {elements : List Ty}
    (h : ∀ e ∈ elements, S.Inhabited e) :
    S.Inhabited (.tuple elements) := by
  obtain ⟨items, hlen, hall⟩ := exists_items h
  exact ⟨.tuple items, .tuple hlen hall⟩

theorem exists_fields {fields : List (String × Ty)}
    (hnd : (fields.map Prod.fst).Nodup)
    (h : ∀ f ∈ fields, S.Inhabited f.2) :
    ∃ values : List (String × Value),
      ∀ f ∈ fields, Member S (Value.fieldOrNull values f.1) f.2 := by
  induction fields with
  | nil => exact ⟨[], by simp⟩
  | cons f fields ih =>
      obtain ⟨hname, hnd⟩ := List.nodup_cons.mp hnd
      obtain ⟨⟨v, hv⟩, hrest⟩ := List.forall_mem_cons.mp h
      obtain ⟨values, hall⟩ := ih hnd hrest
      refine ⟨(f.1, v) :: values, List.forall_mem_cons.mpr ⟨?_, ?_⟩⟩
      · simpa [Value.fieldOrNull] using hv
      · -- another field has another name, so it is not found in front
        intro g hg
        have hne : g.1 ≠ f.1 :=
          fun heq => hname (List.mem_map.mpr ⟨g, hg, heq⟩)
        simpa [Value.fieldOrNull, List.lookup, beq_false_of_ne hne]
          using hall g hg

theorem inhabited_struct {label : Label} {fields : List (String × Ty)}
    (hnd : (fields.map Prod.fst).Nodup)
    (h : ∀ f ∈ fields, S.Inhabited f.2) :
    S.Inhabited (.struct label fields) := by
  obtain ⟨values, hall⟩ := exists_fields hnd h
  exact ⟨.struct values, .struct hall⟩

/-- A node has a member, or forces a definition, if this is so for its
components. References are left to the caller. -/
theorem inhabited_or_forcing {forced : DefId → Bool} {t : Ty}
    (hregular : t.Regular)
    (hc : ∀ c ∈ t.components, S.Inhabited c ∨ c.forcing forced = true)
    (href : ∀ form name id, t = .ref form name id →
      S.Inhabited t ∨ forced id = true) :
    S.Inhabited t ∨ t.forcing forced = true := by
  cases t with
  | any => exact Or.inl ⟨.null, .any⟩
  | null => exact Or.inl ⟨.null, .null⟩
  | scalar type =>
      obtain ⟨s, hs⟩ := ScalarType.exists_member hregular
      exact Or.inl ⟨.scalar s, .scalar hs⟩
  | array element =>
      refine Or.inl ⟨.array [], .array ?_⟩
      exact fun _ hv => (List.not_mem_nil hv).elim
  | map key value =>
      refine Or.inl ⟨.map [], .map ?_ ?_⟩
      · exact fun _ he => (List.not_mem_nil he).elim
      · exact fun _ he => (List.not_mem_nil he).elim
  | tuple elements =>
      by_cases h : ∃ e ∈ elements, e.forcing forced = true
      · exact Or.inr (by rwa [Ty.forcing, Ty.anyForcing_iff])
      · push Not at h
        refine Or.inl (inhabited_tuple fun e he => ?_)
        exact (hc e he).resolve_right (h e he)
  | struct label fields =>
      by_cases h : ∃ f ∈ fields, f.2.forcing forced = true
      · exact Or.inr (by rwa [Ty.forcing, Ty.anyFieldForcing_iff])
      · push Not at h
        refine Or.inl (inhabited_struct hregular fun f hf => ?_)
        exact (hc f.2 (List.mem_map.mpr ⟨f, hf, rfl⟩)).resolve_right (h f hf)
  | union label variants =>
      by_cases h : ∀ v ∈ variants, v.forcing forced = true
      · exact Or.inr (by rwa [Ty.forcing, Ty.allForcing_iff])
      · push Not at h
        obtain ⟨w, hw, hnot⟩ := h
        obtain ⟨v, hv⟩ := (hc w hw).resolve_right hnot
        exact Or.inl ⟨v, .union hw hv⟩
  | ref form name id => exact href form name id rfl

/-! ## Endless definitions -/

/-- What forces a value of an endless set has no members. -/
theorem Endless.not_member {ids : List DefId} (hids : S.Endless ids)
    {v : Value} {t : Ty} (h : Member S v t) :
    t.forcing ids.contains = false := by
  rw [← Bool.not_eq_true]
  induction h with
  | @tuple items elements hlen h ih =>
      rw [Ty.forcing, Ty.anyForcing_iff]
      rintro ⟨e, he, hforce⟩
      have hzip : (items.zip elements).map Prod.snd = elements :=
        List.map_snd_zip (Nat.le_of_eq hlen.symm)
      obtain ⟨pair, hpair, rfl⟩ := List.mem_map.mp (hzip ▸ he)
      exact ih pair hpair hforce
  | struct h ih =>
      rw [Ty.forcing, Ty.anyFieldForcing_iff]
      rintro ⟨f, hf, hforce⟩
      exact ih f hf hforce
  | union hw h ih =>
      rw [Ty.forcing, Ty.allForcing_iff]
      exact fun hall => ih (hall _ hw)
  | ref hd h ih =>
      rw [Ty.forcing]
      intro hmem
      obtain ⟨d, hd', hforce⟩ := hids _ (List.contains_iff_mem.mp hmem)
      obtain rfl := Option.some.inj (hd.symm.trans hd')
      exact ih hforce
  | _ => simp [Ty.forcing]

open Classical in
/-- The definitions without members are endless, and everything else
without members forces one of them. -/
theorem Linked.exists_endless {here : Ty → Prop} (hS : S.Linked here) :
    ∃ ids, S.Endless ids
      ∧ ∀ t, here t → S.Inhabited t ∨ t.forcing ids.contains = true := by
  let empty (id : DefId) : Prop :=
    ∃ d, S.find? id = some d ∧ here d ∧ ¬S.Inhabited d
  let ids := S.ids.filter fun id => decide (empty id)
  have hall : ∀ t, here t →
      S.Inhabited t ∨ t.forcing ids.contains = true := by
    intro t ht
    induction t using Ty.component_induction with
    | step t ih =>
        refine inhabited_or_forcing (hS.regular ht) ?_ ?_
        · exact fun c hc => ih c hc (hS.component ht hc)
        rintro form name id rfl
        obtain ⟨d, hd, hhere, -⟩ := hS.follow ht
        by_cases h : S.Inhabited d
        · obtain ⟨v, hv⟩ := h
          exact Or.inl ⟨v, .ref hd hv⟩
        · have hid : id ∈ ids := by
            refine List.mem_filter.mpr ⟨mem_ids_of_find? hd, ?_⟩
            exact decide_eq_true ⟨d, hd, hhere, h⟩
          exact Or.inr (List.contains_iff_mem.mpr hid)
  refine ⟨ids, fun id hid => ?_, hall⟩
  obtain ⟨d, hd, hhere, hempty⟩ := of_decide_eq_true (List.mem_filter.mp hid).2
  exact ⟨d, hd, (hall d hhere).resolve_left hempty⟩

theorem Linked.inhabited_iff {here : Ty → Prop} (hS : S.Linked here)
    {t : Ty} (ht : here t) :
    S.Inhabited t ↔
      ¬∃ ids, S.Endless ids ∧ t.forcing ids.contains = true := by
  constructor
  · rintro ⟨v, hv⟩ ⟨ids, hids, hforce⟩
    rw [hids.not_member hv] at hforce
    cases hforce
  · intro h
    obtain ⟨ids, hids, hall⟩ := hS.exists_endless
    exact (hall t ht).resolve_right fun hforce => h ⟨ids, hids, hforce⟩

/-! ## Definitions that refer to nothing outside -/

/-- A part of a self-contained definition has a member or forces the
definition, if all other definitions inside of it have members. -/
theorem Linked.inhabited_part {here : Ty → Prop} (hS : S.Linked here)
    {d : Ty} {id : DefId} (hd : here d) (hid : d.defId? = some id)
    (hself : d.SelfContained)
    (hproper : ∀ q ∈ d.parts, q ≠ d → q.defId?.isSome → S.Inhabited q)
    {u : Ty} (hu : u ∈ d.parts) (hne : u ≠ d) :
    S.Inhabited u ∨ u.forcing (· == id) = true := by
  induction u using Ty.component_induction with
  | step u ih =>
      refine inhabited_or_forcing (hS.regular (hS.part hd hu)) ?_ ?_
      · intro c hc
        have hpart := Ty.mem_parts_trans (Ty.mem_parts_of_component hc) hu
        exact ih c hc hpart (Ty.ne_of_component hu hc)
      · rintro form name target rfl
        obtain ⟨q, hq, hqid⟩ := hself _ hu target rfl
        by_cases heq : target = id
        · exact Or.inr (beq_iff_eq.mpr heq)
        · have hqd : q ≠ d := by
            rintro rfl
            exact heq (Option.some.inj (hqid.symm.trans hid))
          have hsome : q.defId?.isSome := by rw [hqid, Option.isSome_some]
          obtain ⟨v, hv⟩ := hproper q hq hqd hsome
          exact Or.inl ⟨v, .ref (hS.find (hS.part hd hq) hqid) hv⟩

/-- A grounded definition has a member if its components have one that
do not force it. -/
theorem inhabited_of_grounded {d : Ty} {id : DefId}
    (hid : d.defId? = some id) (hregular : d.Regular)
    (hgrounded : d.Grounded)
    (hc : ∀ c ∈ d.components, c.forcing (· == id) = false →
      S.Inhabited c) : S.Inhabited d := by
  cases d with
  | struct label fields =>
      cases label with
      | plain name => cases hid
      | recursive name id' =>
          obtain rfl := Option.some.inj hid
          refine inhabited_struct hregular fun f hf => ?_
          exact hc f.2 (List.mem_map.mpr ⟨f, hf, rfl⟩) (hgrounded f hf)
  | union label variants =>
      cases label with
      | plain name => cases hid
      | recursive name id' =>
          obtain rfl := Option.some.inj hid
          obtain ⟨w, hw, hnot⟩ := hgrounded
          obtain ⟨v, hv⟩ := hc w hw hnot
          exact ⟨v, .union hw hv⟩
  | _ => cases hid

/-- A definition has a member if all references stay inside of their
definitions. By induction on its size: a part without members forces the
definition itself, since all others inside are smaller. -/
theorem Linked.inhabited_definition {here : Ty → Prop}
    (hS : S.Linked here)
    (hself : ∀ d, here d → d.defId?.isSome → d.SelfContained) {d : Ty}
    (hd : here d) (hdef : d.defId?.isSome) : S.Inhabited d := by
  induction hn : d.parts.length using Nat.strong_induction_on
    generalizing d with
  | _ n ih =>
      have hproper : ∀ q ∈ d.parts, q ≠ d → q.defId?.isSome →
          S.Inhabited q := by
        intro q hq hne hqdef
        have hlt := hn ▸ Ty.length_parts_lt hq hne
        exact ih _ hlt (hS.part hd hq) hqdef rfl
      obtain ⟨id, hid⟩ := Option.isSome_iff_exists.mp hdef
      refine inhabited_of_grounded hid (hS.regular hd) (hS.grounded hd) ?_
      intro c hc hnot
      have hne := Ty.ne_of_component (Ty.mem_parts_self d) hc
      have hpart := hS.inhabited_part hd hid (hself d hd hdef) hproper
        (Ty.mem_parts_of_component hc) hne
      exact hpart.resolve_right (by rw [hnot]; nofun)

end Scope

/-- Only a definition can be forced. -/
theorem Ty.forcing_none {t : Ty} (h : t.WellFormed) :
    t.forcing (fun _ => false) = false := by
  rw [← Bool.not_eq_true]
  induction t using component_induction with
  | step t ih =>
      cases t with
      | tuple elements =>
          rw [forcing, anyForcing_iff]
          rintro ⟨e, he, hforce⟩
          exact ih e he (h.component he) hforce
      | struct label fields =>
          rw [forcing, anyFieldForcing_iff]
          rintro ⟨f, hf, hforce⟩
          have hc : f.2 ∈ (Ty.struct label fields).components :=
            List.mem_map.mpr ⟨f, hf, rfl⟩
          exact ih f.2 hc (h.component hc) hforce
      | union label variants =>
          rw [forcing, allForcing_iff]
          intro hall
          have hpos : 0 < variants.length :=
            Nat.lt_of_lt_of_le (by decide) h.regular.1
          obtain ⟨v, hv⟩ := List.exists_mem_of_length_pos hpos
          exact ih v hv (h.component hv) (hall v hv)
      | _ => simp [forcing]

theorem Scope.Linked.inhabited {S : Scope} {here : Ty → Prop}
    (hS : S.Linked here)
    (hself : ∀ d, here d → d.defId?.isSome → d.SelfContained) {t : Ty}
    (ht : here t) : S.Inhabited t := by
  induction t using Ty.component_induction with
  | step t ih =>
      have hnone : ¬t.forcing (fun _ => false) = true := by
        rw [Ty.forcing_none (hS.wellFormed ht)]
        nofun
      refine Or.resolve_right ?_ hnone
      refine Scope.inhabited_or_forcing (hS.regular ht) ?_ ?_
      · exact fun c hc => Or.inl (ih c hc (hS.component ht hc))
      · rintro form name id rfl
        obtain ⟨d, hd, hhere, -⟩ := hS.follow ht
        have hdef : d.defId?.isSome := by
          rw [Scope.defId?_of_find? hd, Option.isSome_some]
        obtain ⟨v, hv⟩ := hS.inhabited_definition hself hhere hdef
        exact Or.inl ⟨v, .ref hd hv⟩

/-- A type has an instance exactly if it forces no endless definitions,
and in any case if all definitions it leads to refer to nothing outside
of themselves. -/
theorem Session.Reachable.exists_isInstance_iff {s : Session}
    (hs : s.Reachable) {es : List TypeExpr} {ts : List Ty} {S : Scope}
    (heval : s.evalTypes es = .ok (ts, S)) {t : Ty} (ht : t ∈ ts)
    (hclosed : S.Closed [t]) :
    ((∃ v : Value, v.isInstance S t = true) ↔
        ¬∃ ids, S.Endless ids ∧ t.forcing ids.contains = true)
      ∧ ((∀ d, S.Reaches [t] d → d.defId?.isSome → d.SelfContained) →
        ∃ v : Value, v.isInstance S t = true) := by
  have hlinked := hs.linked heval (by simp [ht]) hclosed
  have hhere : S.Reaches [t] t := .start (List.mem_singleton.mpr rfl)
  have hinstance : (∃ v : Value, v.isInstance S t = true) ↔ S.Inhabited t :=
    exists_congr fun v => Value.isInstance_iff v t
  rw [hinstance]
  refine ⟨hlinked.inhabited_iff hhere, fun hself => ?_⟩
  exact hlinked.inhabited hself hhere

/-- A struct whose field is a union that needs either itself or the
struct is accepted, and neither has a value; a list, which refers to
nothing outside of itself, has one. -/
theorem not_exists_isInstance_of_mutual :
    let inner : Ty := .union (.recursive "B" 2)
      [.tuple [.ref .union "B" 2], .ref .struct "A" 1]
    let outer : Ty := .struct (.recursive "A" 1) [("f", inner)]
    let list : Ty := .struct (.recursive "List" 1)
      [("next", .union (.plain none) [.ref .struct "List" 1, .null])]
    (Session.empty.evalTypes [.defineStruct (some "A") []
          [("f", .defineUnion (some "B") [] [.tuple [.self 0], .self 1])]]
        = .ok ([outer], ⟨[outer, inner]⟩)
      ∧ (⟨[outer, inner]⟩ : Scope).Closed [outer]
      ∧ ¬∃ v : Value, v.isInstance ⟨[outer, inner]⟩ outer = true)
    ∧ ∃ v : Value, v.isInstance ⟨[list]⟩ list = true := by
  intro inner outer list
  have houter : Session.empty.evalTypes [.defineStruct (some "A") []
      [("f", .defineUnion (some "B") [] [.tuple [.self 0], .self 1])]]
      = .ok ([outer], ⟨[outer, inner]⟩) := by cbv
  have hlist : Session.empty.evalTypes
      [.defineStruct (some "List") [] [("next", .nullable (.self 0))]]
      = .ok ([list], ⟨[list]⟩) := by cbv
  have hclosed : (⟨[outer, inner]⟩ : Scope).Closed [outer] :=
    Scope.closed_of_parts (by decide)
  refine ⟨⟨houter, hclosed, fun h => ?_⟩, ?_⟩
  · have hiff := (Session.Reachable.empty.exists_isInstance_iff houter
      (by simp) hclosed).1
    refine hiff.mp h ⟨[1, 2], fun id hid => ?_, by decide⟩
    simp only [List.mem_cons, List.not_mem_nil, or_false] at hid
    rcases hid with rfl | rfl
    · exact ⟨outer, rfl, by decide⟩
    · exact ⟨inner, rfl, by decide⟩
  · have hall : ∀ p ∈ Ty.partsOfList ([list] ++ [list]),
        p.defId?.isSome → p.SelfContained := by
      unfold Ty.SelfContained
      decide
    have hclosed : (⟨[list]⟩ : Scope).Closed [list] :=
      Scope.closed_of_parts (by decide)
    have hsufficient := (Session.Reachable.empty.exists_isInstance_iff hlist
      (by simp) hclosed).2
    exact hsufficient fun d hd => hall d hd.mem_parts

end Schemata
