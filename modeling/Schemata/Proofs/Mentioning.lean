import Mathlib
import Schemata.Proofs.Reachability
import Schemata.Proofs.UnconditionalCycles

/-!
# Definitions that mention themselves

A definition is recursive if it can be reached from one of its members, by
going into components and following references (`Scope.LeadsTo`). What it is
taken for decides how it is compared from then on: by its name if it is
recursive, by its structure if it is not. So a way back that is overlooked
would give a recursive type the wrong identity.

Two ways to look for one are proved right. `Scope.mentions` collects the
definitions to which references lead, by saturation (`mentions_iff`). The
other way is a depth-first search through nodes in memory
(`Layout.walk`). It enters every struct and union at most once, and unlike
the search for unconditional cycles it never forgets one, also when it is
done with it. That is enough here, because one way back suffices, and an
entered node that had one would have ended the search.

For the converse, a search that finds nothing leaves a set of entered nodes
that is closed. While the search is under way this is not so: the nodes on
its current path were entered and still have components to be looked at. What
a call guarantees is that every node entered *by it* has nothing left to be
looked at but what has been entered (`Closes`), whatever was entered before.
Everything that can be reached from there is then entered or was passed
through, and none of it refers to the target (`Settled.of_reaches`).
-/

namespace Schemata

theorem Ty.eq_ref_of_target? {t : Ty} {id : DefId}
    (h : t.target? = some id) : ∃ form name, t = .ref form name id := by
  cases t with
  | ref form name target =>
      obtain rfl := Option.some.inj h
      exact ⟨form, name, rfl⟩
  | _ => cases h

theorem Ty.target?_of_hasMembers {t : Ty} (h : t.hasMembers = true) :
    t.target? = none := by
  cases t with
  | struct label fields => rfl
  | union label variants => rfl
  | _ => cases h

theorem Ty.hasMembers_of_defId? {t : Ty} {id : DefId}
    (h : t.defId? = some id) : t.hasMembers = true := by
  cases t with
  | struct label fields => rfl
  | union label variants => rfl
  | _ => cases h

namespace Scope

variable {S : Scope} {target : DefId}

/-! ## Ways to a definition -/

theorem Reaches.trans {start next : List Ty} {p : Ty}
    (hnext : ∀ t ∈ next, S.Reaches start t) (h : S.Reaches next p) :
    S.Reaches start p := by
  induction h with
  | start h => exact hnext _ h
  | component _ hc ih => exact ih.component hc
  | follow _ hd ih => exact ih.follow hd

theorem Reaches.part {start : List Ty} {p t : Ty} (h : S.Reaches start t)
    (hp : p ∈ t.parts) : S.Reaches start p := by
  induction t using Ty.component_induction with
  | step t ih =>
      rcases Ty.mem_parts_iff.mp hp with rfl | ⟨c, hc, hp⟩
      · exact h
      · exact ih c hc (h.component hc) hp

/-- The definition `target` can be reached from the type: through the
components of arrays, tuples, maps, structs and unions, and through
references that can be followed. -/
def LeadsTo (S : Scope) (target : DefId) (t : Ty) : Prop :=
  ∃ form name, S.Reaches [t] (.ref form name target)

theorem LeadsTo.of_reaches {t u : Ty} (hu : S.Reaches [t] u)
    (h : S.LeadsTo target u) : S.LeadsTo target t := by
  obtain ⟨form, name, hreach⟩ := h
  refine ⟨form, name, hreach.trans fun v hv => ?_⟩
  rwa [List.mem_singleton.mp hv]

/-! ## By saturation -/

theorem mem_references_iff {t : Ty} {id : DefId} :
    id ∈ t.references ↔ ∃ form name, .ref form name id ∈ t.parts := by
  rw [Ty.references_eq, Ty.mem_references_contents]
  constructor
  · rintro ⟨p, hp, htarget⟩
    obtain ⟨form, name, rfl⟩ := Ty.eq_ref_of_target? htarget
    exact ⟨form, name, hp⟩
  · rintro ⟨form, name, hp⟩
    exact ⟨_, hp, rfl⟩

theorem mem_outgoing_iff {source id : DefId} :
    id ∈ S.outgoing source ↔
      ∃ d, S.find? source = some d ∧ id ∈ d.references := by
  unfold outgoing
  cases S.find? source with
  | none => simp
  | some d => simp

/-- Only definitions in scope refer to others, so there are no more rounds
to make than definitions. -/
theorem reach_saturated (S : Scope) (start : List DefId) :
    Saturated (fun known => known.flatMap S.outgoing) (S.reach start) := by
  refine saturated_saturate_of_edges S.ids (fun id hne => ?_) ?_ start
  · obtain ⟨next, hnext⟩ := List.exists_mem_of_ne_nil _ hne
    obtain ⟨d, hd, -⟩ := mem_outgoing_iff.mp hnext
    exact mem_ids_of_find? hd
  · exact List.length_filterMap_le ..

theorem leadsTo_of_mem_reach {t : Ty} {id : DefId}
    (h : id ∈ S.reach t.references) : S.LeadsTo id t := by
  refine saturate_induction (P := (S.LeadsTo · t))
    (fun known hknown next hnext => ?_) (fun next hnext => ?_) id h
  · obtain ⟨source, hsource, hnext⟩ := List.mem_flatMap.mp hnext
    obtain ⟨d, hd, hnext⟩ := mem_outgoing_iff.mp hnext
    obtain ⟨_, _, hreach⟩ := hknown source hsource
    obtain ⟨form, name, hpart⟩ := mem_references_iff.mp hnext
    exact ⟨form, name, (hreach.follow hd).part hpart⟩
  · obtain ⟨form, name, hpart⟩ := mem_references_iff.mp hnext
    exact ⟨form, name, (Reaches.start (List.mem_singleton.mpr rfl)).part hpart⟩

/-- Whatever is reached refers to nothing but what the saturation finds. -/
theorem Reaches.references_subset {t p : Ty} (h : S.Reaches [t] p) :
    ∀ id ∈ p.references, id ∈ S.reach t.references := by
  induction h with
  | start h =>
      rw [List.mem_singleton.mp h]
      exact subset_saturate
  | component _ hc ih =>
      intro id hid
      obtain ⟨form, name, hpart⟩ := mem_references_iff.mp hid
      refine ih id (mem_references_iff.mpr ⟨form, name, ?_⟩)
      exact Ty.mem_parts_trans hpart (Ty.mem_parts_of_component hc)
  | @follow form name source d _ hd ih =>
      intro id hid
      have hsource : source ∈ (Ty.ref form name source).references :=
        mem_references_iff.mpr ⟨form, name, Ty.mem_parts_self _⟩
      refine S.reach_saturated t.references id (List.mem_flatMap.mpr ?_)
      exact ⟨source, ih source hsource, mem_outgoing_iff.mpr ⟨d, hd, hid⟩⟩

theorem mentions_iff {t : Ty} :
    S.mentions target t = true ↔ S.LeadsTo target t := by
  rw [mentions, List.contains_iff_mem]
  refine ⟨leadsTo_of_mem_reach, ?_⟩
  rintro ⟨form, name, hreach⟩
  refine hreach.references_subset target (mem_references_iff.mpr ?_)
  exact ⟨form, name, Ty.mem_parts_self _⟩

namespace Layout

variable {A B : Type} {L : S.Layout A} {a c d : A}

/-! ## Walks -/

/-- How a search ends that began when some nodes had been entered: whether
the target was found, and what has been entered by then. -/
structure Walk (before : List A) where
  found : Bool
  entered : List A
  kept : ∀ x ∈ before, x ∈ entered

namespace Walk

variable {before : List A}

/-- Nothing has been found, and nothing more was entered. -/
def start (before : List A) : Walk before := ⟨false, before, fun _ h => h⟩

def andThen (w : Walk before) (next : Walk w.entered) : Walk before :=
  ⟨next.found, next.entered, fun x hx => next.kept x (w.kept x hx)⟩

/-- Looks at one after the other, until the target is found. -/
def through (visit : (w : Walk before) → B → Walk w.entered) :
    Walk before → List B → Walk before
  | w, [] => w
  | w, b :: bs =>
    if w.found then w else through visit (w.andThen (visit w b)) bs

/-- The same walk, where entering the first node was a part of it. -/
def entering (w : Walk (a :: before)) : Walk before :=
  ⟨w.found, w.entered, fun x hx => w.kept x (List.mem_cons_of_mem a hx)⟩

@[simp] theorem found_entering (w : Walk (a :: before)) :
    w.entering.found = w.found := rfl

@[simp] theorem entered_entering (w : Walk (a :: before)) :
    w.entering.entered = w.entered := rfl

variable {visit : (w : Walk before) → B → Walk w.entered}

theorem through_of_found {w : Walk before} (h : w.found = true) (bs : List B) :
    through visit w bs = w := by
  cases bs with
  | nil => rfl
  | cons b bs => rw [through, if_pos h]

/-- The target is found on the way only if it is found at some place. -/
theorem exists_found {bs : List B} : ∀ {w : Walk before},
    (through visit w bs).found = true →
      w.found = true ∨ ∃ b ∈ bs, ∃ v, (visit v b).found = true := by
  induction bs with
  | nil => exact fun h => Or.inl h
  | cons b bs ih =>
      intro w h
      rw [through] at h
      split at h
      · next hw => exact Or.inl hw
      · refine Or.inr ?_
        rcases ih h with hfound | ⟨b', hb', v, hfound⟩
        · exact ⟨b, List.mem_cons_self, w, hfound⟩
        · exact ⟨b', List.mem_cons_of_mem _ hb', v, hfound⟩

theorem through_kept {bs : List B} : ∀ {w : Walk before},
    ∀ x ∈ w.entered, x ∈ (through visit w bs).entered := by
  induction bs with
  | nil => exact fun _ hx => hx
  | cons b bs ih =>
      intro w x hx
      rw [through]
      split
      · exact hx
      · exact ih x ((visit w b).kept x hx)

end Walk

/-! ## Depth-first search -/

theorem hasMembers_of_mem_definitions (h : d ∈ L.definitions) :
    (L.type d).hasMembers = true := by
  obtain ⟨id, hid⟩ := Option.isSome_iff_exists.mp (isSome_defId?_of_mem h)
  exact Ty.hasMembers_of_defId? hid

theorem leadsTo_of_component (hc : c ∈ L.components a)
    (h : S.LeadsTo target (L.type c)) : S.LeadsTo target (L.type a) := by
  have hmem : L.type c ∈ (L.type a).components := by
    rw [← L.map_components]
    exact List.mem_map_of_mem hc
  exact h.of_reaches ((Reaches.start List.mem_cons_self).component hmem)

section

variable [DecidableEq A] {before : List A}

/-- Whether the target can be reached from a node, by a search that enters
every struct and union once. -/
def walk (L : S.Layout A) (target : DefId) (before : List A) (a : A) :
    Walk before :=
  if _ : (L.type a).hasMembers = true then
    if _ : a ∈ before then .start before
    else
      Walk.entering (a := a) <| Walk.through
        (fun w (c : { c // c ∈ L.components a }) =>
          walk L target w.entered c.1)
        (.start (a :: before)) (L.components a).attach
  else
    match _ : (L.type a).target? with
    | some id =>
      if id = target then ⟨true, before, fun _ h => h⟩
      else
        match _ : L.definition id with
        | some d => walk L target before d
        | none => .start before
    | none =>
      Walk.through
        (fun w (c : { c // c ∈ L.components a }) =>
          walk L target w.entered c.1)
        (.start before) (L.components a).attach
termination_by ((L.idle before).length, L.weight a)
decreasing_by
  · exact open_decreases (Ty.target?_of_hasMembers ‹_›) ‹_› w.kept c.2
  · obtain ⟨form, name, htype⟩ := Ty.eq_ref_of_target? ‹_›
    exact .right _ (follow_decreases htype ‹_›)
  · exact descend_decreases
      (fun ha => ‹¬_› (hasMembers_of_mem_definitions ha)) ‹_› w.kept c.2

theorem walk_sound (h : (L.walk target before a).found = true) :
    S.LeadsTo target (L.type a) := by
  fun_induction walk L target before a with
  | case1 before a hm hold => cases h
  | case2 before a hm hnew ih =>
      rw [Walk.found_entering] at h
      rcases Walk.exists_found h with hstart | ⟨c, -, w, hfound⟩
      · cases hstart
      · exact leadsTo_of_component c.2 (ih w c hfound)
  | case3 before a hm ht =>
      obtain ⟨form, name, htype⟩ := Ty.eq_ref_of_target? ht
      exact ⟨form, name, htype ▸ .start List.mem_cons_self⟩
  | case4 before a hm id ht hne d hd ih =>
      obtain ⟨form, name, htype⟩ := Ty.eq_ref_of_target? ht
      refine (ih h).of_reaches ?_
      rw [htype]
      exact (Reaches.start List.mem_cons_self).follow (find?_of_definition hd)
  | case5 before a hm id ht hne hd => cases h
  | case6 before a hm ht ih =>
      rcases Walk.exists_found h with hstart | ⟨c, -, w, hfound⟩
      · cases hstart
      · exact leadsTo_of_component c.2 (ih w c hfound)

end

/-! ## A search that finds nothing -/

/-- From the node there is no way to the target but through what has been
entered. -/
inductive Settled (L : S.Layout A) (target : DefId) (entered : List A) :
    A → Prop where
  | entered {a : A} (hm : (L.type a).hasMembers = true) (ha : a ∈ entered) :
      Settled L target entered a
  | reference {a : A} {id : DefId} (ht : (L.type a).target? = some id)
      (hne : id ≠ target) (hd : ∀ d, L.definition id = some d → d ∈ entered) :
      Settled L target entered a
  | passed {a : A} (hm : (L.type a).hasMembers = false)
      (ht : (L.type a).target? = none)
      (hc : ∀ c ∈ L.components a, Settled L target entered c) :
      Settled L target entered a

/-- What was entered since `before` has settled components. -/
def Closes (L : S.Layout A) (target : DefId) (before entered : List A) : Prop :=
  ∀ u ∈ entered, u ∉ before → ∀ c ∈ L.components u, L.Settled target entered c

section

variable {before entered entered' : List A}

theorem Settled.mono (hsub : ∀ x ∈ entered, x ∈ entered')
    (h : L.Settled target entered a) : L.Settled target entered' a := by
  induction h with
  | entered hm ha => exact .entered hm (hsub _ ha)
  | reference ht hne hd => exact .reference ht hne fun d h => hsub d (hd d h)
  | passed hm ht _ ih => exact .passed hm ht ih

theorem Settled.mem_entered (hm : (L.type a).hasMembers = true)
    (h : L.Settled target entered a) : a ∈ entered := by
  cases h with
  | entered _ ha => exact ha
  | reference ht =>
      rw [Ty.target?_of_hasMembers hm] at ht
      cases ht
  | passed hm' =>
      rw [hm] at hm'
      cases hm'

theorem closes_refl : L.Closes target entered entered := by
  intro u hu hnew
  exact (hnew hu).elim

theorem Closes.trans (h : L.Closes target before entered)
    (hsub : ∀ x ∈ entered, x ∈ entered')
    (h' : L.Closes target entered entered') :
    L.Closes target before entered' := by
  intro u hu hnew c hc
  by_cases hmem : u ∈ entered
  · exact (h u hmem hnew c hc).mono hsub
  · exact h' u hu hmem c hc

/-- If each visit settles what it is for and closes what it enters, so do
all of them together. -/
theorem Walk.settles_through {f : B → A}
    {visit : (w : Walk before) → B → Walk w.entered}
    (hvisit : ∀ w b, (visit w b).found = false →
      L.Settled target (visit w b).entered (f b)
        ∧ L.Closes target w.entered (visit w b).entered) {bs : List B} :
    ∀ {w : Walk before}, (through visit w bs).found = false →
      (∀ b ∈ bs, L.Settled target (through visit w bs).entered (f b))
        ∧ L.Closes target w.entered (through visit w bs).entered := by
  induction bs with
  | nil =>
      intro w _
      exact ⟨fun b hb => (List.not_mem_nil hb).elim, closes_refl⟩
  | cons b bs ih =>
      intro w h
      rw [through] at h ⊢
      split at h
      · next hw =>
          rw [hw] at h
          cases h
      · next hw =>
          rw [if_neg hw]
          obtain ⟨hsettled, hcloses⟩ := ih h
          -- had this visit found the target, the others were not made
          have hnone : (visit w b).found = false := by
            by_contra hfound
            have hthen : (w.andThen (visit w b)).found = true :=
              Bool.of_not_eq_false hfound
            rw [through_of_found hthen, hthen] at h
            cases h
          obtain ⟨hb, hentered⟩ := hvisit w b hnone
          have hkept : ∀ x ∈ (visit w b).entered,
              x ∈ (through visit (w.andThen (visit w b)) bs).entered :=
            through_kept (w := w.andThen (visit w b))
          refine ⟨?_, hentered.trans hkept hcloses⟩
          exact List.forall_mem_cons.mpr ⟨hb.mono hkept, hsettled⟩

/-- What a call leaves behind if it finds nothing. -/
theorem walk_settles [DecidableEq A]
    (h : (L.walk target before a).found = false) :
    L.Settled target (L.walk target before a).entered a
      ∧ L.Closes target before (L.walk target before a).entered := by
  fun_induction walk L target before a with
  | case1 before a hm hold => exact ⟨.entered hm hold, closes_refl⟩
  | case2 before a hm hnew ih =>
      rw [Walk.found_entering] at h
      obtain ⟨hsettled, hcloses⟩ :=
        Walk.settles_through (f := Subtype.val) ih h
      rw [Walk.entered_entering]
      refine ⟨.entered hm ?_, fun u hu hold => ?_⟩
      · exact Walk.through_kept (w := .start (a :: before)) a
          List.mem_cons_self
      by_cases hua : u = a
      · subst hua
        exact fun c hc => hsettled ⟨c, hc⟩ (List.mem_attach _ _)
      · exact hcloses u hu fun hmem =>
          (List.mem_cons.mp hmem).elim hua hold
  | case3 before a hm ht => cases h
  | case4 before a hm id ht hne d hd ih =>
      obtain ⟨hsettled, hcloses⟩ := ih h
      refine ⟨.reference ht hne fun d' hd' => ?_, hcloses⟩
      obtain rfl := Option.some.inj (hd.symm.trans hd')
      have hmem := mem_definitions_of_definition hd
      exact hsettled.mem_entered (hasMembers_of_mem_definitions hmem)
  | case5 before a hm id ht hne hd =>
      refine ⟨.reference ht hne fun d hd' => ?_, closes_refl⟩
      rw [hd] at hd'
      cases hd'
  | case6 before a hm ht ih =>
      obtain ⟨hsettled, hcloses⟩ :=
        Walk.settles_through (f := Subtype.val) ih h
      refine ⟨.passed (by simpa using hm) ht fun c hc => ?_, hcloses⟩
      exact hsettled ⟨c, hc⟩ (List.mem_attach _ _)

/-- If all that was entered is closed, whatever can be reached from a
settled node is the type of a settled node. -/
theorem Settled.of_reaches (hcloses : L.Closes target [] entered)
    (ha : L.Settled target entered a) {t : Ty}
    (h : S.Reaches [L.type a] t) :
    ∃ b, L.type b = t ∧ L.Settled target entered b := by
  induction h with
  | start h => exact ⟨a, (List.mem_singleton.mp h).symm, ha⟩
  | component _ hmem ih =>
      obtain ⟨b, rfl, hb⟩ := ih
      obtain ⟨c, hc, rfl⟩ := List.mem_map.mp (L.map_components b ▸ hmem)
      refine ⟨c, rfl, ?_⟩
      cases hb with
      | entered _ hold => exact hcloses b hold List.not_mem_nil c hc
      | reference ht =>
          obtain ⟨form, name, htype⟩ := Ty.eq_ref_of_target? ht
          rw [htype] at hmem
          exact (List.not_mem_nil hmem).elim
      | passed _ _ hcs => exact hcs c hc
  | @follow form name id t _ ht ih =>
      obtain ⟨b, htype, hb⟩ := ih
      rw [← L.map_definition, Option.map_eq_some_iff] at ht
      obtain ⟨d, hd, rfl⟩ := ht
      refine ⟨d, rfl, .entered ?_ ?_⟩
      · exact hasMembers_of_mem_definitions (mem_definitions_of_definition hd)
      · cases hb with
        | entered hm =>
            rw [htype] at hm
            cases hm
        | reference htarget _ hentered =>
            rw [htype] at htarget
            cases htarget
            exact hentered d hd
        | passed _ hnone =>
            rw [htype] at hnone
            cases hnone

theorem not_leadsTo_of_settled (hcloses : L.Closes target [] entered)
    (ha : L.Settled target entered a) : ¬S.LeadsTo target (L.type a) := by
  rintro ⟨form, name, hreach⟩
  obtain ⟨b, htype, hb⟩ := ha.of_reaches hcloses hreach
  cases hb with
  | entered hm =>
      rw [htype] at hm
      cases hm
  | reference ht hne =>
      rw [htype] at ht
      exact hne (Option.some.inj ht).symm
  | passed _ ht =>
      rw [htype] at ht
      cases ht

theorem walk_iff [DecidableEq A] :
    (L.walk target [] a).found = true ↔ S.LeadsTo target (L.type a) := by
  refine ⟨walk_sound, fun h => ?_⟩
  by_contra hfound
  obtain ⟨ha, hcloses⟩ := walk_settles (Bool.of_not_eq_true hfound)
  exact not_leadsTo_of_settled hcloses ha h

end

end Layout

end Scope

/-! ## Recursive definitions -/

namespace Handle

variable {h : Handle} {recursive : Bool}

theorem label?_eq_none_iff :
    h.label? recursive = none ↔ h.name = none ∧ recursive = true := by
  unfold label?
  split <;> simp_all

theorem isRecursive_of_label? {label : Label}
    (hl : h.label? recursive = some label) : label.isRecursive = recursive := by
  unfold label? at hl
  split at hl
  · obtain rfl := Option.some.inj hl
    rfl
  · obtain rfl := Option.some.inj hl
    rfl
  · cases hl

/-- What can become of a definition whose names or number of variants are
accepted, by whether it is recursive. -/
inductive Outcome (h : Handle) (recursive : Bool) : Except Error Ty → Prop where
  | anonymous {signature : String} (hname : h.name = none)
      (hrec : recursive = true) :
      Outcome h recursive (.error (.anonymousRecursion signature))
  | cycle {member : String} (hnamed : h.name = none → recursive = false) :
      Outcome h recursive (.error (.unconditionalCycle h.name member))
  | built {t : Ty} (hnamed : h.name = none → recursive = false)
      (hflag : t.isRecursive = recursive) : Outcome h recursive (.ok t)

theorem named_of_label? {label : Label}
    (hl : h.label? recursive = some label) (hname : h.name = none) :
    recursive = false := by
  by_contra hrec
  rw [label?_eq_none_iff.mpr ⟨hname, Bool.of_not_eq_false hrec⟩] at hl
  cases hl

theorem Outcome.of_label?_ne {signature : String}
    (hl : ∀ label, h.label? recursive ≠ some label) :
    h.Outcome recursive (.error (.anonymousRecursion signature)) := by
  have hnone := Option.eq_none_iff_forall_ne_some.mpr hl
  obtain ⟨hname, hrec⟩ := label?_eq_none_iff.mp hnone
  exact .anonymous hname hrec

theorem defineStruct_outcome {held : List Ty} {fields : List (String × Ty)}
    {S : Scope} (hS : S = Scope.ofHeld (held ++ fields.map Prod.snd))
    (hnames : (fields.map Prod.fst).Nodup) :
    h.Outcome (fields.any fun f => S.mentions h.id f.2)
      (h.defineStruct held fields) := by
  have hchecked : Ty.checkedFields h.name fields = pure fields := by
    rw [Ty.checkedFields, Names.repeated?_eq_none.mpr hnames]
    rfl
  unfold defineStruct
  simp only [hchecked, pure_bind, ← hS]
  split
  · next label hlabel =>
      split
      · exact .cycle (named_of_label? hlabel)
      · exact .built (named_of_label? hlabel) (isRecursive_of_label? hlabel)
  · next hlabel => exact .of_label?_ne hlabel

theorem defineUnion_outcome {held variants : List Ty} {S : Scope}
    (hS : S = Scope.ofHeld (held ++ Ty.distinct variants))
    (harity : Limit.unionVariants ≤ (Ty.distinct variants).length) :
    h.Outcome ((Ty.distinct variants).any (S.mentions h.id))
      (h.defineUnion held variants) := by
  have hchecked :
      Ty.checkedVariants variants = pure (Ty.distinct variants) := by
    rw [Ty.checkedVariants, if_neg (Nat.not_lt.mpr harity)]
    rfl
  unfold defineUnion
  simp only [hchecked, pure_bind, ← hS]
  split
  · next label hlabel =>
      split
      · exact .cycle (named_of_label? hlabel)
      · exact .built (named_of_label? hlabel) (isRecursive_of_label? hlabel)
  · next hlabel => exact .of_label?_ne hlabel

/-- The outcome is a refusal for recursion without a name. -/
def IsAnonymousRecursion (outcome : Except Error Ty) : Prop :=
  ∃ e, outcome = .error e ∧ e.code.render = "TAB0101"

namespace Outcome

variable {outcome : Except Error Ty}

theorem isAnonymousRecursion_iff (ho : h.Outcome recursive outcome) :
    IsAnonymousRecursion outcome ↔ h.name = none ∧ recursive = true := by
  have hfails : (h.name = none → recursive = false) →
      ¬(h.name = none ∧ recursive = true) := by
    intro hnamed hboth
    exact Bool.noConfusion (hboth.2.symm.trans (hnamed hboth.1))
  cases ho with
  | anonymous hname hrec =>
      exact iff_of_true ⟨_, rfl, by cbv⟩ ⟨hname, hrec⟩
  | cycle hnamed =>
      refine iff_of_false ?_ (hfails hnamed)
      rintro ⟨e, he, hcode⟩
      cases he
      exact absurd hcode (by cbv)
  | built hnamed =>
      refine iff_of_false ?_ (hfails hnamed)
      rintro ⟨e, he, -⟩
      cases he

theorem isRecursive_eq {t : Ty} (ho : h.Outcome recursive outcome)
    (hok : outcome = .ok t) : t.isRecursive = recursive := by
  cases ho with
  | anonymous => cases hok
  | cycle => cases hok
  | built _ hflag =>
      obtain rfl := Except.ok.inj hok
      exact hflag

end Outcome

end Handle

/-- The search that enters every node once and the saturation both decide
whether a definition can be reached. A struct whose names are accepted is
refused as anonymous recursion exactly if it has no name and can be reached
from a field, and if it is built, it counts as recursive exactly if it can
be reached from a field; unions likewise, from their distinct variants. -/
theorem recursive_iff_leadsTo :
    (∀ (S : Scope) (A : Type) [DecidableEq A] (L : S.Layout A)
      (target : DefId) (a : A),
      (L.walk target [] a).found = true ↔ S.LeadsTo target (L.type a))
    ∧ (∀ (S : Scope) (target : DefId) (t : Ty),
      S.mentions target t = true ↔ S.LeadsTo target t)
    ∧ (∀ (h : Handle) (held : List Ty) (fields : List (String × Ty))
      (S : Scope), S = Scope.ofHeld (held ++ fields.map Prod.snd) →
      (fields.map Prod.fst).Nodup →
      (Handle.IsAnonymousRecursion (h.defineStruct held fields) ↔
        h.name = none ∧ ∃ f ∈ fields, S.LeadsTo h.id f.2)
      ∧ ∀ t, h.defineStruct held fields = .ok t →
        (t.isRecursive = true ↔ ∃ f ∈ fields, S.LeadsTo h.id f.2))
    ∧ (∀ (h : Handle) (held variants : List Ty) (S : Scope),
      S = Scope.ofHeld (held ++ Ty.distinct variants) →
      Limit.unionVariants ≤ (Ty.distinct variants).length →
      (Handle.IsAnonymousRecursion (h.defineUnion held variants) ↔
        h.name = none ∧ ∃ v ∈ Ty.distinct variants, S.LeadsTo h.id v)
      ∧ ∀ t, h.defineUnion held variants = .ok t →
        (t.isRecursive = true ↔
          ∃ v ∈ Ty.distinct variants, S.LeadsTo h.id v)) := by
  refine ⟨?_, ?_, ?_, ?_⟩
  · intro S A _ L target a
    exact L.walk_iff
  · intro S target t
    exact Scope.mentions_iff
  · intro h held fields S hS hnames
    have ho := Handle.defineStruct_outcome hS hnames (h := h)
    simp only [← Scope.mentions_iff, ← List.any_eq_true]
    refine ⟨ho.isAnonymousRecursion_iff, fun t ht => ?_⟩
    rw [ho.isRecursive_eq ht]
  · intro h held variants S hS harity
    have ho := Handle.defineUnion_outcome hS harity (h := h)
    simp only [← Scope.mentions_iff, ← List.any_eq_true]
    refine ⟨ho.isAnonymousRecursion_iff, fun t ht => ?_⟩
    rw [ho.isRecursive_eq ht]

/-- The way back leads through a reference to another definition, behind a
struct that is shared and has none. Whether the definition has a name then
decides its fate. -/
theorem recursive_through_other :
    let self : Handle := ⟨.struct, some "N", 7⟩
    let anonymous : Handle := ⟨.struct, none, 7⟩
    let other : Ty := .struct (.recursive "D" 3)
      [("d", .array (.ref .struct "D" 3)), ("n", .array self.ref)]
    let shared : Ty := .struct (.plain none) [("x", .null)]
    let fields : List (String × Ty) :=
      [("f", .tuple [shared, shared, .array (.ref .struct "D" 3)])]
    let S := Scope.ofHeld (other :: fields.map Prod.snd)
    let _ := Ty.decEq
    (∀ f ∈ fields, (S.contentLayout.walk 7 [] f.2).found = true)
      ∧ (S.contentLayout.walk 8 [] other).found = false
      ∧ (∃ t, self.defineStruct [other] fields = .ok t ∧ t.isRecursive = true)
      ∧ Handle.IsAnonymousRecursion (anonymous.defineStruct [other] fields)
      ∧ ¬Handle.IsAnonymousRecursion (self.defineStruct [other] fields) := by
  intro self anonymous other shared fields S _
  obtain ⟨hwalk, hmentions, hstruct, -⟩ := recursive_iff_leadsTo
  have hfields : ∀ f ∈ fields, S.LeadsTo 7 f.2 := by
    intro f hf
    rw [← hmentions]
    revert f
    decide +kernel
  have hexists : ∃ f ∈ fields, S.LeadsTo 7 f.2 :=
    ⟨_, List.mem_cons_self, hfields _ List.mem_cons_self⟩
  refine ⟨?_, ?_, ?_, ?_, ?_⟩
  · intro f hf
    exact (hwalk _ Ty _ _ _).mpr (hfields f hf)
  · rw [Bool.eq_false_iff, ne_eq, hwalk, ← hmentions]
    decide +kernel
  · have hbuilt : self.defineStruct [other] fields
        = .ok (.struct (.recursive "N" 7) fields) := by
      cbv
    have hrec := (hstruct self [other] fields S rfl (by decide)).2 _ hbuilt
    exact ⟨_, hbuilt, hrec.mpr hexists⟩
  · exact (hstruct anonymous [other] fields S rfl (by decide)).1.mpr
      ⟨rfl, hexists⟩
  · rw [(hstruct self [other] fields S rfl (by decide)).1]
    rintro ⟨hname, -⟩
    cases hname

end Schemata
