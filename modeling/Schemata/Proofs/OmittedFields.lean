import Mathlib
import Schemata.Proofs.Building
import Schemata.Proofs.Guard

/-!
# Fields that are null and fields that are absent

A field that a struct value lacks counts as null. So it makes no difference
to membership whether a field is null or left out, for one field or many, at
the top or inside of arrays, maps and other structs
(`Value.isInstance_of_omits`). `Value.Omits` relates a value to what is left
of it when fields that are null are left out.

The names of a struct have to be distinct. Of two fields with one name the
first counts, and without it the second would come to light.

The depth-first search for membership distinguishes values by their places,
and all absent fields share one. It remembers which unions it is expanding at
which place, so it remembers other things for the two values. Its answers are
those of `Value.isInstance` nevertheless, for each of them
(`Value.searched_eq`).
-/

namespace Schemata.Value

/-! ## Leaving out fields -/

mutual

/-- The second value is the first one without some of the fields that are
null, at any depth. -/
inductive Omits : Value → Value → Prop where
  | null : Omits .null .null
  | scalar {s} : Omits (.scalar s) (.scalar s)
  | array {vs ws} (h : OmitsEach vs ws) : Omits (.array vs) (.array ws)
  | packed {p} : Omits (.packed p) (.packed p)
  | tuple {vs ws} (h : OmitsEach vs ws) : Omits (.tuple vs) (.tuple ws)
  | map {es fs} (h : OmitsEntries es fs) : Omits (.map es) (.map fs)
  | struct {fs gs} (h : OmitsFields fs gs) : Omits (.struct fs) (.struct gs)

inductive OmitsEach : List Value → List Value → Prop where
  | nil : OmitsEach [] []
  | cons {v w vs ws} (h : Omits v w) (hs : OmitsEach vs ws) :
      OmitsEach (v :: vs) (w :: ws)

inductive OmitsEntries :
    List (Scalar × Value) → List (Scalar × Value) → Prop where
  | nil : OmitsEntries [] []
  | cons {key v w es fs} (h : Omits v w) (hs : OmitsEntries es fs) :
      OmitsEntries ((key, v) :: es) ((key, w) :: fs)

inductive OmitsFields :
    List (String × Value) → List (String × Value) → Prop where
  | nil : OmitsFields [] []
  | keep {name v w fs gs} (h : Omits v w) (hs : OmitsFields fs gs) :
      OmitsFields ((name, v) :: fs) ((name, w) :: gs)
  | drop {name fs gs} (hs : OmitsFields fs gs) :
      OmitsFields ((name, .null) :: fs) gs

end

theorem OmitsFields.names_sublist : ∀ {fs gs : List (String × Value)},
    OmitsFields fs gs → (gs.map Prod.fst).Sublist (fs.map Prod.fst)
  | _, _, .nil => .slnil
  | _, _, .keep _ hs => hs.names_sublist.cons_cons _
  | _, _, .drop hs => hs.names_sublist.cons _

/-! ## Membership -/

variable {S : Scope}

theorem fieldIsInstance_of_absent {fields : List (String × Value)}
    {name : String} (h : name ∉ fields.map Prod.fst) (t : Ty) :
    fieldIsInstance S fields name t = S.acceptsNull t := by
  induction fields with
  | nil => rw [fieldIsInstance]
  | cons f fields ih =>
      have hne : ¬(f.1 == name) = true := fun heq =>
        List.ne_of_not_mem_cons h (beq_iff_eq.mp heq).symm
      rw [fieldIsInstance, if_neg hne, ih (List.not_mem_of_not_mem_cons h)]

mutual

theorem Omits.isInstance_eq : ∀ {v w : Value}, Omits v w → v.NamesDistinct →
    ∀ t, w.isInstance S t = v.isInstance S t
  | _, _, .null, _, _ => rfl
  | _, _, .scalar, _, _ => rfl
  | _, _, .array h, .array hnames, t => by
      simp only [isInstance, h.allInstances_eq hnames]
  | _, _, .packed, _, _ => rfl
  | _, _, .tuple h, .tuple hnames, t => by
      simp only [isInstance, h.itemsAreInstances_eq hnames]
  | _, _, .map h, .map hnames, t => by
      simp only [isInstance, h.entriesAreInstances_eq hnames]
  | _, _, .struct h, .struct hnd hnames, t => by
      simp only [isInstance, h.fieldIsInstance_eq hnd hnames]

theorem OmitsEach.allInstances_eq : ∀ {vs ws : List Value},
    OmitsEach vs ws → (∀ v ∈ vs, v.NamesDistinct) →
      ∀ t, allInstances S ws t = allInstances S vs t
  | _, _, .nil, _, _ => rfl
  | _, _, .cons h hs, hnames, t => by
      obtain ⟨hv, hvs⟩ := List.forall_mem_cons.mp hnames
      rw [allInstances, allInstances, h.isInstance_eq hv,
        hs.allInstances_eq hvs]

theorem OmitsEach.itemsAreInstances_eq : ∀ {vs ws : List Value},
    OmitsEach vs ws → (∀ v ∈ vs, v.NamesDistinct) →
      ∀ ts, itemsAreInstances S ws ts = itemsAreInstances S vs ts
  | _, _, .nil, _, _ => rfl
  | _, _, .cons _ _, _, [] => by simp only [itemsAreInstances]
  | _, _, .cons h hs, hnames, t :: ts => by
      obtain ⟨hv, hvs⟩ := List.forall_mem_cons.mp hnames
      rw [itemsAreInstances, itemsAreInstances, h.isInstance_eq hv,
        hs.itemsAreInstances_eq hvs]

theorem OmitsEntries.entriesAreInstances_eq :
    ∀ {es fs : List (Scalar × Value)}, OmitsEntries es fs →
      (∀ e ∈ es, e.2.NamesDistinct) → ∀ key value,
        entriesAreInstances S fs key value = entriesAreInstances S es key value
  | _, _, .nil, _, _, _ => rfl
  | _, _, .cons h hs, hnames, key, value => by
      obtain ⟨hv, hvs⟩ := List.forall_mem_cons.mp hnames
      rw [entriesAreInstances, entriesAreInstances, h.isInstance_eq hv,
        hs.entriesAreInstances_eq hvs]

theorem OmitsFields.fieldIsInstance_eq :
    ∀ {fs gs : List (String × Value)}, OmitsFields fs gs →
      (fs.map Prod.fst).Nodup → (∀ f ∈ fs, f.2.NamesDistinct) → ∀ name t,
        fieldIsInstance S gs name t = fieldIsInstance S fs name t
  | _, _, .nil, _, _, _, _ => rfl
  | _, _, .keep h hs, hnd, hnames, name, t => by
      obtain ⟨hv, hvs⟩ := List.forall_mem_cons.mp hnames
      rw [fieldIsInstance, fieldIsInstance, h.isInstance_eq hv,
        hs.fieldIsInstance_eq (List.nodup_cons.mp hnd).2 hvs]
  | _, _, .drop hs, hnd, hnames, name, t => by
      obtain ⟨hnew, hnd⟩ := List.nodup_cons.mp hnd
      rw [fieldIsInstance, isInstance]
      split
      · next heq =>
          -- the name does not come again, so it is absent now
          rw [← beq_iff_eq.mp heq]
          refine fieldIsInstance_of_absent (fun hmem => ?_) t
          exact hnew (hs.names_sublist.subset hmem)
      · have hrest := (List.forall_mem_cons.mp hnames).2
        exact hs.fieldIsInstance_eq hnd hrest name t

end

/-- Leaving out fields that are null, as many as one likes and wherever they
are, changes no answer about membership. The depth-first search has the same
answers too, though it finds the nulls in other places, and whatever is being
expanded outside of the value. -/
theorem isInstance_of_omits {v w : Value} (hv : v.NamesDistinct)
    (h : Omits v w) (S : Scope) (t : Ty) :
    v.isInstance S t = w.isInstance S t
      ∧ ∀ guard path, Outside guard path →
        v.searched S guard path t = w.searched S guard path t := by
  have heq := h.isInstance_eq (S := S) hv t
  refine ⟨heq.symm, fun guard path hout => ?_⟩
  rw [searched_eq v hout, searched_eq w hout, heq]

/-- A list whose links are recursive unions, where null ends it. -/
theorem isInstance_of_omits_list :
    let link : Handle := ⟨.union, some "Link", 1⟩
    let number : Ty := .union (.plain none) [.scalar .int, .null]
    let list : Ty := .union (.recursive "Link" 1)
      [.null, .struct (.plain none) [("value", number), ("next", link.ref)]]
    let S := Scope.ofHeld [list]
    let v : Value := .struct [("value", .null), ("next", .struct
      [("next", .null), ("value", .number (.int 7)), ("note", .null)])]
    let w : Value := .struct [("next", .struct [("value", .number (.int 7))])]
    let strict : Ty := .struct (.plain none) [("value", .scalar .int)]
    (v.NamesDistinct ∧ Omits v w)
      ∧ (v.isInstance S list = true ∧ w.isInstance S list = true)
      ∧ v.searched S [] [] list = w.searched S [] [] list
      ∧ (v.isInstance S strict = false ∧ w.isInstance S strict = false) := by
  intro link number list S v w strict
  have hv : v.NamesDistinct := by
    refine .struct (by decide) ?_
    have hnext : (Value.struct [("next", .null),
        ("value", .number (.int 7)), ("note", .null)]).NamesDistinct :=
      .struct (by decide) (by simpa using ⟨.null, .scalar, .null⟩)
    simpa using ⟨.null, hnext⟩
  have homits : Omits v w :=
    .struct (.drop (.keep (.struct (.drop (.keep .scalar (.drop .nil)))) .nil))
  have hlist : v.isInstance S list = true := by cbv
  have hstrict : v.isInstance S strict = false := by cbv
  obtain ⟨heq, hsearched⟩ := isInstance_of_omits hv homits S list
  obtain ⟨hstrict', -⟩ := isInstance_of_omits hv homits S strict
  refine ⟨⟨hv, homits⟩, ⟨hlist, heq ▸ hlist⟩, hsearched [] [] ?_,
    hstrict, hstrict' ▸ hstrict⟩
  exact fun e he => (List.not_mem_nil he).elim

end Schemata.Value
