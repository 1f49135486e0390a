import Mathlib
import Schemata.Subtype

/-!
# The search for a subtype, as rules

One step of the search either settles the comparison, or applies a rule
to what the two types resolve to. `Scope.Rule` has these rules, with the
comparisons that they ask for as a parameter, and `subtypeStep_iff` says
that a step applies one of them. Everything that is proved about the
search is proved about the rules.

A rule that expands a recursive union records the expansion and needs it
not to be in progress (`Pending.Expands`); one that opens a pair of
structs, of which one is recursive, records the pair, which from then on
may be assumed (`Pending.Assumes`). `Scope.Opens` are the comparisons that
a step may ask for, so a rule needs no others (`Rule.opens`).
-/

namespace Schemata

namespace Pending

theorem contains_iff {pairs : List (Ty × Ty)} {a b : Ty} :
    pairs.contains (a, b) = true ↔
      ∃ pair ∈ pairs, (a == pair.1) = true ∧ (b == pair.2) = true := by
  rw [List.contains_eq_any_beq, List.any_eq_true]
  refine exists_congr fun pair => and_congr_right fun _ => ?_
  show (a == pair.1 && b == pair.2) = true ↔ _
  rw [Bool.and_eq_true]

/-- The comparisons in progress after a union is expanded. -/
def Expands (P : Pending) (recursive : Bool) (a b : Ty)
    (P' : Pending) : Prop :=
  (recursive = false ∧ P' = P)
    ∨ (recursive = true ∧ P.unions.contains (a, b) = false
      ∧ P' = P.withUnion a b)

/-- The comparisons in progress after a pair of structs is opened. -/
def Assumes (P : Pending) (recursive : Bool) (a b : Ty)
    (P' : Pending) : Prop :=
  (recursive = false ∧ P' = P) ∨ (recursive = true ∧ P' = P.withStruct a b)

theorem expand_iff {P : Pending} {recursive : Bool} {a b : Ty}
    {rule : Pending → Bool} :
    P.expand recursive a b rule = true ↔
      ∃ P', P.Expands recursive a b P' ∧ rule P' = true := by
  cases recursive <;> simp [expand, Expands]

theorem assume_iff {P : Pending} {recursive : Bool} {a b : Ty}
    {rule : Pending → Bool} :
    P.assume recursive a b rule = true ↔
      (recursive = true ∧ P.structs.contains (a, b) = true)
        ∨ ∃ P', P.Assumes recursive a b P' ∧ rule P' = true := by
  cases recursive <;> simp [assume, Assumes]

end Pending

/-- The rules for types that have been followed, where `sub` is how the
comparisons they ask for are made. -/
inductive Scope.Rule (sub : Pending → Ty → Ty → Prop) (P : Pending) :
    Ty → Ty → Prop where
  | toUnion {a label variants v P'}
      (hP : P.Expands label.isRecursive a (.union label variants) P')
      (hv : v ∈ variants) (h : sub P' a v) : Rule sub P a (.union label variants)
  | ofUnion {b label variants P'}
      (hP : P.Expands label.isRecursive (.union label variants) b P')
      (h : ∀ v ∈ variants, sub P' v b) : Rule sub P (.union label variants) b
  | assumed {la fields lb required}
      (hrecursive : (la.isRecursive || lb.isRecursive) = true)
      (h : P.structs.contains (.struct la fields, .struct lb required) = true) :
      Rule sub P (.struct la fields) (.struct lb required)
  | fields {la fields lb required P'}
      (hP : P.Assumes (la.isRecursive || lb.isRecursive) (.struct la fields)
        (.struct lb required) P')
      (h : ∀ g ∈ required, ∃ t, fields.lookup g.1 = some t ∧ sub P' t g.2) :
      Rule sub P (.struct la fields) (.struct lb required)

namespace Scope

theorem Rule.imp {sub sub' : Pending → Ty → Ty → Prop} {P : Pending}
    {a b : Ty} (h : ∀ P' x y, sub P' x y → sub' P' x y)
    (hrule : Rule sub P a b) : Rule sub' P a b := by
  cases hrule with
  | toUnion hP hv hsub => exact .toUnion hP hv (h _ _ _ hsub)
  | ofUnion hP hsub => exact .ofUnion hP fun v hv => h _ _ _ (hsub v hv)
  | assumed hrecursive hmem => exact .assumed hrecursive hmem
  | fields hP hsub =>
      refine .fields hP fun g hg => ?_
      obtain ⟨t, ht, hsub⟩ := hsub g hg
      exact ⟨t, ht, h _ _ _ hsub⟩

/-- One comparison, where `check` makes the comparisons it asks for. -/
def subtypeStep (S : Scope) (check : Pending → Ty → Ty → Bool)
    (pending : Pending) (a b : Ty) : Bool :=
  a == b || b.isAny ||
  let a := S.resolve a
  let b := S.resolve b
  (match b with
    | .union label variants =>
      pending.expand label.isRecursive a b fun pending =>
        variants.any fun v => check pending a v
    | _ => false) ||
  (match a with
    | .union label variants =>
      pending.expand label.isRecursive a b fun pending =>
        variants.all fun v => check pending v b
    | _ => false) ||
  match a, b with
  | .struct la fields, .struct lb required =>
    pending.assume (la.isRecursive || lb.isRecursive) a b fun pending =>
      required.all fun field =>
        match fields.lookup field.1 with
        | some declared => check pending declared field.2
        | none => false
  | _, _ => false

theorem subtypeWithin_eq (S : Scope) (n : Nat) :
    S.subtypeWithin (n + 1) = S.subtypeStep (S.subtypeWithin n) := rfl

/-- A comparison settles the question or applies a rule. -/
theorem subtypeStep_iff {S : Scope} {check : Pending → Ty → Ty → Bool}
    {P : Pending} {a b : Ty} :
    S.subtypeStep check P a b = true ↔
      (a == b) = true ∨ b = .any
        ∨ Rule (fun P' x y => check P' x y = true) P
          (S.resolve a) (S.resolve b) := by
  have hany : b.isAny = true ↔ b = .any := by cases b <;> simp [Ty.isAny]
  rw [subtypeStep]
  simp only [Bool.or_eq_true, hany, or_assoc]
  refine or_congr_right (or_congr_right ?_)
  constructor
  · rintro (h | h | h)
    · split at h
      · next label variants heq =>
          obtain ⟨P', hP, h⟩ := Pending.expand_iff.mp h
          obtain ⟨v, hv, h⟩ := List.any_eq_true.mp h
          rw [heq] at hP ⊢
          exact .toUnion hP hv h
      · cases h
    · split at h
      · next label variants heq =>
          obtain ⟨P', hP, h⟩ := Pending.expand_iff.mp h
          rw [heq] at hP ⊢
          exact .ofUnion hP (List.all_eq_true.mp h)
      · cases h
    · split at h
      · next la fields lb required heqa heqb =>
          rw [heqa, heqb] at h ⊢
          rcases Pending.assume_iff.mp h with ⟨hrecursive, h⟩ | ⟨P', hP, h⟩
          · exact .assumed hrecursive h
          · refine .fields hP fun g hg => ?_
            have hfield := List.all_eq_true.mp h g hg
            split at hfield
            · next t ht => exact ⟨t, ht, hfield⟩
            · cases hfield
      · cases h
  · generalize S.resolve a = a'
    generalize S.resolve b = b'
    intro h
    cases h with
    | toUnion hP hv h =>
        have hany := List.any_eq_true.mpr ⟨_, hv, h⟩
        exact Or.inl (Pending.expand_iff.mpr ⟨_, hP, hany⟩)
    | ofUnion hP h =>
        have hall := List.all_eq_true.mpr h
        exact Or.inr (Or.inl (Pending.expand_iff.mpr ⟨_, hP, hall⟩))
    | assumed hrecursive h =>
        refine Or.inr (Or.inr (Pending.assume_iff.mpr ?_))
        exact Or.inl ⟨hrecursive, h⟩
    | fields hP h =>
        refine Or.inr (Or.inr (Pending.assume_iff.mpr (Or.inr ⟨_, hP, ?_⟩)))
        refine List.all_eq_true.mpr fun g hg => ?_
        obtain ⟨t, ht, hsub⟩ := h g hg
        rw [ht]
        exact hsub

/-- One step of the search. -/
theorem subtypeWithin_succ {S : Scope} {n : Nat} {P : Pending} {a b : Ty} :
    S.subtypeWithin (n + 1) P a b = true ↔
      (a == b) = true ∨ b = .any
        ∨ Rule (fun P' x y => S.subtypeWithin n P' x y = true) P
          (S.resolve a) (S.resolve b) := by
  rw [subtypeWithin_eq]
  exact subtypeStep_iff

/-! ## Comparisons that are asked for -/

/-- The comparisons that are opened for two types that have been followed:
with the variants of a union, and with the fields of a pair of structs,
unless that may be assumed. -/
inductive Opens (P : Pending) : Ty → Ty → Pending → Ty → Ty → Prop where
  | toUnion {a label variants v P'}
      (hP : P.Expands label.isRecursive a (.union label variants) P')
      (hv : v ∈ variants) : Opens P a (.union label variants) P' a v
  | ofUnion {b label variants v P'}
      (hP : P.Expands label.isRecursive (.union label variants) b P')
      (hv : v ∈ variants) : Opens P (.union label variants) b P' v b
  | fields {la fields lb required g t P'}
      (hP : P.Assumes (la.isRecursive || lb.isRecursive) (.struct la fields)
        (.struct lb required) P')
      (hnew : (la.isRecursive || lb.isRecursive) = true →
        P.structs.contains (.struct la fields, .struct lb required) = false)
      (hg : g ∈ required) (ht : fields.lookup g.1 = some t) :
      Opens P (.struct la fields) (.struct lb required) P' t g.2

/-- A rule that applies does so with comparisons that are opened. -/
theorem Rule.opens {sub : Pending → Ty → Ty → Prop} {P : Pending} {a b : Ty}
    (h : Rule sub P a b) :
    Rule (fun P' x y => sub P' x y ∧ Opens P a b P' x y) P a b := by
  cases h with
  | toUnion hP hv hsub => exact .toUnion hP hv ⟨hsub, .toUnion hP hv⟩
  | ofUnion hP hsub =>
      exact .ofUnion hP fun v hv => ⟨hsub v hv, .ofUnion hP hv⟩
  | assumed hrecursive hmem => exact .assumed hrecursive hmem
  | @fields la fields lb required P' hP hsub =>
      -- a pair that is recorded already need not be opened again
      by_cases hknown : (la.isRecursive || lb.isRecursive) = true
          ∧ P.structs.contains (.struct la fields, .struct lb required) = true
      · exact .assumed hknown.1 hknown.2
      · refine .fields hP fun g hg => ?_
        obtain ⟨t, ht, hsub⟩ := hsub g hg
        have hnew : (la.isRecursive || lb.isRecursive) = true →
            P.structs.contains (.struct la fields, .struct lb required)
              = false :=
          fun hrecursive => by simpa [hrecursive] using hknown
        exact ⟨t, ht, hsub, .fields hP hnew hg ht⟩

end Scope

end Schemata
