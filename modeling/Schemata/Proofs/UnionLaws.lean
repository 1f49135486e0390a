import Mathlib
import Schemata.Proofs.SearchBound

/-!
# The rules for unions, as laws

One would expect of every union `U` that `a` is a subtype of `U` as soon
as it is one of some variant, and that `U` is a subtype of `b` as soon as
every variant is one. This holds for plain unions. A recursive one is
not expanded a second time for an equal pair while its expansion is in
progress. That is meant for a search that makes no progress, and it also
refuses a pair that comes back through the fields of a struct.

`Scope.SubtypeUnder` is what a comparison finds while others are in
progress. It satisfies the rules exactly (`subtypeUnder_iff`), which says
when a union is a subtype or supertype: the comparisons with the variants
are made while the expansion is in progress. They have the same outcome
as on their own if they do not come back to it (`Scope.Returns`), so in
that case the laws hold for recursive unions too
(`Session.Reachable.union_laws`).
-/

namespace Schemata

/-- What is in progress while a union with this label is expanded, and
nothing else is. -/
def Pending.expanding (label : Label) (a b : Ty) : Pending :=
  if label.isRecursive then Pending.empty.withUnion a b else .empty

/-- One more expansion is in progress, since before all others. -/
def Pending.refusing (P : Pending) (a b : Ty) : Pending :=
  { P with unions := P.unions ++ [(a, b)] }

namespace Scope

variable {S : Scope}

/-! ## Comparisons under others -/

/-- The comparison succeeds while those of `P` are in progress. -/
def SubtypeUnder (S : Scope) (P : Pending) (a b : Ty) : Prop :=
  ∃ n, S.subtypeWithin n P a b = true

theorem isSubtype_iff_subtypeUnder {a b : Ty} :
    S.isSubtype a b = true ↔ S.SubtypeUnder .empty a b :=
  isSubtype_iff

/-- Finitely many comparisons succeed within one number of steps. -/
theorem exists_steps {α : Type} {P : Pending} {f g : α → Ty} {l : List α}
    (h : ∀ x ∈ l, S.SubtypeUnder P (f x) (g x)) :
    ∃ n, ∀ x ∈ l, S.subtypeWithin n P (f x) (g x) = true := by
  induction l with
  | nil => exact ⟨0, fun x hx => (List.not_mem_nil hx).elim⟩
  | cons x l ih =>
      obtain ⟨n, hn⟩ := h x (List.mem_cons_self ..)
      obtain ⟨m, hm⟩ := ih fun y hy => h y (List.mem_cons_of_mem _ hy)
      refine ⟨max n m, List.forall_mem_cons.mpr ⟨?_, fun y hy => ?_⟩⟩
      · exact subtypeWithin_mono (Nat.le_max_left ..) hn
      · exact subtypeWithin_mono (Nat.le_max_right ..) (hm y hy)

theorem Rule.exists_steps {P : Pending} {a b : Ty}
    (h : Rule S.SubtypeUnder P a b) :
    ∃ n, Rule (fun P' x y => S.subtypeWithin n P' x y = true) P a b := by
  cases h with
  | toUnion hP hv hsub =>
      obtain ⟨n, hn⟩ := hsub
      exact ⟨n, .toUnion hP hv hn⟩
  | ofUnion hP hsub =>
      obtain ⟨n, hn⟩ := Scope.exists_steps (f := id) hsub
      exact ⟨n, .ofUnion hP hn⟩
  | assumed hrecursive hmem => exact ⟨0, .assumed hrecursive hmem⟩
  | @fields la fields lb required P' hP hsub =>
      have hall : ∀ g ∈ required,
          S.SubtypeUnder P' ((fields.lookup g.1).getD .any) g.2 := by
        intro g hg
        obtain ⟨t, ht, hsub⟩ := hsub g hg
        rwa [ht]
      obtain ⟨n, hn⟩ := Scope.exists_steps hall
      refine ⟨n, .fields hP fun g hg => ?_⟩
      obtain ⟨t, ht, -⟩ := hsub g hg
      have hstep := hn g hg
      rw [ht] at hstep
      exact ⟨t, ht, hstep⟩

/-- The search finds exactly what the rules give. -/
theorem subtypeUnder_iff {P : Pending} {a b : Ty} :
    S.SubtypeUnder P a b ↔ (a == b) = true ∨ b = .any
      ∨ Rule S.SubtypeUnder P (S.resolve a) (S.resolve b) := by
  constructor
  · rintro ⟨n, h⟩
    cases n with
    | zero => cases h
    | succ n =>
        rcases subtypeWithin_succ.mp h with h | h | h
        · exact Or.inl h
        · exact Or.inr (Or.inl h)
        · exact Or.inr (Or.inr (h.imp fun P' x y hsub => ⟨n, hsub⟩))
  · rintro (h | h | h)
    · exact ⟨1, subtypeWithin_succ.mpr (Or.inl h)⟩
    · exact ⟨1, subtypeWithin_succ.mpr (Or.inr (Or.inl h))⟩
    · obtain ⟨n, h⟩ := h.exists_steps
      exact ⟨n + 1, subtypeWithin_succ.mpr (Or.inr (Or.inr h))⟩

theorem Linked.subtypeUnder_resolve_left {here : Ty → Prop}
    (hS : S.Linked here) {P : Pending} {a b : Ty} (ha : here a) :
    S.SubtypeUnder P (S.resolve a) b ↔ S.SubtypeUnder P a b := by
  rw [subtypeUnder_iff, subtypeUnder_iff, hS.beq_resolve_left ha,
    hS.resolve_resolve ha]

theorem Linked.subtypeUnder_resolve_right {here : Ty → Prop}
    (hS : S.Linked here) {P : Pending} {a b : Ty} (hb : here b) :
    S.SubtypeUnder P a (S.resolve b) ↔ S.SubtypeUnder P a b := by
  have hany : S.resolve b = .any ↔ b = .any := by
    obtain ⟨-, hname, -⟩ := hS.resolve hb
    constructor
    · intro h
      rw [h] at hname
      cases b with
      | ref form name id => cases hname
      | _ => exact h
    · rintro rfl
      rfl
  rw [subtypeUnder_iff, subtypeUnder_iff, hS.beq_resolve_right hb,
    hS.resolve_resolve hb, hany]

/-! ## Expanding a union -/

theorem expands_empty_iff {label : Label} {a b : Ty} {P : Pending} :
    Pending.empty.Expands label.isRecursive a b P ↔ P = .expanding label a b := by
  unfold Pending.Expands Pending.expanding
  cases label.isRecursive <;> simp [Pending.empty]

/-- Only the rules for unions apply to a union on the right. -/
theorem rule_empty_union_right {sub : Pending → Ty → Ty → Prop}
    {a : Ty} {label : Label} {variants : List Ty} :
    Rule sub .empty a (.union label variants) ↔
      (∃ v ∈ variants, sub (.expanding label a (.union label variants)) a v)
      ∨ ∃ label' ws, a = .union label' ws
          ∧ ∀ w ∈ ws, sub (.expanding label' a (.union label variants)) w
            (.union label variants) := by
  constructor
  · intro h
    cases h with
    | toUnion hP hv hsub =>
        obtain rfl := expands_empty_iff.mp hP
        exact Or.inl ⟨_, hv, hsub⟩
    | ofUnion hP hsub =>
        obtain rfl := expands_empty_iff.mp hP
        exact Or.inr ⟨_, _, rfl, hsub⟩
  · rintro (⟨v, hv, hsub⟩ | ⟨label', ws, rfl, hsub⟩)
    · exact .toUnion (expands_empty_iff.mpr rfl) hv hsub
    · exact .ofUnion (expands_empty_iff.mpr rfl) hsub

/-- Only the rules for unions apply to a union on the left. -/
theorem rule_empty_union_left {sub : Pending → Ty → Ty → Prop}
    {b : Ty} {label : Label} {variants : List Ty} :
    Rule sub .empty (.union label variants) b ↔
      (∀ v ∈ variants, sub (.expanding label (.union label variants) b) v b)
      ∨ ∃ label' ws, b = .union label' ws
          ∧ ∃ w ∈ ws, sub (.expanding label' (.union label variants) b)
            (.union label variants) w := by
  constructor
  · intro h
    cases h with
    | toUnion hP hv hsub =>
        obtain rfl := expands_empty_iff.mp hP
        exact Or.inr ⟨_, _, rfl, _, hv, hsub⟩
    | ofUnion hP hsub =>
        obtain rfl := expands_empty_iff.mp hP
        exact Or.inl hsub
  · rintro (hsub | ⟨label', ws, rfl, w, hw, hsub⟩)
    · exact .ofUnion (expands_empty_iff.mpr rfl) hsub
    · exact .toUnion (expands_empty_iff.mpr rfl) hw hsub

section

variable {here : Ty → Prop} {U : Ty} {label : Label} {variants : List Ty}

/-- When a type is a subtype of a union. -/
theorem Linked.isSubtype_union_iff (hS : S.Linked here) (hhere : here U)
    (hU : S.resolve U = .union label variants) {a : Ty} (ha : here a) :
    S.isSubtype a U = true ↔ (a == U) = true
      ∨ (∃ v ∈ variants, S.SubtypeUnder
          (.expanding label (S.resolve a) (S.resolve U)) a v)
      ∨ ∃ label' ws, S.resolve a = .union label' ws
          ∧ ∀ w ∈ ws, S.SubtypeUnder
            (.expanding label' (S.resolve a) (S.resolve U)) w U := by
  have hne : U ≠ .any := by
    rintro rfl
    cases hU
  rw [isSubtype_iff_subtypeUnder, subtypeUnder_iff, or_iff_right hne]
  refine or_congr_right ?_
  nth_rewrite 1 [hU]
  rw [rule_empty_union_right, ← hU]
  simp only [hS.subtypeUnder_resolve_left ha,
    hS.subtypeUnder_resolve_right hhere]

/-- When a union is a subtype of a type. -/
theorem Linked.union_isSubtype_iff (hS : S.Linked here) (hhere : here U)
    (hU : S.resolve U = .union label variants) {b : Ty} (hb : here b) :
    S.isSubtype U b = true ↔ (U == b) = true ∨ b = .any
      ∨ (∀ v ∈ variants, S.SubtypeUnder
          (.expanding label (S.resolve U) (S.resolve b)) v b)
      ∨ ∃ label' ws, S.resolve b = .union label' ws
          ∧ ∃ w ∈ ws, S.SubtypeUnder
            (.expanding label' (S.resolve U) (S.resolve b)) U w := by
  rw [isSubtype_iff_subtypeUnder, subtypeUnder_iff]
  refine or_congr_right (or_congr_right ?_)
  nth_rewrite 1 [hU]
  rw [rule_empty_union_left, ← hU]
  simp only [hS.subtypeUnder_resolve_left hhere,
    hS.subtypeUnder_resolve_right hb]

end

/-! ## Comparisons that do not come back -/

/-- The pairs that the comparison of `a` and `b` can come to, with
references followed. -/
inductive Asks (S : Scope) (a b : Ty) : Ty → Ty → Prop where
  | start : Asks S a b (S.resolve a) (S.resolve b)
  | toUnion {x label variants v} (h : Asks S a b x (.union label variants))
      (hv : v ∈ variants) : Asks S a b (S.resolve x) (S.resolve v)
  | ofUnion {y label variants v} (h : Asks S a b (.union label variants) y)
      (hv : v ∈ variants) : Asks S a b (S.resolve v) (S.resolve y)
  | fields {la fields lb required g t}
      (h : Asks S a b (.struct la fields) (.struct lb required))
      (hg : g ∈ required) (ht : fields.lookup g.1 = some t) :
      Asks S a b (S.resolve t) (S.resolve g.2)

/-- The comparison of `a` and `b` can come to a pair equal to `c` and
`d`. -/
def Returns (S : Scope) (a b c d : Ty) : Prop :=
  ∃ x y, S.Asks a b x y
    ∧ (x == S.resolve c) = true ∧ (y == S.resolve d) = true

theorem expands_refusing {P P' : Pending} {recursive : Bool} {a b c d : Ty}
    (h : P.Expands recursive a b P')
    (hne : ¬((a == c) = true ∧ (b == d) = true)) :
    (P.refusing c d).Expands recursive a b (P'.refusing c d) := by
  rcases h with ⟨hplain, rfl⟩ | ⟨hrecursive, hnew, rfl⟩
  · exact Or.inl ⟨hplain, rfl⟩
  · refine Or.inr ⟨hrecursive, ?_, rfl⟩
    rw [← Bool.not_eq_true, Pending.contains_iff] at hnew ⊢
    rintro ⟨pair, hpair, heq⟩
    rcases List.mem_append.mp hpair with hpair | hpair
    · exact hnew ⟨pair, hpair, heq⟩
    · obtain rfl := List.mem_singleton.mp hpair
      exact hne heq

theorem assumes_refusing {P P' : Pending} {recursive : Bool} {a b : Ty}
    (c d : Ty) (h : P.Assumes recursive a b P') :
    (P.refusing c d).Assumes recursive a b (P'.refusing c d) := by
  rcases h with ⟨hplain, rfl⟩ | ⟨hrecursive, rfl⟩
  · exact Or.inl ⟨hplain, rfl⟩
  · exact Or.inr ⟨hrecursive, rfl⟩

/-- What is opened for a pair that the comparison can come to is another
one. -/
theorem Asks.opens {P P' : Pending} {a b x y x' y' : Ty}
    (hasks : S.Asks a b x y) (h : Opens P x y P' x' y') :
    S.Asks a b (S.resolve x') (S.resolve y') := by
  cases h with
  | toUnion _ hv => exact hasks.toUnion hv
  | ofUnion _ hv => exact hasks.ofUnion hv
  | fields _ _ hg ht => exact hasks.fields hg ht

/-- A rule for another pair than the refused one still applies. -/
theorem Rule.refusing {sub sub' : Pending → Ty → Ty → Prop} {P : Pending}
    {x y c d : Ty} (hne : ¬((x == c) = true ∧ (y == d) = true))
    (hsub : ∀ P' x' y', sub P' x' y' → sub' (P'.refusing c d) x' y')
    (h : Rule sub P x y) : Rule sub' (P.refusing c d) x y := by
  cases h with
  | toUnion hP hv h =>
      exact .toUnion (expands_refusing hP hne) hv (hsub _ _ _ h)
  | ofUnion hP h =>
      refine .ofUnion (expands_refusing hP hne) fun v hv => ?_
      exact hsub _ _ _ (h v hv)
  | assumed hrecursive hmem => exact .assumed hrecursive hmem
  | fields hP h =>
      refine .fields (assumes_refusing c d hP) fun g hg => ?_
      obtain ⟨t, ht, h⟩ := h g hg
      exact ⟨t, ht, hsub _ _ _ h⟩

/-- An expansion in progress does not matter to a comparison that does
not come back to it. -/
theorem subtypeWithin_refusing {a b c d : Ty} (h : ¬S.Returns a b c d)
    {n : Nat} : ∀ {P : Pending} {x y : Ty},
      S.Asks a b (S.resolve x) (S.resolve y) →
      S.subtypeWithin n P x y = true →
      S.subtypeWithin n (P.refusing (S.resolve c) (S.resolve d)) x y
        = true := by
  induction n with
  | zero =>
      intro P x y _ hsub
      cases hsub
  | succ n ih =>
      intro P x y hasks hsub
      refine subtypeWithin_succ.mpr ?_
      rcases subtypeWithin_succ.mp hsub with hsub | hsub | hrule
      · exact Or.inl hsub
      · exact Or.inr (Or.inl hsub)
      · refine Or.inr (Or.inr (hrule.opens.refusing ?_ ?_))
        · exact fun heq => h ⟨_, _, hasks, heq⟩
        · exact fun P' x' y' hsub => ih (hasks.opens hsub.2) hsub.1

theorem subtypeUnder_expanding {a b c d : Ty} {label : Label}
    (hsub : S.isSubtype a b = true)
    (h : label.isRecursive = true → ¬S.Returns a b c d) :
    S.SubtypeUnder (.expanding label (S.resolve c) (S.resolve d)) a b := by
  unfold Pending.expanding
  split
  · next hrecursive =>
      exact ⟨_, subtypeWithin_refusing (h hrecursive) .start hsub⟩
  · exact isSubtype_iff_subtypeUnder.mp hsub

end Scope

/-- When a type is a subtype of a union and a union one of a type; and
the laws that follow for plain unions, and for recursive ones as long as
the comparisons with the variants do not come back to the union. -/
theorem Session.Reachable.union_laws {s : Session} (hs : s.Reachable)
    {es : List TypeExpr} {ts : List Ty} {S : Scope}
    (heval : s.evalTypes es = .ok (ts, S)) {a b U : Ty}
    (ha : a ∈ ts) (hb : b ∈ ts) (hU : U ∈ ts)
    (hclosed : S.Closed [a, b, U]) {label : Label} {variants : List Ty}
    (hunion : S.resolve U = .union label variants) :
    (S.isSubtype a U = true ↔ (a == U) = true
      ∨ (∃ v ∈ variants, S.SubtypeUnder
          (.expanding label (S.resolve a) (S.resolve U)) a v)
      ∨ ∃ label' ws, S.resolve a = .union label' ws
          ∧ ∀ w ∈ ws, S.SubtypeUnder
            (.expanding label' (S.resolve a) (S.resolve U)) w U)
    ∧ (S.isSubtype U b = true ↔ (U == b) = true ∨ b = .any
      ∨ (∀ v ∈ variants, S.SubtypeUnder
          (.expanding label (S.resolve U) (S.resolve b)) v b)
      ∨ ∃ label' ws, S.resolve b = .union label' ws
          ∧ ∃ w ∈ ws, S.SubtypeUnder
            (.expanding label' (S.resolve U) (S.resolve b)) U w)
    ∧ (∀ v ∈ variants, S.isSubtype a v = true →
        (label.isRecursive = true → ¬S.Returns a v a U) →
        S.isSubtype a U = true)
    ∧ ((∀ v ∈ variants, S.isSubtype v b = true
        ∧ (label.isRecursive = true → ¬S.Returns v b U b)) →
        S.isSubtype U b = true) := by
  have hlinked := hs.linked heval (by simp [ha, hb, hU]) hclosed
  have ha' : S.Reaches [a, b, U] a := .start (by simp)
  have hb' : S.Reaches [a, b, U] b := .start (by simp)
  have hU' : S.Reaches [a, b, U] U := .start (by simp)
  have hright := hlinked.isSubtype_union_iff hU' hunion ha'
  have hleft := hlinked.union_isSubtype_iff hU' hunion hb'
  refine ⟨hright, hleft, fun v hv hsub hreturns => ?_, fun hall => ?_⟩
  · have hvariant := Scope.subtypeUnder_expanding hsub hreturns
    exact hright.mpr (Or.inr (Or.inl ⟨v, hv, hvariant⟩))
  · refine hleft.mpr (Or.inr (Or.inr (Or.inl fun v hv => ?_)))
    exact Scope.subtypeUnder_expanding (hall v hv).1 (hall v hv).2

/-- Both laws fail for recursive unions. A struct `A` with a field of
type `A?` is a subtype of the variant `v` of `U`, and not of `U`; both
variants of `V` are subtypes of `A`, and `V` is not. The comparisons with
the variants come back to the ones with the unions. -/
theorem returns_of_recursive_union :
    let A : Ty := .struct (.recursive "A" 1)
      [("f", .union (.plain none) [.ref .struct "A" 1, .null])]
    let v : Ty := .struct (.plain none) [("f", .ref .union "U" 2)]
    let U : Ty := .union (.recursive "U" 2) [.null, v]
    let w (name : String) : Ty := .struct (.plain none)
      [("f", .union (.plain none) [.ref .union "V" 3, .null]),
        (name, .scalar .int)]
    let V : Ty := .union (.recursive "V" 3) [w "i", w "s"]
    let S : Scope := ⟨[A, U, V]⟩
    (S.isSubtype A v = true ∧ S.isSubtype A U = false ∧ S.Returns A v A U)
    ∧ (S.isSubtype (w "i") A = true ∧ S.isSubtype (w "s") A = true
      ∧ S.isSubtype V A = false
      ∧ (S.Returns (w "i") A V A ∨ S.Returns (w "s") A V A)) := by
  intro A v U w V S
  have heval : Session.empty.evalTypes
      [.defineStruct (some "A") [] [("f", .nullable (.self 0))],
        .defineUnion (some "U") [] [.null, .struct none [("f", .self 0)]],
        .defineUnion (some "V") []
          [.struct none [("f", .nullable (.self 0)), ("i", .scalar .int)],
            .struct none [("f", .nullable (.self 0)), ("s", .scalar .int)]]]
      = .ok ([A, U, V], S) := by cbv
  have hclosedU : S.Closed [A, A, U] := Scope.closed_of_parts (by decide)
  have hclosedV : S.Closed [A, A, V] := Scope.closed_of_parts (by decide)
  have hAv : S.isSubtype A v = true := by decide +kernel
  have hAU : S.isSubtype A U = false := by decide +kernel
  have hi : S.isSubtype (w "i") A = true := by decide +kernel
  have hs : S.isSubtype (w "s") A = true := by decide +kernel
  have hVA : S.isSubtype V A = false := by decide +kernel
  obtain ⟨-, -, htoU, -⟩ := Session.Reachable.empty.union_laws heval
    (a := A) (b := A) (U := U) (by simp) (by simp) (by simp) hclosedU rfl
  obtain ⟨-, -, -, hofV⟩ := Session.Reachable.empty.union_laws heval
    (a := A) (b := A) (U := V) (by simp) (by simp) (by simp) hclosedV rfl
  refine ⟨⟨hAv, hAU, ?_⟩, hi, hs, hVA, ?_⟩
  · by_contra hreturns
    have hsub := htoU v (by simp) hAv fun _ => hreturns
    rw [hAU] at hsub
    cases hsub
  · by_contra hreturns
    have hsub := hofV fun x hx => by
      simp only [List.mem_cons, List.not_mem_nil, or_false] at hx
      rcases hx with rfl | rfl
      · exact ⟨hi, fun _ h => hreturns (Or.inl h)⟩
      · exact ⟨hs, fun _ h => hreturns (Or.inr h)⟩
    rw [hVA] at hsub
    cases hsub

end Schemata
