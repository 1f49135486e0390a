import Mathlib
import Schemata.Proofs.Hashing

/-!
# The algebra of unions

`Ty.unionOf` is commutative, associative and idempotent up to `==`
(`Ty.Constructible.unionOf_laws`). It is not so for trivial reasons. An
anonymous union stands for its variants and a named one for itself, although
the two may be equal; and of equal variants the first is kept, so the order
of the operands decides which one that is.

What does not depend on the order is which types are *found* among the
variants, up to `==` (`Ty.FoundIn`). Lists in which the same types are found
are left with the same variants once they are distinct
(`SameTypes.sameVariants`). That their lengths agree is where well-formed
types are needed: distinct types are found at distinct places
(`FoundIn.length_le`), for which equality has to be symmetric.
-/

namespace Schemata

namespace Ty

variable {a b c : Ty} {vs ws xs ys : List Ty}

/-! ## Types found in a list -/

/-- Each of the first types equals one of the second. -/
def FoundIn (vs ws : List Ty) : Prop := ∀ v ∈ vs, ∃ w ∈ ws, (v == w) = true

theorem foundIn_of_subset (h : ∀ v ∈ vs, v ∈ ws) : FoundIn vs ws :=
  fun v hv => ⟨v, h v hv, beq_self v⟩

theorem FoundIn.trans (h : FoundIn vs ws) (h' : FoundIn ws xs) :
    FoundIn vs xs := by
  intro v hv
  obtain ⟨w, hw, hvw⟩ := h v hv
  obtain ⟨x, hx, hwx⟩ := h' w hw
  exact ⟨x, hx, beq_trans hvw hwx⟩

theorem FoundIn.append (h : FoundIn vs ws) (h' : FoundIn xs ys) :
    FoundIn (vs ++ xs) (ws ++ ys) := by
  intro t ht
  rcases List.mem_append.mp ht with ht | ht
  · obtain ⟨w, hw, htw⟩ := h t ht
    exact ⟨w, List.mem_append_left _ hw, htw⟩
  · obtain ⟨y, hy, hty⟩ := h' t ht
    exact ⟨y, List.mem_append_right _ hy, hty⟩

theorem foundIn_distinct (ts : List Ty) : FoundIn ts (distinct ts) :=
  fun _ ht => exists_mem_distinct ht

theorem distinct_foundIn (ts : List Ty) : FoundIn (distinct ts) ts :=
  foundIn_of_subset fun _ => mem_of_mem_distinct

/-- Distinct types are found at distinct places. -/
theorem FoundIn.length_le (hd : vs.Pairwise fun v w => (w == v) = false)
    (hvs : ∀ v ∈ vs, v.WellFormed) (h : FoundIn vs ws) :
    vs.length ≤ ws.length := by
  choose place hmem hfound using h
  have hnodup : (vs.pmap place fun _ hv => hv).Nodup := by
    refine hd.pmap _ fun v hv w hw hne heq => ?_
    have hback := beq_symm (hvs v hv) (hfound v hv)
    rw [heq] at hback
    rw [beq_trans (hfound w hw) hback] at hne
    cases hne
  have hsub : vs.pmap place (fun _ hv => hv) ⊆ ws := by
    intro t ht
    obtain ⟨v, hv, rfl⟩ := List.mem_pmap.mp ht
    exact hmem v hv
  simpa using (hnodup.subperm hsub).length_le

theorem FoundIn.length_distinct_le (hvs : ∀ v ∈ vs, v.WellFormed)
    (h : FoundIn vs ws) : (distinct vs).length ≤ (distinct ws).length := by
  have hfound : FoundIn (distinct vs) (distinct ws) :=
    ((distinct_foundIn vs).trans h).trans (foundIn_distinct ws)
  refine hfound.length_le (distinct_pairwise vs) fun v hv => ?_
  exact hvs v (mem_of_mem_distinct hv)

/-- The same types are found in both lists. -/
structure SameTypes (vs ws : List Ty) : Prop where
  found : FoundIn vs ws
  back : FoundIn ws vs

namespace SameTypes

theorem of_mem_iff (h : ∀ t, t ∈ vs ↔ t ∈ ws) : SameTypes vs ws :=
  ⟨foundIn_of_subset fun t => (h t).mp, foundIn_of_subset fun t => (h t).mpr⟩

theorem refl (vs : List Ty) : SameTypes vs vs := of_mem_iff fun _ => Iff.rfl

theorem symm (h : SameTypes vs ws) : SameTypes ws vs := ⟨h.back, h.found⟩

theorem trans (h : SameTypes vs ws) (h' : SameTypes ws xs) : SameTypes vs xs :=
  ⟨h.found.trans h'.found, h'.back.trans h.back⟩

theorem append (h : SameTypes vs ws) (h' : SameTypes xs ys) :
    SameTypes (vs ++ xs) (ws ++ ys) :=
  ⟨h.found.append h'.found, h.back.append h'.back⟩

theorem distinct (ts : List Ty) : SameTypes (distinct ts) ts :=
  ⟨distinct_foundIn ts, foundIn_distinct ts⟩

/-- Only as distinct variants they have to be as many. -/
theorem sameVariants (hvs : ∀ v ∈ vs, v.WellFormed)
    (hws : ∀ w ∈ ws, w.WellFormed) (h : SameTypes vs ws) :
    SameVariants (Ty.distinct vs) (Ty.distinct ws) := by
  have hle := h.found.length_distinct_le hvs
  have hge := h.back.length_distinct_le hws
  refine ⟨Nat.le_antisymm hle hge, ?_⟩
  exact ((distinct_foundIn vs).trans h.found).trans (foundIn_distinct ws)

end SameTypes

theorem distinct_eq_self (hd : vs.Pairwise fun v w => (w == v) = false) :
    distinct vs = vs :=
  foldl_addDistinct_eq [] hd

/-! ## Operands -/

/-- A union that stands for its variants where it is an operand. -/
def isAnonymousUnion : Ty → Bool
  | .union (.plain none) _ => true
  | _ => false

theorem flattened_of_not_anonymous (h : a.isAnonymousUnion = false) :
    a.flattened = [a] := by
  unfold flattened
  split
  · cases h
  · rfl

theorem WellFormed.flattened (h : a.WellFormed) :
    ∀ v ∈ a.flattened, v.WellFormed := by
  intro v hv
  rcases mem_flattened hv with rfl | hv
  · exact h
  · exact h.component hv

/-- The variants that the union of two types has, if they are enough. -/
def joined (a b : Ty) : List Ty := distinct (a.flattened ++ b.flattened)

theorem unionOf_of_lt (h : (joined a b).length < Limit.unionVariants) :
    unionOf a b = .error (.unionArity (joined a b).length) := by
  unfold joined at h ⊢
  rw [unionOf, unionOfList, checkedVariants, if_pos h]
  rfl

theorem unionOf_of_le (h : Limit.unionVariants ≤ (joined a b).length) :
    unionOf a b = .ok (.union (.plain none) (joined a b)) := by
  unfold joined at h ⊢
  rw [unionOf, unionOfList, checkedVariants, if_neg (Nat.not_lt.mpr h)]
  rfl

theorem unionOf_ok {u : Ty} (h : unionOf a b = .ok u) :
    Limit.unionVariants ≤ (joined a b).length
      ∧ u = .union (.plain none) (joined a b) := by
  by_cases hlt : (joined a b).length < Limit.unionVariants
  · rw [unionOf_of_lt hlt] at h
    cases h
  · have hle := Nat.le_of_not_lt hlt
    rw [unionOf_of_le hle] at h
    exact ⟨hle, (Except.ok.inj h).symm⟩

theorem unionOf_error_iff {e : Error} :
    unionOf a b = .error e ↔ (joined a b).length < Limit.unionVariants
      ∧ e = .unionArity (joined a b).length := by
  by_cases hlt : (joined a b).length < Limit.unionVariants
  · rw [unionOf_of_lt hlt, Except.error.injEq, and_iff_right hlt, eq_comm]
  · rw [unionOf_of_le (Nat.le_of_not_lt hlt)]
    simp [hlt]

/-- Distinct variants of the operands remain distinct. -/
theorem length_le_joined (hd : vs.Pairwise fun v w => (w == v) = false)
    (hvs : ∀ v ∈ vs, v.WellFormed)
    (h : ∀ v ∈ vs, v ∈ a.flattened ++ b.flattened) :
    vs.length ≤ (joined a b).length :=
  ((foundIn_of_subset h).trans (foundIn_distinct _)).length_le hd hvs

theorem length_flattened_le_joined (ha : a.WellFormed) :
    a.flattened.length ≤ (joined a b).length :=
  length_le_joined (Scope.flattened_pairwise ha.regular).1 ha.flattened
    fun _ => List.mem_append_left _

theorem length_flattened_le_joined_right (hb : b.WellFormed) :
    b.flattened.length ≤ (joined a b).length :=
  length_le_joined (Scope.flattened_pairwise hb.regular).1 hb.flattened
    fun _ => List.mem_append_right _

theorem unionVariants_le_flattened (ha : a.WellFormed)
    (h : a.isAnonymousUnion = true) :
    Limit.unionVariants ≤ a.flattened.length := by
  unfold isAnonymousUnion at h
  split at h
  · exact ha.regular.1
  · cases h

/-- Two operands are not enough for a union exactly if they are equal and
both stand for themselves. -/
theorem length_joined_lt_iff (ha : a.WellFormed) (hb : b.WellFormed) :
    (joined a b).length < Limit.unionVariants ↔
      (a == b) = true ∧ a.isAnonymousUnion = false
        ∧ b.isAnonymousUnion = false := by
  have hleft := length_flattened_le_joined ha (b := b)
  have hright := length_flattened_le_joined_right hb (a := a)
  cases hanon : a.isAnonymousUnion with
  | true =>
      have hle := unionVariants_le_flattened ha hanon
      simp only [Bool.true_eq_false, false_and, and_false, iff_false]
      omega
  | false =>
      cases hanon' : b.isAnonymousUnion with
      | true =>
          have hle := unionVariants_le_flattened hb hanon'
          simp only [Bool.true_eq_false, and_false, iff_false]
          omega
      | false =>
          have hjoined : joined a b = addDistinct [a] b := by
            rw [joined, flattened_of_not_anonymous hanon,
              flattened_of_not_anonymous hanon']
            rfl
          have hsymm : (a == b) = true ↔ (b == a) = true :=
            ⟨beq_symm ha, beq_symm hb⟩
          rw [hjoined, addDistinct, hsymm]
          by_cases heq : (b == a) = true
          · simp [heq, Limit.unionVariants]
          · simp [heq, Limit.unionVariants]

theorem length_joined_pos (ha : a.WellFormed) : 1 ≤ (joined a b).length :=
  Nat.le_trans (Scope.flattened_pairwise ha.regular).2
    (length_flattened_le_joined ha)

theorem wellFormed_of_mem_joined (ha : a.WellFormed) (hb : b.WellFormed) :
    ∀ v ∈ joined a b, v.WellFormed := by
  intro v hv
  rcases List.mem_append.mp (mem_of_mem_distinct hv) with hv | hv
  · exact ha.flattened v hv
  · exact hb.flattened v hv

/-! ## Laws -/

theorem joined_comm (ha : a.WellFormed) (hb : b.WellFormed) :
    SameVariants (joined a b) (joined b a) := by
  refine SameTypes.sameVariants
    (List.forall_mem_append.mpr ⟨ha.flattened, hb.flattened⟩)
    (List.forall_mem_append.mpr ⟨hb.flattened, ha.flattened⟩) ?_
  exact .of_mem_iff fun _ => List.perm_append_comm.mem_iff

theorem joined_assoc (ha : a.WellFormed) (hb : b.WellFormed)
    (hc : c.WellFormed) :
    SameVariants (joined (.union (.plain none) (joined a b)) c)
      (joined a (.union (.plain none) (joined b c))) := by
  refine SameTypes.sameVariants
    (List.forall_mem_append.mpr
      ⟨wellFormed_of_mem_joined ha hb, hc.flattened⟩)
    (List.forall_mem_append.mpr
      ⟨ha.flattened, wellFormed_of_mem_joined hb hc⟩) ?_
  -- both are the variants of all three types
  have hleft : SameTypes (joined a b ++ c.flattened)
      (a.flattened ++ b.flattened ++ c.flattened) :=
    (SameTypes.distinct _).append (.refl _)
  have hright : SameTypes (a.flattened ++ joined b c)
      (a.flattened ++ (b.flattened ++ c.flattened)) :=
    (SameTypes.refl _).append (.distinct _)
  rw [List.append_assoc] at hleft
  exact hleft.trans hright.symm

theorem joined_self (ha : a.WellFormed) :
    SameVariants (joined a a) a.flattened := by
  have hsame : SameTypes (a.flattened ++ a.flattened) a.flattened :=
    .of_mem_iff fun t => by simp
  have hvariants := hsame.sameVariants
    (List.forall_mem_append.mpr ⟨ha.flattened, ha.flattened⟩) ha.flattened
  rwa [distinct_eq_self (Scope.flattened_pairwise ha.regular).1] at hvariants

theorem union_beq_of_sameVariants (h : SameVariants vs ws) :
    (Ty.union (.plain none) vs == .union (.plain none) ws) = true :=
  union_beq_iff.mpr ⟨none, ws, rfl, h⟩

theorem unionOf_comm (ha : a.WellFormed) (hb : b.WellFormed) :
    ((∃ e, unionOf a b = .error e) ∧ ∃ e, unionOf b a = .error e)
      ∨ ∃ l r, unionOf a b = .ok l ∧ unionOf b a = .ok r
        ∧ (l == r) = true := by
  have hsame := joined_comm ha hb
  by_cases hlt : (joined a b).length < Limit.unionVariants
  · exact Or.inl ⟨⟨_, unionOf_of_lt hlt⟩, _, unionOf_of_lt (hsame.1 ▸ hlt)⟩
  · have hle := Nat.le_of_not_lt hlt
    exact Or.inr ⟨_, _, unionOf_of_le hle, unionOf_of_le (hsame.1 ▸ hle),
      union_beq_of_sameVariants hsame⟩

theorem unionOf_assoc (ha : a.WellFormed) (hb : b.WellFormed)
    (hc : c.WellFormed) {ab bc : Ty} (hab : unionOf a b = .ok ab)
    (hbc : unionOf b c = .ok bc) :
    ∃ l r, unionOf ab c = .ok l ∧ unionOf a bc = .ok r
      ∧ (l == r) = true := by
  obtain ⟨hleft, rfl⟩ := unionOf_ok hab
  obtain ⟨-, rfl⟩ := unionOf_ok hbc
  have hsame := joined_assoc ha hb hc
  have hle := Nat.le_trans hleft <|
    length_le_joined (a := .union (.plain none) (joined a b)) (b := c)
      (distinct_pairwise _) (wellFormed_of_mem_joined ha hb)
      fun _ => List.mem_append_left _
  exact ⟨_, _, unionOf_of_le hle, unionOf_of_le (hsame.1 ▸ hle),
    union_beq_of_sameVariants hsame⟩

theorem unionOf_self (ha : a.WellFormed) (h : a.isAnonymousUnion = true) :
    ∃ u, unionOf a a = .ok u ∧ (u == a) = true := by
  have hle := Nat.le_trans (unionVariants_le_flattened ha h)
    (length_flattened_le_joined ha (b := a))
  refine ⟨_, unionOf_of_le hle, ?_⟩
  have hsame := joined_self ha
  unfold isAnonymousUnion at h
  split at h
  · exact union_beq_of_sameVariants hsame
  · cases h

end Ty

/-! ## Null -/

theorem Scope.nullable_eq {S : Scope} {t : Ty}
    (h : S.isNullable t = false) :
    S.nullable t = .union (.plain none) (Ty.joined t .null) := by
  rw [nullable, h]
  rfl

/-- Null is added once, whatever can be followed when it is asked for
again. -/
theorem Scope.nullable_of_not_nullable {S : Scope} {t : Ty}
    (h : S.isNullable t = false) (S' : Scope) :
    S'.nullable (S.nullable t) = S.nullable t := by
  have hnull : (Ty.joined t .null).any Ty.isNull = true := by
    obtain ⟨k, hk, hbeq⟩ := Ty.exists_mem_distinct
      (List.mem_append_right t.flattened (List.mem_singleton.mpr rfl))
    obtain rfl := Ty.null_beq_iff.mp hbeq
    exact List.any_eq_true.mpr ⟨_, hk, rfl⟩
  rw [nullable_eq h]
  simp [nullable, isNullable, resolve, hnull]

theorem Scope.nullable_of_nullable {S : Scope} {t : Ty}
    (h : S.isNullable t = true) : S.nullable t = t := by
  simp [nullable, h]

theorem Scope.nullable_nullable (S : Scope) (t : Ty) :
    S.nullable (S.nullable t) = S.nullable t := by
  cases h : S.isNullable t with
  | true => rw [nullable_of_nullable h, nullable_of_nullable h]
  | false => exact nullable_of_not_nullable h S

/-- Also if the type has been given up for the result when the result is
made nullable. -/
theorem Context.nullable_nullable (Γ : Context) (t : Ty) :
    let n := (Γ.scope [t]).nullable t
    (Γ.scope [n]).nullable n = n := by
  cases h : (Γ.scope [t]).isNullable t with
  | true =>
      rw [Scope.nullable_of_nullable h]
      exact Scope.nullable_of_nullable h
  | false => exact Scope.nullable_of_not_nullable h _

/-! ## Constructible types -/

namespace Ty

/-- The union of two types fails exactly if they are equal and neither is an
anonymous union, and then because one variant is not enough. Otherwise it
does not depend on the order of the operands, nor on how three of them are
grouped, and an anonymous union absorbs itself. A type becomes nullable
once. -/
theorem Constructible.unionOf_laws {a b c : Ty} (ha : a.Constructible)
    (hb : b.Constructible) (hc : c.Constructible) :
    ((∃ e, unionOf a b = .error e) ↔ (a == b) = true
      ∧ a.isAnonymousUnion = false ∧ b.isAnonymousUnion = false)
    ∧ (∀ e, unionOf a b = .error e → e = .unionArity 1)
    ∧ (((∃ e, unionOf a b = .error e) ∧ ∃ e, unionOf b a = .error e)
      ∨ ∃ l r, unionOf a b = .ok l ∧ unionOf b a = .ok r ∧ (l == r) = true)
    ∧ (∀ ab bc, unionOf a b = .ok ab → unionOf b c = .ok bc →
      ∃ l r, unionOf ab c = .ok l ∧ unionOf a bc = .ok r ∧ (l == r) = true)
    ∧ (a.isAnonymousUnion = true →
      ∃ u, unionOf a a = .ok u ∧ (u == a) = true)
    ∧ (∀ S : Scope, (S.nullable (S.nullable a) == S.nullable a) = true)
    ∧ ∀ (Γ : Context) (e : TypeExpr), TypeExpr.eval Γ e = .ok a →
      ∃ n n', TypeExpr.eval Γ (.nullable e) = .ok n
        ∧ TypeExpr.eval Γ (.nullable (.nullable e)) = .ok n'
        ∧ (n' == n) = true := by
  have hwa := ha.wellFormed
  have hwb := hb.wellFormed
  refine ⟨?_, ?_, unionOf_comm hwa hwb, ?_, unionOf_self hwa, ?_, ?_⟩
  · rw [← length_joined_lt_iff hwa hwb]
    constructor
    · rintro ⟨e, he⟩
      exact (unionOf_error_iff.mp he).1
    · exact fun hlt => ⟨_, unionOf_of_lt hlt⟩
  · intro e he
    obtain ⟨hlt, rfl⟩ := unionOf_error_iff.mp he
    have hpos := length_joined_pos hwa (b := b)
    rw [Nat.le_antisymm (Nat.le_of_lt_succ hlt) hpos]
  · intro ab bc hab hbc
    exact unionOf_assoc hwa hwb hc.wellFormed hab hbc
  · intro S
    rw [S.nullable_nullable]
    exact beq_self _
  · intro Γ e he
    have hn : TypeExpr.eval Γ (.nullable e)
        = .ok ((Γ.scope [a]).nullable a) := by
      rw [TypeExpr.eval, he]
      rfl
    refine ⟨_, _, hn, ?_, beq_self _⟩
    rw [TypeExpr.eval, hn]
    exact congrArg Except.ok (Γ.nullable_nullable a)

/-- A named union and an anonymous one are equal, but they join differently;
the named one does not join with itself. A list, which refers to itself, is
kept as it is. -/
theorem Constructible.unionOf_named :
    let n : Ty := .union (.plain (some "N")) [.scalar .int, .scalar .string]
    let u : Ty := .union (.plain none) [.scalar .string, .scalar .int]
    let l : Ty := .struct (.recursive "L" 1)
      [("next", .union (.plain none) [.ref .struct "L" 1, .null])]
    (n == u) = true ∧ unionOf n n = .error (.unionArity 1)
    ∧ (∃ v w, unionOf n u = .ok v ∧ unionOf u n = .ok w ∧ (v == w) = true)
    ∧ (∃ v w x y, unionOf n u = .ok v ∧ unionOf u l = .ok w
      ∧ unionOf v l = .ok x ∧ unionOf n w = .ok y ∧ (x == y) = true)
    ∧ ∃ v, unionOf u u = .ok v ∧ (v == u) = true := by
  intro n u l
  have heval : TypeExpr.evalList Session.empty.context
      [.union (some "N") [.scalar .int, .scalar .string],
        .union none [.scalar .string, .scalar .int],
        .defineStruct (some "L") [] [("next", .nullable (.self 0))]]
      = .ok [n, u, l] := by cbv
  have hmade : ∀ t ∈ [n, u, l], t.Constructible :=
    fun t ht => Context.Arises.constructible (.session .empty) heval ht
  have hn := hmade n (by simp)
  have hu := hmade u (by simp)
  have hl := hmade l (by simp)
  have hnu : (n == u) = true := by cbv
  obtain ⟨v, hv⟩ : ∃ v, unionOf n u = .ok v := ⟨_, by cbv⟩
  obtain ⟨w, hw⟩ : ∃ w, unionOf u l = .ok w := ⟨_, by cbv⟩
  obtain ⟨hfails, harity, -⟩ := Constructible.unionOf_laws hn hn hl
  obtain ⟨-, -, hcomm, hassoc, -⟩ := Constructible.unionOf_laws hn hu hl
  obtain ⟨-, -, -, -, hself, -⟩ := Constructible.unionOf_laws hu hu hl
  refine ⟨hnu, ?_, ?_, ?_, hself rfl⟩
  · obtain ⟨e, he⟩ := hfails.mpr ⟨beq_self n, rfl, rfl⟩
    rw [he, harity e he]
  · refine hcomm.resolve_left ?_
    rintro ⟨⟨e, he⟩, -⟩
    rw [hv] at he
    cases he
  · obtain ⟨x, y, hx, hy, hxy⟩ := hassoc v w hv hw
    exact ⟨v, w, x, y, hv, hw, hx, hy, hxy⟩

end Ty

end Schemata
