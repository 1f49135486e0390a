import Mathlib
import Schemata.Proofs.Rounding

/-!
# What numbers stand for

A number stands for a rational number or for an infinity, or for nothing if
it is one of the patterns of floating point that are not numbers
(`Number.quantity?`). Two numbers are equal if and only if they are of one
kind and stand for the same (`Number.beq_iff`).

Equality does not go by the quantities. Patterns are compared bit by bit,
apart from the two zeros; they are known by what they stand for, so this
comes to the same. Decimals are compared by scaling the one with fewer
digits behind the point, unless the other one is too small for that.
-/

namespace Schemata

/-- What a number stands for. -/
inductive Quantity where
  | finite (q : ℚ)
  | infinite (negative : Bool)

theorem cast_signed (negative : Bool) (n : Nat) :
    ((signed negative n : Int) : ℚ) = if negative then -(n : ℚ) else n := by
  cases negative <;> simp [signed]

theorem signed_div_eq (negative : Bool) {m n : Nat} {a b : ℚ}
    (h : (m : ℚ) / a = n / b) :
    (signed negative m : ℚ) / a = signed negative n / b := by
  rw [cast_signed, cast_signed]
  cases negative with
  | false => exact h
  | true => rw [if_pos rfl, if_pos rfl, neg_div, neg_div, h]

theorem Quantity.same_finite_iff {p q : ℚ} :
    (∃ r, some (finite p) = some r ∧ some (finite q) = some r) ↔ p = q := by
  constructor
  · rintro ⟨r, hp, hq⟩
    exact finite.inj (Option.some.inj (hp.trans hq.symm))
  · rintro rfl
    exact ⟨_, rfl, rfl⟩

/-! ## Floating point -/

namespace Binary

variable {f : Format} {x y : Binary f}

def quantity? (x : Binary f) : Option Quantity :=
  match x.reading with
  | .notNumber => none
  | .infinite negative => some (.infinite negative)
  | .finite negative significand shift =>
    some (.finite
      (signed negative (significand * twoPow shift) / 2 ^ f.places))

theorem IsUnits.quantity {negative : Bool} {units : Nat}
    (h : x.IsUnits negative units) :
    x.quantity? = some (.finite (signed negative units / 2 ^ f.places)) := by
  obtain ⟨c, s, hreading, hvalue⟩ := h.reading
  rw [quantity?, hreading]
  simp only [twoPow_eq s, hvalue]

theorem reading_infinite (h : x.magnitude = f.infinity) :
    x.reading = .infinite x.negative := by
  rw [reading, if_neg (by omega), if_pos h]

theorem quantity_infinite (h : x.magnitude = f.infinity) :
    x.quantity? = some (.infinite x.negative) := by
  rw [quantity?, reading_infinite h]

theorem reading_notNumber (h : f.infinity < x.magnitude) :
    x.reading = .notNumber := by
  rw [reading, if_neg (by omega), if_neg (by omega)]

theorem quantity_notNumber (h : f.infinity < x.magnitude) :
    x.quantity? = none := by
  rw [quantity?, reading_notNumber h]

theorem isSome_quantity_iff :
    x.quantity?.isSome = true ↔ x.magnitude ≤ f.infinity := by
  rcases Nat.lt_trichotomy x.magnitude f.infinity with h | h | h
  · simp [(isUnits_self h).quantity, Nat.le_of_lt h]
  · simp [quantity_infinite h, Nat.le_of_eq h]
  · simp [quantity_notNumber h, h]

/-- Only finite patterns stand for a rational number. -/
theorem exists_isUnits {q : ℚ} (h : x.quantity? = some (.finite q)) :
    ∃ negative units, x.IsUnits negative units
      ∧ q = signed negative units / 2 ^ f.places := by
  rcases Nat.lt_trichotomy x.magnitude f.infinity with hx | hx | hx
  · refine ⟨_, _, isUnits_self hx, ?_⟩
    rw [(isUnits_self hx).quantity] at h
    exact (Quantity.finite.inj (Option.some.inj h)).symm
  · rw [quantity_infinite hx] at h
    cases h
  · rw [quantity_notNumber hx] at h
    cases h

/-- The pattern of no units, without its sign. -/
theorem IsUnits.magnitude_eq_zero {negative : Bool} (h : x.IsUnits negative 0) :
    x.magnitude = 0 := by
  obtain ⟨hcanonical, heq⟩ := canonical_magnitude f x.magnitude
  have hpos := Nat.two_pow_pos (shift f x.magnitude)
  have hc : significand f x.magnitude = 0 :=
    (Nat.mul_eq_zero.mp h.value).resolve_right hpos.ne'
  rw [heq, hc]
  rcases hcanonical.full with hs | hfull
  · rw [hs, Nat.zero_mul]
  · rw [hc] at hfull
    exact absurd hfull (Nat.not_le.mpr (Nat.two_pow_pos _))

theorem signed_inj {p q : Bool} {m n : Nat} (h : signed p m = signed q n) :
    m = n ∧ (p = q ∨ m = 0) := by
  unfold signed at h
  cases p <;> cases q <;> simp at h ⊢ <;> omega

/-- Finite numbers with one value have the same pattern, or both are
zero. -/
theorem eq_or_zero_of_finite (hx : x.magnitude < f.infinity)
    (hy : y.magnitude < f.infinity) (h : x.quantity? = y.quantity?) :
    x = y ∨ (x.magnitude = 0 ∧ y.magnitude = 0) := by
  have hux := isUnits_self hx
  have huy := isUnits_self hy
  rw [hux.quantity, huy.quantity, Option.some_inj, Quantity.finite.injEq,
    div_left_inj' (by positivity), Int.cast_inj] at h
  obtain ⟨hunits, hsign⟩ := signed_inj h
  rw [← hunits] at huy
  rcases hsign with hsign | hzero
  · exact Or.inl (hux.unique (hsign ▸ huy))
  · rw [hzero] at hux huy
    exact Or.inr ⟨hux.magnitude_eq_zero, huy.magnitude_eq_zero⟩

theorem quantity_zero (h : x.magnitude = 0) :
    x.quantity? = some (.finite 0) := by
  have hfinite : x.magnitude < f.infinity := by
    rw [h]
    cases f <;> decide
  have hunits : x.IsUnits x.negative 0 :=
    ⟨rfl, hfinite, by simp [h, significand_eq]⟩
  rw [hunits.quantity, signed]
  cases x.negative <;> simp

theorem eq_of_quantity_infinite (hx : x.magnitude = f.infinity)
    (hy : y.magnitude = f.infinity) (h : x.quantity? = y.quantity?) :
    x = y := by
  rw [quantity_infinite hx, quantity_infinite hy, Option.some_inj,
    Quantity.infinite.injEq] at h
  rw [← x.ofMagnitude_magnitude, ← y.ofMagnitude_magnitude, hx, hy, h]

theorem quantity_ne (hx : x.magnitude < f.infinity)
    (hy : y.magnitude = f.infinity) : x.quantity? ≠ y.quantity? := by
  rw [(isUnits_self hx).quantity, quantity_infinite hy]
  simp

theorem beq_iff_bits : (x == y) = true ↔
    (x.magnitude ≤ f.infinity ∧ y.magnitude ≤ f.infinity)
      ∧ (x.bits = y.bits ∨ (x.magnitude = 0 ∧ y.magnitude = 0)) := by
  show x.beq y = true ↔ _
  simp [Binary.beq]

/-- Patterns are equal if they stand for the same number. -/
theorem beq_iff : (x == y) = true ↔
    ∃ q, x.quantity? = some q ∧ y.quantity? = some q := by
  rw [beq_iff_bits]
  constructor
  · rintro ⟨⟨hx, -⟩, hbits | ⟨hzerox, hzeroy⟩⟩
    · have heq : x = y := by
        cases x
        cases y
        exact congrArg Binary.mk hbits
      obtain ⟨q, hq⟩ :=
        Option.isSome_iff_exists.mp (isSome_quantity_iff.mpr hx)
      exact ⟨q, hq, heq ▸ hq⟩
    · exact ⟨.finite 0, quantity_zero hzerox, quantity_zero hzeroy⟩
  · rintro ⟨q, hqx, hqy⟩
    have hx := isSome_quantity_iff.mp (Option.isSome_of_eq_some hqx)
    have hy := isSome_quantity_iff.mp (Option.isSome_of_eq_some hqy)
    have heq := hqx.trans hqy.symm
    refine ⟨⟨hx, hy⟩, ?_⟩
    rcases Nat.lt_or_eq_of_le hx with hx | hx
    · rcases Nat.lt_or_eq_of_le hy with hy | hy
      · exact (eq_or_zero_of_finite hx hy heq).imp_left (congrArg bits)
      · exact absurd heq (quantity_ne hx hy)
    · rcases Nat.lt_or_eq_of_le hy with hy | hy
      · exact absurd heq.symm (quantity_ne hy hx)
      · exact Or.inl (congrArg bits (eq_of_quantity_infinite hx hy heq))

end Binary

/-! ## Decimals -/

theorem tenPow_eq (n : Nat) : tenPow n = 10 ^ n := rfl

theorem ten_pow_pos (n : Nat) : 0 < 10 ^ n := Nat.pow_pos (by decide)

namespace Decimal

def toRat (d : Decimal) : ℚ := d.unscaled / 10 ^ d.scale.toInt

theorem toRat_of_nonneg {d : Decimal} {scale : Nat}
    (h : d.scale.toInt = scale) :
    d.toRat = d.unscaled / (10 ^ scale : Nat) := by
  rw [toRat, h, zpow_natCast, Nat.cast_pow, Nat.cast_ofNat]

theorem toRat_of_neg {d : Decimal} {zeros : Nat}
    (h : d.scale.toInt = -zeros) :
    d.toRat = (d.unscaled * 10 ^ zeros : Int) := by
  rw [toRat, h, zpow_neg, zpow_natCast, div_inv_eq_mul, Int.cast_mul,
    Int.cast_pow, Int.cast_ofNat]

/-- A power that is left out would have been too large. -/
theorem scaledEq_iff {m n : Int} {gap : Nat} (hm : m ≠ 0) :
    scaledEq m gap n = true ↔ m * 10 ^ gap = n := by
  have hpow : ((tenPow gap : Nat) : Int) = 10 ^ gap := by
    rw [tenPow_eq, Nat.cast_pow, Nat.cast_ofNat]
  rw [scaledEq, Bool.and_eq_true, decide_eq_true_iff, beq_iff_eq, hpow]
  refine and_iff_right_of_imp ?_
  rintro rfl
  have hne : (m * 10 ^ gap).natAbs ≠ 0 :=
    Int.natAbs_ne_zero.mpr (mul_ne_zero hm (by positivity))
  have hpos : 1 ≤ m.natAbs :=
    Nat.one_le_iff_ne_zero.mpr (Int.natAbs_ne_zero.mpr hm)
  rw [Nat.le_log2 hne, Int.natAbs_mul, Int.natAbs_pow]
  calc 2 ^ gap ≤ 10 ^ gap := Nat.pow_le_pow_left (by omega) gap
    _ = 1 * 10 ^ gap := (Nat.one_mul _).symm
    _ ≤ m.natAbs * 10 ^ gap := Nat.mul_le_mul_right _ hpos

/-- One decimal has as many digits behind the point as the other, and
`gap` more. -/
theorem toRat_eq_iff {a b : Decimal} {gap : Nat}
    (h : b.scale.toInt = a.scale.toInt + gap) :
    a.toRat = b.toRat ↔ a.unscaled * 10 ^ gap = b.unscaled := by
  have hten : (10 : ℚ) ≠ 0 := by norm_num
  have hpow : (10 : ℚ) ^ a.scale.toInt ≠ 0 := zpow_ne_zero _ hten
  rw [toRat, toRat, h, zpow_add₀ hten, zpow_natCast, ← div_div,
    eq_div_iff (by positivity), div_mul_eq_mul_div, div_left_inj' hpow]
  norm_cast

theorem toRat_eq_zero_iff {d : Decimal} : d.toRat = 0 ↔ d.unscaled = 0 := by
  have hpow : (10 : ℚ) ^ d.scale.toInt ≠ 0 := zpow_ne_zero _ (by norm_num)
  rw [toRat, div_eq_zero_iff, or_iff_left hpow, Int.cast_eq_zero]

/-- Decimals are equal if they stand for the same number. -/
theorem beq_iff {a b : Decimal} : (a == b) = true ↔ a.toRat = b.toRat := by
  show a.beq b = true ↔ _
  unfold Decimal.beq
  by_cases hzero : a.unscaled = 0 ∨ b.unscaled = 0
  · simp only [if_pos hzero, beq_iff_eq]
    rcases hzero with hzero | hzero
    · rw [hzero, toRat_eq_zero_iff.mpr hzero, eq_comm, eq_comm (a := (0 : ℚ)),
        toRat_eq_zero_iff]
    · rw [hzero, toRat_eq_zero_iff.mpr hzero, toRat_eq_zero_iff]
  · obtain ⟨ha, hb⟩ := not_or.mp hzero
    simp only [if_neg hzero]
    split
    · next hgap =>
        have hscale : b.scale.toInt = a.scale.toInt
            + (b.scale.toInt - a.scale.toInt).toNat := by omega
        rw [scaledEq_iff ha, toRat_eq_iff hscale]
    · next hgap =>
        have hscale : a.scale.toInt = b.scale.toInt
            + (-(b.scale.toInt - a.scale.toInt)).toNat := by omega
        rw [scaledEq_iff hb, eq_comm (a := a.toRat), toRat_eq_iff hscale]

end Decimal

/-! ## All kinds -/

namespace Number

def quantity? : Number → Option Quantity
  | .tinyInt n => some (.finite n.toInt)
  | .smallInt n => some (.finite n.toInt)
  | .int n => some (.finite n.toInt)
  | .bigInt n => some (.finite n.toInt)
  | .float x => x.quantity?
  | .double x => x.quantity?
  | .decimal d => some (.finite d.toRat)

theorem kind_eq_of_beq {m n : Number} (h : (m == n) = true) :
    m.kind = n.kind := by
  have hbeq : m.beq n = true := h
  unfold Number.beq at hbeq
  split at hbeq
  case h_8 => cases hbeq
  all_goals rfl

/-- Numbers are equal if they are of one kind and stand for the same. -/
theorem beq_iff {m n : Number} : (m == n) = true ↔
    m.kind = n.kind ∧ ∃ q, m.quantity? = some q ∧ n.quantity? = some q := by
  by_cases hkind : m.kind = n.kind
  · rw [and_iff_right hkind]
    cases m with
    | tinyInt a =>
        cases n with
        | tinyInt b =>
            show (a == b) = true ↔ _
            rw [beq_iff_eq, quantity?, quantity?, Quantity.same_finite_iff,
              Int.cast_inj, Int8.toInt_inj]
        | _ => cases hkind
    | smallInt a =>
        cases n with
        | smallInt b =>
            show (a == b) = true ↔ _
            rw [beq_iff_eq, quantity?, quantity?, Quantity.same_finite_iff,
              Int.cast_inj, Int16.toInt_inj]
        | _ => cases hkind
    | int a =>
        cases n with
        | int b =>
            show (a == b) = true ↔ _
            rw [beq_iff_eq, quantity?, quantity?, Quantity.same_finite_iff,
              Int.cast_inj, Int32.toInt_inj]
        | _ => cases hkind
    | bigInt a =>
        cases n with
        | bigInt b =>
            show (a == b) = true ↔ _
            rw [beq_iff_eq, quantity?, quantity?, Quantity.same_finite_iff,
              Int.cast_inj, Int64.toInt_inj]
        | _ => cases hkind
    | float x =>
        cases n with
        | float y => exact Binary.beq_iff
        | _ => cases hkind
    | double x =>
        cases n with
        | double y => exact Binary.beq_iff
        | _ => cases hkind
    | decimal d =>
        cases n with
        | decimal e =>
            exact Decimal.beq_iff.trans Quantity.same_finite_iff.symm
        | _ => cases hkind
  · exact iff_of_false (fun h => hkind (kind_eq_of_beq h)) fun h => hkind h.1

end Number

end Schemata
