import Mathlib
import Schemata.Proofs.Lossless
import Schemata.Proofs.Nearest

/-!
# Conversions to floating point

Whatever a number stands for, its conversion to a format gives the nearest
number of that format, rounded once (`Number.toBinary_nearest`).

Integers and floating point are quotients, and so are decimals, but powers of
ten are not computed when the number of digits in front of the point is out
of reach. Then the number is above every threshold of overflow or below half
of every least unit, so that rounding the quotient gives the same infinity or
zero (`Decimal.nearest_whole`, `Decimal.nearest_fraction`).

The exponent of a decimal is its scale negated as a word of 64 bits. There is
one scale that has no negative, and decimals with this scale are excepted.
-/

namespace Schemata

namespace Binary

variable {f : Format}

theorem ofRatio_of_overflow (negative : Bool) {num den : Nat} (hden : 0 < den)
    (h : f.overflow ≤ (num : ℚ) / den) :
    (ofRatio negative num den : Binary f) = infinite negative := by
  rw [← ofMagnitude_magnitude (ofRatio negative num den),
    ofRatio_infinite negative hden h, negative_ofRatio, infinite]

/-- Less than half a unit is rounded to zero. -/
theorem ofRatio_of_tiny (negative : Bool) {num den : Nat}
    (h : 2 * (num * 2 ^ f.places) < den) :
    (ofRatio negative num den : Binary f) = zero negative := by
  have hquotient : num * 2 ^ f.places / den = 0 := Nat.div_eq_of_lt (by omega)
  have hrounded : roundDiv (num * 2 ^ f.places) (den * 2 ^ 0) = 0 := by
    have hmod : num * 2 ^ f.places % den = num * 2 ^ f.places :=
      Nat.mod_eq_of_lt (by omega)
    unfold roundDiv
    simp only [pow_zero, mul_one, hquotient, hmod]
    rw [if_neg (by omega)]
  have hmagnitude : unboundedMagnitude f (num * 2 ^ f.places) den = 0 := by
    unfold unboundedMagnitude
    simp only [hquotient, Nat.log2_zero, Nat.zero_sub, Nat.zero_mul,
      Nat.zero_add, twoPow_eq, hrounded]
  rw [ofRatio, twoPow_eq, hmagnitude, Nat.min_zero, zero]

end Binary

/-! ## Decimals -/

namespace Decimal

open Binary

theorem digitCount_le_iff {n k : Nat} (hk : 0 < k) :
    digitCount n ≤ k ↔ n < 10 ^ k := by
  rw [← Nat.length_toDigits_le_iff (b := 10) (by omega) hk, digitCount,
    Nat.repr, String.length_ofList]

/-- Zeros behind the digits count as digits. -/
theorem digitCount_add_le_iff {n zeros p : Nat} (hn : n ≠ 0) :
    digitCount n + zeros ≤ p ↔ n * 10 ^ zeros < 10 ^ p := by
  have hpos : 0 < digitCount n := Nat.length_repr_pos
  rcases Nat.lt_or_ge zeros p with hlt | hge
  · have hsplit : 10 ^ p = 10 ^ (p - zeros) * 10 ^ zeros := by
      rw [← Nat.pow_add, Nat.sub_add_cancel hlt.le]
    rw [hsplit, Nat.mul_lt_mul_right (ten_pow_pos zeros),
      ← digitCount_le_iff (by omega)]
    omega
  · have hlarge : 10 ^ p ≤ n * 10 ^ zeros :=
      calc 10 ^ p ≤ 10 ^ zeros := Nat.pow_le_pow_right (by decide) hge
        _ ≤ n * 10 ^ zeros := Nat.le_mul_of_pos_left _ (Nat.pos_of_ne_zero hn)
    exact iff_of_false (by omega) (Nat.not_lt.mpr hlarge)

theorem two_pow_le_ten_pow {k m : Nat} (hk : k ≤ 3 * m) : 2 ^ k ≤ 10 ^ m :=
  calc 2 ^ k ≤ 2 ^ (3 * m) := Nat.pow_le_pow_right (by decide) hk
    _ = 8 ^ m := Nat.pow_mul 2 3 m
    _ ≤ 10 ^ m := Nat.pow_le_pow_left (by decide) m

variable {f : Format} {digits : Nat}

theorem nearest_zero (negative : Bool) (exponent : Int) :
    (nearest negative 0 exponent : Binary f) = .zero false :=
  if_pos rfl

theorem overflow_le (f : Format) : f.overflow ≤ (10 ^ 400 : Nat) := by
  have hpow : ∀ k, k ≤ 3 * 400 → (2 : ℚ) ^ k ≤ (10 ^ 400 : Nat) := by
    intro k hk
    exact_mod_cast two_pow_le_ten_pow hk
  cases f with
  | single =>
      exact (sub_le_self _ (by positivity)).trans (hpow 128 (by decide))
  | double =>
      exact (sub_le_self _ (by positivity)).trans (hpow 1024 (by decide))

theorem nearest_whole (negative : Bool) (hdigits : digits ≠ 0) (zeros : Nat) :
    (nearest negative digits zeros : Binary f)
      = .ofRatio negative (digits * 10 ^ zeros) 1 := by
  unfold nearest exponentReach
  rw [if_neg hdigits]
  by_cases hreach : 400 < digitCount digits + zeros
  · have hlarge : 10 ^ 400 ≤ digits * 10 ^ zeros := by
      rw [← not_lt, ← digitCount_add_le_iff hdigits]
      exact not_le.mpr hreach
    rw [if_pos (by omega)]
    refine (ofRatio_of_overflow negative Nat.one_pos ?_).symm
    rw [Nat.cast_one, div_one]
    exact (overflow_le f).trans (Nat.cast_le.mpr hlarge)
  · rw [if_neg (by omega), if_neg (by omega)]
    rfl

/-- Few digits behind many zeros are less than half a unit. -/
theorem below_half_unit {places reach : Nat}
    (hunit : 2 * 2 ^ f.places ≤ 10 ^ reach)
    (hplaces : digitCount digits + reach ≤ places) :
    2 * (digits * 2 ^ f.places) < 10 ^ places := by
  have hfew : digits < 10 ^ digitCount digits :=
    (digitCount_le_iff Nat.length_repr_pos).mp (Nat.le_refl _)
  calc 2 * (digits * 2 ^ f.places) = digits * (2 * 2 ^ f.places) := by ring
    _ ≤ digits * 10 ^ reach := Nat.mul_le_mul_left _ hunit
    _ < 10 ^ digitCount digits * 10 ^ reach :=
        Nat.mul_lt_mul_of_pos_right hfew (ten_pow_pos reach)
    _ = 10 ^ (digitCount digits + reach) := (Nat.pow_add ..).symm
    _ ≤ 10 ^ places := Nat.pow_le_pow_right (by decide) hplaces

theorem nearest_fraction (negative : Bool) (hdigits : digits ≠ 0)
    (places : Nat) : (nearest negative digits (-(places : Int)) : Binary f)
      = .ofRatio negative digits (10 ^ places) := by
  unfold nearest exponentReach
  rw [if_neg hdigits]
  by_cases hhigh : 400 + places < digitCount digits
  · have hlarge : 10 ^ (400 + places) ≤ digits := by
      rw [← not_lt, ← digitCount_le_iff (Nat.add_pos_left (by decide) places)]
      exact not_le.mpr hhigh
    rw [if_pos (by omega)]
    refine (ofRatio_of_overflow negative (ten_pow_pos places) ?_).symm
    rw [le_div_iff₀ (Nat.cast_pos.mpr (ten_pow_pos places))]
    calc f.overflow * (10 ^ places : Nat)
        ≤ (10 ^ 400 : Nat) * (10 ^ places : Nat) :=
          mul_le_mul_of_nonneg_right (overflow_le f) (Nat.cast_nonneg _)
      _ = (10 ^ (400 + places) : Nat) := by rw [← Nat.cast_mul, ← Nat.pow_add]
      _ ≤ digits := Nat.cast_le.mpr hlarge
  · by_cases hlow : digitCount digits + 400 < places
    · rw [if_neg (by omega), if_pos (by omega)]
      have hunit : 2 * 2 ^ f.places ≤ 10 ^ 401 := by
        rw [← Nat.pow_succ']
        exact two_pow_le_ten_pow (by have := f.places_le; omega)
      exact (ofRatio_of_tiny negative (below_half_unit hunit hlow)).symm
    · rw [if_neg (by omega), if_neg (by omega)]
      cases places with
      | zero => exact congrArg (ofRatio negative · 1) (Nat.mul_one digits)
      | succ e => rfl

theorem toInt_neg_scale {d : Decimal} (h : d.scale.toInt ≠ -2 ^ 63) :
    (-d.scale).toInt = -d.scale.toInt := by
  have hlow := d.scale.le_toInt
  have hhigh := d.scale.toInt_lt
  rw [Int64.toInt_neg]
  exact Int.bmod_eq_of_le (by omega) (by omega)

/-- A decimal is converted to the nearest number. -/
theorem isNearest_toBinary {d : Decimal} (h : d.scale.toInt ≠ -2 ^ 63) :
    (d.toBinary : Binary f).IsNearest d.toRat := by
  rw [toBinary, toInt_neg_scale h]
  by_cases hzero : d.unscaled = 0
  · rw [toRat_eq_zero_iff.mpr hzero, hzero, Int.natAbs_zero, nearest_zero,
      ← ofRatio_zero false 1]
    have hnearest := isNearest_ofRatio (f := f) false 0 Nat.one_pos
    rwa [signed_zero, Int.cast_zero, zero_div] at hnearest
  have hdigits : d.unscaled.natAbs ≠ 0 := Int.natAbs_ne_zero.mpr hzero
  cases hscale : d.scale.toInt with
  | ofNat places =>
      have hnearest := isNearest_ofRatio (f := f) (decide (d.unscaled < 0))
        d.unscaled.natAbs (ten_pow_pos places)
      rw [signed_natAbs] at hnearest
      rw [toRat_of_nonneg hscale]
      exact nearest_fraction _ hdigits places ▸ hnearest
  | negSucc zeros =>
      have hneg : d.scale.toInt = -((zeros + 1 : Nat) : Int) := hscale
      have hnearest := isNearest_ofRatio (f := f) (decide (d.unscaled < 0))
        (d.unscaled.natAbs * 10 ^ (zeros + 1)) Nat.one_pos
      rw [signed_mul, signed_natAbs, Nat.cast_one, div_one, Nat.cast_pow,
        Nat.cast_ofNat] at hnearest
      rw [toRat_of_neg hneg]
      exact nearest_whole _ hdigits (zeros + 1) ▸ hnearest

end Decimal

/-! ## All kinds -/

namespace Binary

variable {f : Format}

theorem isNearest_ofInt (v : Int) : (ofInt v : Binary f).IsNearest v := by
  have hnearest := isNearest_ofRatio (f := f) (decide (v < 0)) v.natAbs
    Nat.one_pos
  rwa [signed_natAbs, Nat.cast_one, div_one] at hnearest

theorem isNearest_units (negative : Bool) (units places : Nat) :
    (ofRatio negative units (2 ^ places) : Binary f).IsNearest
      (signed negative units / 2 ^ places) := by
  have hnearest := isNearest_ofRatio (f := f) negative units
    (Nat.two_pow_pos places)
  rwa [Nat.cast_pow, Nat.cast_ofNat] at hnearest

theorem IsUnits.isNearest_convert {g : Format} {x : Binary f}
    {negative : Bool} {units : Nat} (h : x.IsUnits negative units) :
    (x.convert : Binary g).IsNearest (signed negative units / 2 ^ f.places) := by
  rw [h.convert_eq]
  exact isNearest_units ..

end Binary

namespace Number

variable {n : Number} {q : ℚ}

theorem isNearest_of_finite (hn : n.quantity? = some (.finite q))
    (hscale : ∀ d, n = .decimal d → d.scale.toInt ≠ -2 ^ 63) :
    n.toFloat.IsNearest q ∧ n.toDouble.IsNearest q := by
  cases n with
  | tinyInt m | smallInt m | int m | bigInt m =>
      obtain rfl := Quantity.finite.inj (Option.some.inj hn)
      exact ⟨Binary.isNearest_ofInt _, Binary.isNearest_ofInt _⟩
  | float x =>
      obtain ⟨negative, units, hx, rfl⟩ := Binary.exists_isUnits hn
      exact ⟨hx.ofRatio_eq ▸ Binary.isNearest_units .., hx.isNearest_convert⟩
  | double x =>
      obtain ⟨negative, units, hx, rfl⟩ := Binary.exists_isUnits hn
      exact ⟨hx.isNearest_convert, hx.ofRatio_eq ▸ Binary.isNearest_units ..⟩
  | decimal d =>
      obtain rfl := Quantity.finite.inj (Option.some.inj hn)
      have hd := hscale d rfl
      exact ⟨Decimal.isNearest_toBinary hd, Decimal.isNearest_toBinary hd⟩

theorem quantity_of_not_finite (hn : ∀ q, n.quantity? ≠ some (.finite q)) :
    n.toFloat.quantity? = n.quantity? ∧ n.toDouble.quantity? = n.quantity? := by
  have hinfinite : ∀ {f : Format} {x : Binary f},
      (∀ q, x.quantity? ≠ some (.finite q)) → f.infinity ≤ x.magnitude := by
    intro f x hx
    by_contra hfinite
    exact hx _ (Binary.quantity_value (not_le.mp hfinite))
  cases n with
  | tinyInt m | smallInt m | int m | bigInt m | decimal d => exact absurd rfl (hn _)
  | float x => exact ⟨rfl, Binary.quantity_convert (hinfinite hn)⟩
  | double x => exact ⟨Binary.quantity_convert (hinfinite hn), rfl⟩

/-- Every number that stands for a rational number is converted to the
nearest number of each format, unless it is a decimal with the scale that has
no negative. Infinities stay infinities of their sign, and what is not a
number stays none. The nearest number is only one, unless zero is rounded,
which has two patterns. -/
theorem toBinary_nearest :
    (∀ (n : Number) (q : ℚ), n.quantity? = some (.finite q) →
      (∀ d, n = .decimal d → d.scale.toInt ≠ -2 ^ 63) →
      n.toFloat.IsNearest q ∧ n.toDouble.IsNearest q)
    ∧ (∀ n : Number, (∀ q, n.quantity? ≠ some (.finite q)) →
        n.toFloat.quantity? = n.quantity? ∧ n.toDouble.quantity? = n.quantity?)
    ∧ ∀ (f : Format) (x y : Binary f) (q : ℚ), q ≠ 0 →
        x.IsNearest q → y.IsNearest q → x = y := by
  refine ⟨fun n q hn hscale => isNearest_of_finite hn hscale, fun n hn => ?_,
    fun f x y q hq hx hy => hx.unique hq hy⟩
  exact quantity_of_not_finite hn

/-- An integer of 61 bits that would be rounded down if it were rounded to a
`Double` first, and a decimal that becomes the least positive number. -/
theorem toBinary_nearest_once :
    let n : Number := .bigInt 1152921573326323713
    let d : Decimal := ⟨3, 324⟩
    n.toFloat.IsNearest (1152921573326323713 : Int)
      ∧ n.toFloat.bits = 0x5D800001
      ∧ (n.toDouble.convert : Binary .single).bits = 0x5D800000
      ∧ (Number.decimal d).toDouble.IsNearest d.toRat
      ∧ (Number.decimal d).toDouble.bits = 1 := by
  intro n d
  have hn := (toBinary_nearest.1 n _ rfl
    fun _ h => NumberKind.noConfusion (congrArg Number.kind h)).1
  have hd := (toBinary_nearest.1 (.decimal d) _ rfl
    fun _ h => Number.decimal.inj h ▸ (by decide)).2
  exact ⟨hn, by decide +kernel, by decide +kernel, hd, by decide +kernel⟩

end Number

end Schemata
