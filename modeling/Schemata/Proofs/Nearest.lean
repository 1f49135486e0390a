import Mathlib
import Schemata.Proofs.Quantity

/-!
# The nearest number of a format

`Binary.IsNearest` says what it means that a pattern is a rational number
rounded to its format: it has the sign of the number, it is an infinity from
the overflow threshold on, and below the threshold no finite number is
nearer, with an even significand if another one is as near. At most one
pattern is nearest to a number other than zero (`IsNearest.unique`).

`Binary.ofRatio` computes it (`isNearest_ofRatio`). Its significand is the
integer nearest to the quotient on the grid of the exponent
(`roundDiv_nearest`). Numbers with a larger exponent are on this grid too, and
those with a smaller one are below its least full significand, which is on
the grid and nearer (`unboundedMagnitude_nearest`). That covers a significand
that is rounded up to the next power of two, and numbers too small for a full
significand, without a case of their own.

Infinities need no rounding rule of their own either. Were there no
infinity, its magnitude would stand for the power of two above all finite
numbers. The greatest finite number has an odd significand, so from half way
on, the tie included, rounding leads to that power or beyond
(`unboundedMagnitude_lt_iff`).
-/

namespace Schemata

namespace Binary

variable {f : Format}

/-! ## Rounding to an integer -/

theorem roundDiv_bounds (num den : Nat) :
    num / den ≤ roundDiv num den ∧ roundDiv num den ≤ num / den + 1 := by
  unfold roundDiv
  simp only
  split <;> omega

/-- The rounded quotient is at most one half away, and even if it is that
far. -/
theorem roundDiv_half (num : Nat) {den : Nat} (hden : 0 < den) :
    |(num : ℚ) / den - roundDiv num den| ≤ 1 / 2
      ∧ (|(num : ℚ) / den - roundDiv num den| = 1 / 2 →
          roundDiv num den % 2 = 0) := by
  have hpos : (0 : ℚ) < den := Nat.cast_pos.mpr hden
  have hvalue : (num : ℚ) / den
      = (num / den : Nat) + ((num % den : Nat) : ℚ) / den := by
    rw [div_eq_iff hpos.ne', add_mul, div_mul_cancel₀ _ hpos.ne']
    exact_mod_cast (Nat.div_add_mod' num den).symm
  have hnonneg : (0 : ℚ) ≤ ((num % den : Nat) : ℚ) / den := by positivity
  have hlt : ((num % den : Nat) : ℚ) / den < 1 := by
    rw [div_lt_one hpos]
    exact_mod_cast Nat.mod_lt num hden
  have hmore : den < 2 * (num % den) ↔
      1 / 2 < ((num % den : Nat) : ℚ) / den := by
    rw [lt_div_iff₀ hpos, div_mul_eq_mul_div, one_mul,
      div_lt_iff₀' (by norm_num)]
    exact_mod_cast Iff.rfl
  have hsame : 2 * (num % den) = den ↔
      ((num % den : Nat) : ℚ) / den = 1 / 2 := by
    rw [div_eq_div_iff hpos.ne' (by norm_num), one_mul, mul_comm]
    exact_mod_cast Iff.rfl
  rw [hvalue]
  unfold roundDiv
  simp only [hmore, hsame]
  generalize ((num % den : Nat) : ℚ) / den = t at hnonneg hlt
  generalize num / den = quotient
  split
  · next hup =>
      have hdistance : |(quotient : ℚ) + t - (quotient + 1 : Nat)| = 1 - t := by
        rw [Nat.cast_add, Nat.cast_one, abs_sub_comm, abs_of_nonneg (by linarith)]
        ring
      rw [hdistance]
      rcases hup with hmore | ⟨hhalf, hodd⟩
      · exact ⟨by linarith, fun h => by linarith⟩
      · exact ⟨by linarith, fun _ => by omega⟩
  · next hdown =>
      have hdistance : |(quotient : ℚ) + t - quotient| = t := by
        rw [add_sub_cancel_left, abs_of_nonneg hnonneg]
      obtain ⟨hle, heven⟩ := not_or.mp hdown
      rw [hdistance]
      exact ⟨not_lt.mp hle, fun h => by have := not_and.mp heven h; omega⟩

/-- Rounding picks the nearest integer. -/
theorem roundDiv_nearest (num k : Nat) {den : Nat} (hden : 0 < den) :
    |(num : ℚ) / den - roundDiv num den| ≤ |(num : ℚ) / den - k|
      ∧ (k ≠ roundDiv num den →
          |(num : ℚ) / den - roundDiv num den| = |(num : ℚ) / den - k| →
          roundDiv num den % 2 = 0) := by
  obtain ⟨hhalf, heven⟩ := roundDiv_half num hden
  generalize roundDiv num den = n at hhalf heven
  generalize (num : ℚ) / den = x at hhalf heven
  by_cases hk : k = n
  · rw [hk]
    exact ⟨le_refl _, fun h => absurd rfl h⟩
  · have hstep : (1 : ℚ) ≤ |(n : ℚ) - k| := by
      have := Int.one_le_abs (show (n : ℤ) - k ≠ 0 by omega)
      exact_mod_cast this
    have hsum : |(n : ℚ) - k| ≤ |x - n| + |x - k| := by
      rw [abs_sub_comm x n]
      exact abs_sub_le _ _ _
    exact ⟨by linarith, fun _ heq => heven (by linarith)⟩

/-! ## Magnitudes in units -/

/-- The number of units that a magnitude stands for, were there no
infinity. -/
def units (f : Format) (m : Nat) : Nat := significand f m * 2 ^ shift f m

theorem fractionBits_ne_zero (f : Format) : f.fractionBits ≠ 0 := by
  cases f <;> decide

/-- A significand may also be the power of two that carries over into the
exponent. -/
theorem units_of_carry {c s : Nat} (hc : c ≤ 2 ^ (f.fractionBits + 1))
    (hfull : s = 0 ∨ 2 ^ f.fractionBits ≤ c) :
    units f (s * 2 ^ f.fractionBits + c) = c * 2 ^ s := by
  rcases Nat.lt_or_eq_of_le hc with hlt | rfl
  · obtain ⟨hsignificand, hshift⟩ :=
      significand_shift_of_canonical (f := f) ⟨hlt, hfull⟩
    rw [units, hsignificand, hshift]
  · have hcanonical : f.Canonical (2 ^ f.fractionBits) (s + 1) :=
      ⟨Nat.pow_lt_pow_right (by decide) (Nat.lt_succ_self _),
        Or.inr (Nat.le_refl _)⟩
    have hcarry : s * 2 ^ f.fractionBits + 2 ^ (f.fractionBits + 1)
        = (s + 1) * 2 ^ f.fractionBits + 2 ^ f.fractionBits := by ring
    obtain ⟨hsignificand, hshift⟩ := significand_shift_of_canonical hcanonical
    rw [hcarry, units, hsignificand, hshift]
    ring

/-- Larger magnitudes stand for larger numbers. -/
theorem units_strictMono (f : Format) : StrictMono (units f) := by
  refine strictMono_nat_of_lt_succ fun m => ?_
  obtain ⟨hcanonical, hm⟩ := canonical_magnitude f m
  have hnext : units f (m + 1) = (significand f m + 1) * 2 ^ shift f m := by
    conv_lhs => rw [hm, Nat.add_assoc]
    exact units_of_carry hcanonical.lt
      (hcanonical.full.imp_right Nat.le_succ_of_le)
  rw [hnext, units]
  exact Nat.mul_lt_mul_of_pos_right (Nat.lt_succ_self _) (Nat.two_pow_pos _)

/-- The last bit of a magnitude is the one of its significand. -/
theorem shifted_mod_two (f : Format) (s c : Nat) :
    (s * 2 ^ f.fractionBits + c) % 2 = c % 2 := by
  have heven : 2 ∣ s * 2 ^ f.fractionBits :=
    Dvd.dvd.mul_left (dvd_pow_self 2 (fractionBits_ne_zero f)) s
  omega

theorem significand_mod_two (f : Format) (m : Nat) :
    significand f m % 2 = m % 2 := by
  conv_rhs => rw [(canonical_magnitude f m).2]
  exact (shifted_mod_two f _ _).symm

/-- A magnitude stands for a point of the grid of `2 ^ s` units, or for less
than the least full significand there. -/
theorem units_grid (f : Format) (m s : Nat) :
    (∃ k, units f m = k * 2 ^ s)
      ∨ (s ≠ 0 ∧ units f m < 2 ^ f.fractionBits * 2 ^ s) := by
  rcases Nat.lt_or_ge (shift f m) s with hlt | hge
  · refine Or.inr ⟨by omega, ?_⟩
    rw [← Nat.pow_add]
    exact (canonical_magnitude f m).1.mul_lt (by omega)
  · refine Or.inl ⟨significand f m * 2 ^ (shift f m - s), ?_⟩
    rw [Nat.mul_assoc, ← Nat.pow_add, Nat.sub_add_cancel hge, units]

/-! ## Rounding to a magnitude -/

/-- The shift that rounding uses is the one of the exact number: below it
the significand would have too many bits, above it too few. -/
theorem shift_bounds (n : Nat) :
    n < 2 ^ (f.fractionBits + 1) * 2 ^ (n.log2 - f.fractionBits)
      ∧ (n.log2 - f.fractionBits = 0
        ∨ 2 ^ f.fractionBits * 2 ^ (n.log2 - f.fractionBits) ≤ n) := by
  rw [← Nat.pow_add, ← Nat.pow_add]
  constructor
  · exact Nat.lt_of_lt_of_le Nat.lt_log2_self
      (Nat.pow_le_pow_right (by decide) (by omega))
  · by_cases hzero : n.log2 - f.fractionBits = 0
    · exact Or.inl hzero
    · refine Or.inr (Nat.le_trans ?_ (Nat.log2_self_le (n := n) ?_))
      · exact Nat.pow_le_pow_right (by decide) (by omega)
      · rintro rfl
        simp at hzero

/-- The magnitude that rounding computes, by its significand and shift. -/
theorem exists_unboundedMagnitude (f : Format) (num den : Nat) :
    ∃ s, unboundedMagnitude f num den
        = s * 2 ^ f.fractionBits + roundDiv num (den * 2 ^ s)
      ∧ units f (unboundedMagnitude f num den)
        = roundDiv num (den * 2 ^ s) * 2 ^ s
      ∧ (s = 0 ∨ 2 ^ f.fractionBits * 2 ^ s ≤ num / den) := by
  obtain ⟨hupper, hlower⟩ := shift_bounds (f := f) (num / den)
  obtain ⟨hle, hge⟩ :=
    roundDiv_bounds num (den * 2 ^ ((num / den).log2 - f.fractionBits))
  rw [← Nat.div_div_eq_div_mul] at hle hge
  refine ⟨(num / den).log2 - f.fractionBits, rfl, ?_, hlower⟩
  refine units_of_carry ?_ (hlower.imp_right fun h => ?_)
  · have hlt := (Nat.div_lt_iff_lt_mul (Nat.two_pow_pos _)).mpr hupper
    exact Nat.le_trans hge hlt
  · have hfull := (Nat.le_div_iff_mul_le (Nat.two_pow_pos _)).mpr h
    exact Nat.le_trans hfull hle

/-- No magnitude stands for a number nearer to the quotient than the one
that rounding computes, which is even if another is as near. -/
theorem unboundedMagnitude_nearest (f : Format) (num m : Nat) {den : Nat}
    (hden : 0 < den) :
    |(num : ℚ) / den - units f (unboundedMagnitude f num den)|
        ≤ |(num : ℚ) / den - units f m|
      ∧ (m ≠ unboundedMagnitude f num den →
          |(num : ℚ) / den - units f (unboundedMagnitude f num den)|
            = |(num : ℚ) / den - units f m| →
          unboundedMagnitude f num den % 2 = 0) := by
  obtain ⟨s, hmagnitude, hunits, hlower⟩ :=
    exists_unboundedMagnitude f num den
  have hstep : (0 : ℚ) < 2 ^ s := by positivity
  have hquotient : (num : ℚ) / den = num / (den * 2 ^ s : Nat) * 2 ^ s := by
    rw [Nat.cast_mul, Nat.cast_pow, Nat.cast_ofNat, ← div_div,
      div_mul_cancel₀ _ hstep.ne']
  -- distances on the grid are distances between integers
  have hgrid : ∀ k : Nat, |(num : ℚ) / den - (k * 2 ^ s : Nat)|
      = |(num : ℚ) / (den * 2 ^ s : Nat) - k| * 2 ^ s := by
    intro k
    have hcast : ((k * 2 ^ s : Nat) : ℚ) = k * 2 ^ s := by
      rw [Nat.cast_mul, Nat.cast_pow, Nat.cast_ofNat]
    rw [hquotient, hcast, ← sub_mul, abs_mul, abs_of_pos hstep]
  have hpos : 0 < den * 2 ^ s := Nat.mul_pos hden (Nat.two_pow_pos s)
  have hparity : unboundedMagnitude f num den % 2
      = roundDiv num (den * 2 ^ s) % 2 := by
    rw [hmagnitude, shifted_mod_two]
  rw [hunits, hparity]
  rcases units_grid f m s with ⟨k, hk⟩ | ⟨hs, hbelow⟩
  · obtain ⟨hle, heven⟩ := roundDiv_nearest num k hpos
    rw [hk, hgrid, hgrid]
    refine ⟨by gcongr, fun hne heq => heven ?_ (mul_right_cancel₀ hstep.ne' heq)⟩
    rintro rfl
    exact hne ((units_strictMono f).injective (hk.trans hunits.symm))
  · -- the least full significand is as good a candidate, and nearer
    have hle := (roundDiv_nearest num (2 ^ f.fractionBits) hpos).1
    have hleast : ((2 ^ f.fractionBits * 2 ^ s : Nat) : ℚ) ≤ num / den :=
      le_trans (Nat.cast_le.mpr (hlower.resolve_left hs)) Nat.cast_div_le
    have hlt : (units f m : ℚ) < (2 ^ f.fractionBits * 2 ^ s : Nat) :=
      Nat.cast_lt.mpr hbelow
    have hnearer : |(num : ℚ) / den - (roundDiv num (den * 2 ^ s) * 2 ^ s : Nat)|
        < |(num : ℚ) / den - units f m| :=
      calc |(num : ℚ) / den - (roundDiv num (den * 2 ^ s) * 2 ^ s : Nat)|
          ≤ |(num : ℚ) / den - (2 ^ f.fractionBits * 2 ^ s : Nat)| := by
            rw [hgrid, hgrid]
            gcongr
        _ = num / den - (2 ^ f.fractionBits * 2 ^ s : Nat) :=
            abs_of_nonneg (by linarith)
        _ < num / den - units f m := by linarith
        _ = |(num : ℚ) / den - units f m| :=
            (abs_of_nonneg (by linarith)).symm
    exact ⟨hnearer.le, fun _ heq => absurd heq hnearer.ne⟩

/-! ## Overflow -/

theorem units_infinity (f : Format) : units f f.infinity = 2 ^ f.top := by
  cases f <;> decide +kernel

theorem units_greatest (f : Format) : units f (f.infinity - 1)
    + 2 ^ (f.top - f.fractionBits - 1) = 2 ^ f.top := by
  cases f <;> decide +kernel

theorem greatest_mod_two (f : Format) : (f.infinity - 1) % 2 = 1 := by
  cases f <;> decide +kernel

end Binary

/-- Half way from the greatest finite number to the power of two above it.
From here on, rounding gives an infinity. -/
def Format.overflow : Format → ℚ
  | .single => 2 ^ 128 - 2 ^ 103
  | .double => 2 ^ 1024 - 2 ^ 970

theorem Format.overflow_units (f : Format) : f.overflow * 2 ^ f.places
    = 2 ^ f.top - 2 ^ (f.top - f.fractionBits - 2) := by
  cases f with
  | single =>
      show (2 ^ 128 - 2 ^ 103) * 2 ^ 149 = (2 : ℚ) ^ 277 - 2 ^ 252
      rw [sub_mul, ← pow_add, ← pow_add]
  | double =>
      show (2 ^ 1024 - 2 ^ 970) * 2 ^ 1074 = (2 : ℚ) ^ 2098 - 2 ^ 2044
      rw [sub_mul, ← pow_add, ← pow_add]

namespace Binary

theorem overflow_mid (f : Format) : 2 * (f.overflow * 2 ^ f.places)
    = units f (f.infinity - 1) + units f f.infinity := by
  have hgreatest : (units f (f.infinity - 1) : ℚ)
      + 2 ^ (f.top - f.fractionBits - 1) = 2 ^ f.top := by
    exact_mod_cast units_greatest f
  have htwice : f.top - f.fractionBits - 1 = f.top - f.fractionBits - 2 + 1 := by
    cases f <;> decide
  rw [htwice, pow_succ] at hgreatest
  rw [f.overflow_units, units_infinity, Nat.cast_pow, Nat.cast_ofNat]
  linarith

/-- The magnitude that rounding computes is that of a finite number below
half way to the power of two above all of them, and only there. -/
theorem unboundedMagnitude_lt_iff (f : Format) (num : Nat) {den : Nat}
    (hden : 0 < den) : unboundedMagnitude f num den < f.infinity ↔
      (num : ℚ) / den < f.overflow * 2 ^ f.places := by
  have hmid := overflow_mid f
  have hgap : (units f (f.infinity - 1) : ℚ) < units f f.infinity :=
    Nat.cast_lt.mpr (units_strictMono f (by cases f <;> decide))
  obtain ⟨htop, htie⟩ := unboundedMagnitude_nearest f num f.infinity hden
  have hgreatest := (unboundedMagnitude_nearest f num (f.infinity - 1) hden).1
  constructor
  · intro hfinite
    by_contra hover
    have hle : (units f (unboundedMagnitude f num den) : ℚ)
        ≤ units f (f.infinity - 1) :=
      Nat.cast_le.mpr ((units_strictMono f).monotone (by omega))
    have hfar : |(num : ℚ) / den - units f f.infinity|
        ≤ num / den - units f (f.infinity - 1) :=
      abs_le.mpr ⟨by linarith, by linarith⟩
    have hself := le_abs_self
      ((num : ℚ) / den - units f (unboundedMagnitude f num den))
    -- a tie, in which the greatest finite number is the odd one
    have hsame : unboundedMagnitude f num den = f.infinity - 1 := by
      refine (units_strictMono f).injective ?_
      exact_mod_cast le_antisymm hle (by linarith)
    have hodd := greatest_mod_two f
    have heven := htie (by omega) (le_antisymm htop (by rw [hsame] at hself ⊢; linarith))
    omega
  · intro hbelow
    by_contra hinfinite
    have hle : (units f f.infinity : ℚ)
        ≤ units f (unboundedMagnitude f num den) :=
      Nat.cast_le.mpr ((units_strictMono f).monotone (by omega))
    have hnear : |(num : ℚ) / den - units f (f.infinity - 1)|
        < units f f.infinity - num / den :=
      abs_lt.mpr ⟨by linarith, by linarith⟩
    have hself := neg_abs_le
      ((num : ℚ) / den - units f (unboundedMagnitude f num den))
    linarith

/-! ## Nearest numbers -/

/-- The finite number with a sign and a magnitude. -/
def value (f : Format) (negative : Bool) (m : Nat) : ℚ :=
  signed negative (units f m) / 2 ^ f.places

theorem value_eq (f : Format) (negative : Bool) (m : Nat) :
    value f negative m = if negative then -(units f m / 2 ^ f.places : ℚ)
      else units f m / 2 ^ f.places := by
  rw [value, cast_signed]
  cases negative with
  | false => rfl
  | true => exact neg_div _ _

theorem abs_value (f : Format) (negative : Bool) (m : Nat) :
    |value f negative m| = units f m / 2 ^ f.places := by
  have hnonneg : (0 : ℚ) ≤ units f m / 2 ^ f.places := by positivity
  rw [value_eq]
  cases negative with
  | false => exact abs_of_nonneg hnonneg
  | true => exact (abs_neg _).trans (abs_of_nonneg hnonneg)

theorem quantity_value {x : Binary f} (hx : x.magnitude < f.infinity) :
    x.quantity? = some (.finite (value f x.negative x.magnitude)) :=
  (isUnits_self hx).quantity

theorem of_quantity_finite {x : Binary f} {v : ℚ}
    (h : x.quantity? = some (.finite v)) :
    x.magnitude < f.infinity ∧ v = value f x.negative x.magnitude := by
  obtain ⟨negative, units, hx, -⟩ := exists_isUnits h
  refine ⟨hx.finite, ?_⟩
  rw [quantity_value hx.finite] at h
  exact (Quantity.finite.inj (Option.some.inj h)).symm

/-- The pattern is that of the number nearest to `q`, in its sign. From the
overflow threshold on this is an infinity. Below, no finite number is
nearer, and if another one is as near then the significand is even. -/
structure IsNearest (x : Binary f) (q : ℚ) : Prop where
  sign : q ≠ 0 → x.negative = decide (q < 0)
  infinite : f.overflow ≤ |q| →
    x.quantity? = some (.infinite (decide (q < 0)))
  finite : |q| < f.overflow → ∃ v, x.quantity? = some (.finite v)
    ∧ ∀ (y : Binary f) (u : ℚ), y.quantity? = some (.finite u) →
        |q - v| ≤ |q - u|
        ∧ (u ≠ v → |q - v| = |q - u| → significand f x.magnitude % 2 = 0)

/-- Counted in units, a quotient below the threshold has a finite
magnitude. -/
theorem ofRatio_finite_iff (negative : Bool) (num : Nat) {den : Nat}
    (hden : 0 < den) :
    (ofRatio negative num den : Binary f).magnitude < f.infinity ↔
      (num : ℚ) / den < f.overflow := by
  have hpos : (0 : ℚ) < 2 ^ f.places := by positivity
  rw [magnitude_ofRatio, min_lt_iff, or_iff_right (lt_irrefl _),
    unboundedMagnitude_lt_iff f _ hden, Nat.cast_mul, Nat.cast_pow,
    Nat.cast_ofNat, mul_div_right_comm, mul_lt_mul_iff_left₀ hpos]

theorem ofRatio_infinite (negative : Bool) {num den : Nat} (hden : 0 < den)
    (h : f.overflow ≤ (num : ℚ) / den) :
    (ofRatio negative num den : Binary f).magnitude = f.infinity := by
  refine Nat.le_antisymm (magnitude_ofRatio_le ..) (not_lt.mp ?_)
  rw [ofRatio_finite_iff negative num hden]
  exact not_lt.mpr h

/-- No magnitude is nearer than the one of the rounded quotient. -/
theorem ofRatio_nearest (negative : Bool) (num m : Nat) {den : Nat}
    (hden : 0 < den) (hfinite : (num : ℚ) / den < f.overflow) :
    let x : Binary f := ofRatio negative num den
    |(num : ℚ) / den - units f x.magnitude / 2 ^ f.places|
        ≤ |(num : ℚ) / den - units f m / 2 ^ f.places|
      ∧ (m ≠ x.magnitude →
          |(num : ℚ) / den - units f x.magnitude / 2 ^ f.places|
            = |(num : ℚ) / den - units f m / 2 ^ f.places| →
          x.magnitude % 2 = 0) := by
  intro x
  have hpos : (0 : ℚ) < 2 ^ f.places := by positivity
  have hmagnitude : x.magnitude
      = unboundedMagnitude f (num * 2 ^ f.places) den := by
    have hlt := (ofRatio_finite_iff negative num hden).mpr hfinite
    rw [magnitude_ofRatio] at hlt ⊢
    omega
  -- distances in units
  have hunits : ∀ n : Nat,
      |((num * 2 ^ f.places : Nat) : ℚ) / den - n|
        = |(num : ℚ) / den - n / 2 ^ f.places| * 2 ^ f.places := by
    intro n
    rw [Nat.cast_mul, Nat.cast_pow, Nat.cast_ofNat, mul_div_right_comm]
    conv_rhs => rw [← abs_of_pos hpos, ← abs_mul, sub_mul,
      abs_of_pos hpos, div_mul_cancel₀ _ hpos.ne']
  have hnearest := unboundedMagnitude_nearest f (num * 2 ^ f.places) m hden
  rw [← hmagnitude, hunits, hunits, mul_le_mul_iff_left₀ hpos,
    mul_left_inj' hpos.ne'] at hnearest
  exact hnearest

theorem abs_signed_div (negative : Bool) (num den : Nat) :
    |(signed negative num : ℚ) / den| = num / den := by
  have hnonneg : (0 : ℚ) ≤ (num : ℚ) / den := by positivity
  rw [cast_signed]
  cases negative with
  | false => exact abs_of_nonneg hnonneg
  | true =>
      rw [if_pos rfl, neg_div, abs_neg]
      exact abs_of_nonneg hnonneg

/-- With the same sign, numbers are as far apart as without. -/
theorem abs_sub_value (negative : Bool) (num den m : Nat) :
    |(signed negative num : ℚ) / den - value f negative m|
      = |(num : ℚ) / den - units f m / 2 ^ f.places| := by
  rw [value_eq, cast_signed]
  cases negative with
  | false => rfl
  | true =>
      rw [if_pos rfl, if_pos rfl, neg_div, ← neg_sub', abs_neg]

theorem negative_eq_of_ne_zero {negative : Bool} {num den : Nat}
    (h : (signed negative num : ℚ) / den ≠ 0) :
    negative = decide ((signed negative num : ℚ) / den < 0) := by
  have hnonneg : (0 : ℚ) ≤ (num : ℚ) / den := by positivity
  rw [eq_comm]
  cases negative with
  | false =>
      have hle : 0 ≤ (signed false num : ℚ) / den := by
        rw [cast_signed]
        exact hnonneg
      exact decide_eq_false (not_lt.mpr hle)
  | true =>
      have hle : (signed true num : ℚ) / den ≤ 0 := by
        rw [cast_signed, if_pos rfl, neg_div]
        exact neg_nonpos.mpr hnonneg
      exact decide_eq_true (lt_of_le_of_ne hle h)

theorem value_neg (f : Format) {p q : Bool} (h : p ≠ q) (m : Nat) :
    value f p m = -value f q m := by
  rw [value_eq, value_eq]
  cases p <;> cases q <;> simp at h ⊢

theorem overflow_pos (f : Format) : 0 < f.overflow := by
  cases f with
  | single => exact sub_pos.mpr (pow_lt_pow_right₀ one_lt_two (by decide))
  | double => exact sub_pos.mpr (pow_lt_pow_right₀ one_lt_two (by decide))

/-- Only zero is as far from a number as from its opposite. -/
theorem eq_zero_of_opposite {q v : ℚ} (h : |q - v| = |q - -v|) (hv : -v ≠ v) :
    q = 0 := by
  rcases abs_eq_abs.mp h with h | h
  · exact absurd (by linarith) hv
  · linarith

/-- Nor is a number with either sign nearer than the rounded quotient. -/
theorem ofRatio_nearest_value (negative : Bool) (num : Nat) {den : Nat}
    (hden : 0 < den) (hfinite : (num : ℚ) / den < f.overflow) (p : Bool)
    (m : Nat) :
    let x : Binary f := ofRatio negative num den
    let q : ℚ := signed negative num / den
    |q - value f negative x.magnitude| ≤ |q - value f p m|
      ∧ (value f p m ≠ value f negative x.magnitude →
          |q - value f negative x.magnitude| = |q - value f p m| →
          x.magnitude % 2 = 0) := by
  intro x q
  obtain ⟨hle, heven⟩ := ofRatio_nearest negative num m hden hfinite
  have hdistance : |q - value f negative x.magnitude|
      = |(num : ℚ) / den - units f x.magnitude / 2 ^ f.places| :=
    abs_sub_value ..
  have hother : |(num : ℚ) / den - units f m / 2 ^ f.places|
      ≤ |q - value f p m| := by
    rw [← abs_signed_div negative num den, ← abs_value f p]
    exact abs_abs_sub_abs_le _ _
  refine ⟨hdistance.trans_le (hle.trans hother), fun hne htie => ?_⟩
  by_cases hm : m = x.magnitude
  · have hp : p ≠ negative := by
      rintro rfl
      exact hne (by rw [hm])
    rw [hm, value_neg f hp] at hne htie
    have hnum : num = 0 := by
      have habs : |q| = num / den := abs_signed_div negative num den
      rw [eq_zero_of_opposite htie hne, abs_zero, eq_comm,
        div_eq_zero_iff] at habs
      exact_mod_cast habs.resolve_right (by positivity)
    have hx : x = zero negative := by
      rw [← ofRatio_zero negative den, ← hnum]
    rw [hx, zero, magnitude_ofMagnitude _ (Nat.two_pow_pos _)]
  · refine heven hm (le_antisymm hle ?_)
    rw [hdistance] at htie
    exact hother.trans_eq htie.symm

/-- The rounded quotient is the nearest number. -/
theorem isNearest_ofRatio (negative : Bool) (num : Nat) {den : Nat}
    (hden : 0 < den) : (ofRatio negative num den : Binary f).IsNearest
      (signed negative num / den) := by
  refine ⟨fun hq => ?_, fun hover => ?_, fun hbelow => ?_⟩
  · rw [negative_ofRatio]
    exact negative_eq_of_ne_zero hq
  · have hq : (signed negative num : ℚ) / den ≠ 0 :=
      abs_pos.mp (lt_of_lt_of_le (overflow_pos f) hover)
    rw [abs_signed_div] at hover
    rw [quantity_infinite (ofRatio_infinite negative hden hover),
      negative_ofRatio, ← negative_eq_of_ne_zero hq]
  · rw [abs_signed_div] at hbelow
    have hfinite := (ofRatio_finite_iff negative num hden).mpr hbelow
    refine ⟨_, quantity_value hfinite, fun y u hy => ?_⟩
    obtain ⟨-, rfl⟩ := of_quantity_finite hy
    rw [negative_ofRatio, significand_mod_two]
    exact ofRatio_nearest_value negative num hden hbelow _ _

/-! ## One nearest number -/

theorem magnitude_eq_of_quantity {x y : Binary f} {q : Quantity}
    (hx : x.quantity? = some q) (hy : y.quantity? = some q) :
    x.magnitude = y.magnitude := by
  have hbeq := beq_iff_bits.mp (beq_iff.mpr ⟨q, hx, hy⟩)
  rcases hbeq.2 with hbits | ⟨hzerox, hzeroy⟩
  · rw [magnitude, hbits, magnitude]
  · rw [hzerox, hzeroy]

theorem abs_sub_lt_of_between {a b c q : ℚ} (hab : a < b) (hbc : b < c)
    (h : |q - a| = |q - c|) : |q - b| < |q - a| := by
  rcases abs_eq_abs.mp h with h | h
  · linarith
  · rw [abs_of_nonneg (by linarith : 0 ≤ q - a), abs_lt]
    exact ⟨by linarith, by linarith⟩

/-- If two magnitudes are not neighbours, there is a number between, which
is nearer to what is half way. -/
theorem exists_nearer (negative : Bool) {m n : Nat} (hmn : m + 1 < n)
    (hn : n < f.infinity) {q : ℚ}
    (h : |q - value f negative m| = |q - value f negative n|) :
    ∃ (z : Binary f) (w : ℚ), z.quantity? = some (.finite w)
      ∧ |q - w| < |q - value f negative m| := by
  have hfinite : m + 1 < f.infinity := Nat.lt_trans hmn hn
  have hlt := Nat.lt_trans hfinite f.infinity_lt
  have hbetween : (ofMagnitude negative (m + 1) : Binary f).quantity?
      = some (.finite (value f negative (m + 1))) := by
    rw [quantity_value (by rwa [magnitude_ofMagnitude negative hlt]),
      magnitude_ofMagnitude negative hlt, negative_ofMagnitude negative hlt]
  refine ⟨_, _, hbetween, ?_⟩
  have hpos : (0 : ℚ) < 2 ^ f.places := by positivity
  have hlow : (units f m : ℚ) / 2 ^ f.places
      < units f (m + 1) / 2 ^ f.places := by
    rw [div_lt_div_iff_of_pos_right hpos, Nat.cast_lt]
    exact units_strictMono f (Nat.lt_succ_self m)
  have hhigh : (units f (m + 1) : ℚ) / 2 ^ f.places
      < units f n / 2 ^ f.places := by
    rw [div_lt_div_iff_of_pos_right hpos, Nat.cast_lt]
    exact units_strictMono f hmn
  simp only [value_eq] at h ⊢
  cases negative with
  | false => exact abs_sub_lt_of_between hlow hhigh h
  | true =>
      rw [h]
      exact abs_sub_lt_of_between (neg_lt_neg hhigh) (neg_lt_neg hlow) h.symm

/-- Only one number is nearest: of two neighbours that are equally near, one
has an odd significand. -/
theorem IsNearest.unique {x y : Binary f} {q : ℚ} (hq : q ≠ 0)
    (hx : x.IsNearest q) (hy : y.IsNearest q) : x = y := by
  have hsign : x.negative = y.negative := (hx.sign hq).trans (hy.sign hq).symm
  suffices hsame : x.magnitude = y.magnitude by
    rw [← x.ofMagnitude_magnitude, ← y.ofMagnitude_magnitude, hsign, hsame]
  rcases le_or_gt f.overflow |q| with hover | hbelow
  · exact magnitude_eq_of_quantity (hx.infinite hover) (hy.infinite hover)
  · obtain ⟨v, hv, hnearx⟩ := hx.finite hbelow
    obtain ⟨u, hu, hneary⟩ := hy.finite hbelow
    by_contra hne
    have huv : u ≠ v := by
      rintro rfl
      exact hne (magnitude_eq_of_quantity hv hu)
    have htie : |q - v| = |q - u| :=
      le_antisymm (hnearx y u hu).1 (hneary x v hv).1
    have hevenx := (hnearx y u hu).2 huv htie
    have heveny := (hneary x v hv).2 huv.symm htie.symm
    rw [significand_mod_two] at hevenx heveny
    obtain ⟨hfinitex, rfl⟩ := of_quantity_finite hv
    obtain ⟨hfinitey, rfl⟩ := of_quantity_finite hu
    rw [← hsign] at htie
    rcases Nat.lt_or_gt_of_ne hne with hlt | hlt
    · obtain ⟨z, w, hz, hnearer⟩ :=
        exists_nearer x.negative (by omega) hfinitey htie
      exact absurd (hnearx z w hz).1 (not_le.mpr hnearer)
    · obtain ⟨z, w, hz, hnearer⟩ :=
        exists_nearer x.negative (by omega) hfinitex htie.symm
      rw [hsign] at hnearer
      exact absurd (hneary z w hz).1 (not_le.mpr hnearer)

end Binary

end Schemata
