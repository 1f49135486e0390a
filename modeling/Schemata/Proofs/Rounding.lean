import Mathlib
import Schemata.Number.Convert

/-!
# Exact numbers in floating point

A finite magnitude stands for `c * 2 ^ s` units. It is `s * 2 ^ F + c`, for
`F` bits of fraction, when the significand `c` has at most `F + 1` bits and
has all of them unless `s` is zero (`Format.Canonical`). Every magnitude is
of this form in one way (`canonical_magnitude`,
`significand_shift_of_canonical`), and the magnitude that rounding computes
for a number of units of this form is the one that stands for it
(`unboundedMagnitude_of_canonical`). So a number that can be written with
few enough bits, however many zeros follow them, is not changed by rounding
(`Binary.ofRatio_isUnits`).

`Binary.IsUnits` says what a pattern stands for without its bits. Patterns
that stand for the same are the same (`IsUnits.unique`), which makes equality
of patterns a matter of arithmetic.
-/

namespace Schemata

theorem twoPow_eq (n : Nat) : twoPow n = 2 ^ n := rfl

theorem natAbs_signed (negative : Bool) (n : Nat) :
    (signed negative n).natAbs = n := by
  cases negative <;> simp [signed]

theorem signed_zero (negative : Bool) : signed negative 0 = 0 := by
  cases negative <;> rfl

theorem signed_mul (negative : Bool) (m n : Nat) :
    signed negative (m * n) = signed negative m * n := by
  cases negative <;> simp [signed]

theorem signed_tdiv (negative : Bool) (m n : Nat) :
    (signed negative m).tdiv n = signed negative (m / n) := by
  cases negative
  · rfl
  · simp [signed, Int.neg_tdiv]

namespace Format

/-- The finite numbers are those of less than `2 ^ top` units. -/
def top (f : Format) : Nat := f.fractionBits + (twoPow f.exponentBits - 2)

/-- `c` and `s` are the significand and the shift of a magnitude. -/
structure Canonical (f : Format) (c s : Nat) : Prop where
  lt : c < 2 ^ (f.fractionBits + 1)
  full : s = 0 ∨ 2 ^ f.fractionBits ≤ c

variable {f : Format} {c s : Nat}

theorem infinity_lt (f : Format) : f.infinity < 2 ^ f.magnitudeBits := by
  cases f <;> decide

theorem four_le_exponents (f : Format) : 4 ≤ twoPow f.exponentBits := by
  cases f <;> decide

theorem places_le (f : Format) : f.places ≤ 1074 := by
  cases f <;> decide

theorem Canonical.mul_lt (h : f.Canonical c s) {n : Nat}
    (hs : s + f.fractionBits + 1 ≤ n) : c * 2 ^ s < 2 ^ n :=
  calc c * 2 ^ s < 2 ^ (f.fractionBits + 1) * 2 ^ s :=
        Nat.mul_lt_mul_of_pos_right h.lt (Nat.two_pow_pos s)
    _ = 2 ^ (f.fractionBits + 1 + s) := (Nat.pow_add ..).symm
    _ ≤ 2 ^ n := Nat.pow_le_pow_right (by omega) (by omega)

/-- A shift is lost in the number of bits, beyond those of the fraction. -/
theorem Canonical.log2_sub (h : f.Canonical c s) :
    (c * 2 ^ s).log2 - f.fractionBits = s := by
  rcases Nat.eq_zero_or_pos c with rfl | hc
  · rcases h.full with rfl | hfull
    · simp
    · exact absurd hfull (Nat.not_le.mpr (Nat.two_pow_pos _))
  have hpos : c * 2 ^ s ≠ 0 :=
    (Nat.mul_pos hc (Nat.two_pow_pos s)).ne'
  have hupper : (c * 2 ^ s).log2 < f.fractionBits + 1 + s :=
    (Nat.log2_lt hpos).mpr (h.mul_lt (by omega))
  rcases h.full with rfl | hfull
  · omega
  · have hlower : f.fractionBits + s ≤ (c * 2 ^ s).log2 := by
      rw [Nat.le_log2 hpos, Nat.pow_add]
      exact Nat.mul_le_mul_right _ hfull
    omega

/-- Zeros may be put behind a significand of few enough bits. -/
theorem exists_canonical (hc : c < 2 ^ (f.fractionBits + 1)) (k : Nat) :
    ∃ c' s', f.Canonical c' s' ∧ c' * 2 ^ s' = c * 2 ^ k := by
  induction k with
  | zero => exact ⟨c, 0, ⟨hc, Or.inl rfl⟩, rfl⟩
  | succ k ih =>
      obtain ⟨c', s', h, heq⟩ := ih
      by_cases hfull : 2 ^ f.fractionBits ≤ c'
      · refine ⟨c', s' + 1, ⟨h.lt, Or.inr hfull⟩, ?_⟩
        rw [Nat.pow_succ, ← Nat.mul_assoc, heq, Nat.pow_succ, Nat.mul_assoc]
      · -- a number that is not full has room for one more bit
        obtain rfl := h.full.resolve_right hfull
        refine ⟨2 * c', 0, ⟨?_, Or.inl rfl⟩, ?_⟩
        · rw [Nat.pow_succ]
          omega
        · rw [Nat.pow_succ, ← Nat.mul_assoc, ← heq]
          omega

end Format

namespace Binary

open Format

variable {f : Format}

/-! ## Patterns -/

theorem toNat_ofMagnitude (negative : Bool) {m : Nat}
    (hm : m < 2 ^ f.magnitudeBits) :
    (ofMagnitude negative m : Binary f).bits.toNat
      = (if negative then 2 ^ f.magnitudeBits else 0) + m := by
  show (BitVec.ofNat f.width _).toNat = _
  rw [BitVec.toNat_ofNat, twoPow_eq]
  refine Nat.mod_eq_of_lt ?_
  rw [width, Nat.pow_succ]
  split <;> omega

theorem magnitude_ofMagnitude (negative : Bool) {m : Nat}
    (hm : m < 2 ^ f.magnitudeBits) :
    (ofMagnitude negative m : Binary f).magnitude = m := by
  rw [magnitude, toNat_ofMagnitude negative hm, twoPow_eq]
  split
  · rw [Nat.add_mod_left, Nat.mod_eq_of_lt hm]
  · rw [Nat.zero_add, Nat.mod_eq_of_lt hm]

theorem negative_eq (x : Binary f) :
    x.negative = decide (2 ^ f.magnitudeBits ≤ x.bits.toNat) :=
  BitVec.msb_eq_decide x.bits

theorem negative_ofMagnitude (negative : Bool) {m : Nat}
    (hm : m < 2 ^ f.magnitudeBits) :
    (ofMagnitude negative m : Binary f).negative = negative := by
  rw [negative_eq, toNat_ofMagnitude negative hm]
  cases negative
  · simpa using hm
  · simp

theorem magnitude_lt (x : Binary f) : x.magnitude < 2 ^ f.magnitudeBits :=
  Nat.mod_lt _ (Nat.two_pow_pos _)

/-- A pattern is its sign and its magnitude. -/
theorem ofMagnitude_magnitude (x : Binary f) :
    ofMagnitude x.negative x.magnitude = x := by
  have hbits : (ofMagnitude x.negative x.magnitude : Binary f).bits.toNat
      = x.bits.toNat := by
    have hlt : x.bits.toNat < 2 ^ (f.magnitudeBits + 1) := x.bits.isLt
    rw [Nat.pow_succ] at hlt
    rw [toNat_ofMagnitude _ x.magnitude_lt, negative_eq, magnitude, twoPow_eq]
    by_cases h : 2 ^ f.magnitudeBits ≤ x.bits.toNat
    · rw [if_pos (by simpa using h), Nat.mod_eq_sub_mod h,
        Nat.mod_eq_of_lt (by omega)]
      omega
    · rw [if_neg (by simpa using h), Nat.mod_eq_of_lt (by omega), Nat.zero_add]
  cases x with
  | mk bits => exact congrArg Binary.mk (BitVec.eq_of_toNat_eq hbits)

theorem magnitude_infinite (negative : Bool) :
    (infinite negative : Binary f).magnitude = f.infinity :=
  magnitude_ofMagnitude negative f.infinity_lt

theorem negative_infinite (negative : Bool) :
    (infinite negative : Binary f).negative = negative :=
  negative_ofMagnitude negative f.infinity_lt

/-! ## Magnitudes -/

theorem significand_eq (f : Format) (m : Nat) : significand f m =
    if m / 2 ^ f.fractionBits = 0 then m % 2 ^ f.fractionBits
    else m % 2 ^ f.fractionBits + 2 ^ f.fractionBits := rfl

theorem shift_eq (f : Format) (m : Nat) :
    shift f m = m / 2 ^ f.fractionBits - 1 := rfl

theorem canonical_magnitude (f : Format) (m : Nat) :
    f.Canonical (significand f m) (shift f m)
      ∧ m = shift f m * 2 ^ f.fractionBits + significand f m := by
  have hmod : m % 2 ^ f.fractionBits < 2 ^ f.fractionBits :=
    Nat.mod_lt _ (Nat.two_pow_pos _)
  have hdiv := Nat.div_add_mod m (2 ^ f.fractionBits)
  rw [significand_eq, shift_eq]
  by_cases h : m / 2 ^ f.fractionBits = 0
  · rw [if_pos h, h]
    rw [h] at hdiv
    refine ⟨⟨?_, Or.inl rfl⟩, by omega⟩
    rw [Nat.pow_succ]
    omega
  · rw [if_neg h]
    refine ⟨⟨?_, Or.inr (Nat.le_add_left ..)⟩, ?_⟩
    · rw [Nat.pow_succ]
      omega
    · obtain ⟨q, hq⟩ := Nat.exists_eq_succ_of_ne_zero h
      rw [hq] at hdiv ⊢
      rw [Nat.succ_sub_one]
      linarith [Nat.mul_succ (2 ^ f.fractionBits) q,
        Nat.mul_comm (2 ^ f.fractionBits) q]

theorem significand_shift_of_canonical {c s : Nat} (h : f.Canonical c s) :
    significand f (s * 2 ^ f.fractionBits + c) = c
      ∧ shift f (s * 2 ^ f.fractionBits + c) = s := by
  have hlt := h.lt
  rw [Nat.pow_succ] at hlt
  have hpos := Nat.two_pow_pos f.fractionBits
  rw [significand_eq, shift_eq]
  by_cases hfull : 2 ^ f.fractionBits ≤ c
  · obtain ⟨r, rfl⟩ := Nat.exists_eq_add_of_le hfull
    have hr : r < 2 ^ f.fractionBits := by omega
    have heq : s * 2 ^ f.fractionBits + (2 ^ f.fractionBits + r)
        = r + 2 ^ f.fractionBits * (s + 1) := by ring
    rw [heq, Nat.add_mul_mod_self_left, Nat.add_mul_div_left _ _ hpos,
      Nat.mod_eq_of_lt hr, Nat.div_eq_of_lt hr, if_neg (by omega)]
    omega
  · obtain rfl := h.full.resolve_right hfull
    have hr : c < 2 ^ f.fractionBits := by omega
    rw [Nat.zero_mul, Nat.zero_add, Nat.mod_eq_of_lt hr, Nat.div_eq_of_lt hr,
      if_pos rfl]
    exact ⟨rfl, rfl⟩

/-! ## Rounding -/

theorem roundDiv_mul (n : Nat) {den : Nat} (hden : 0 < den) :
    roundDiv (n * den) den = n := by
  unfold roundDiv
  simp only [Nat.mul_div_cancel _ hden, Nat.mul_mod_left]
  rw [if_neg (by omega)]

/-- What needs no rounding is not rounded. -/
theorem unboundedMagnitude_of_canonical {c s den : Nat}
    (h : f.Canonical c s) (hden : 0 < den) :
    unboundedMagnitude f (c * 2 ^ s * den) den
      = s * 2 ^ f.fractionBits + c := by
  unfold unboundedMagnitude
  simp only [twoPow_eq, Nat.mul_div_cancel _ hden, h.log2_sub]
  have heq : c * 2 ^ s * den = c * (den * 2 ^ s) := by ring
  rw [heq, roundDiv_mul c (Nat.mul_pos hden (Nat.two_pow_pos s))]

theorem magnitude_lt_infinity {c s : Nat} (h : f.Canonical c s)
    (htop : c * 2 ^ s < 2 ^ f.top) :
    s * 2 ^ f.fractionBits + c < f.infinity := by
  have hlt := h.lt
  have hexp := f.four_le_exponents
  -- the exponent is one of those below infinity
  have hs : s + 2 ≤ twoPow f.exponentBits - 1 := by
    rcases h.full with rfl | hfull
    · omega
    · have hpow : 2 ^ (f.fractionBits + s) < 2 ^ f.top := by
        rw [Nat.pow_add]
        exact Nat.lt_of_le_of_lt (Nat.mul_le_mul_right _ hfull) htop
      have hlt := (Nat.pow_lt_pow_iff_right (by omega)).mp hpow
      unfold top at hlt
      omega
  have hmul := Nat.mul_le_mul_right (2 ^ f.fractionBits) hs
  rw [Nat.pow_succ] at hlt
  unfold infinity
  rw [twoPow_eq f.fractionBits]
  linarith [Nat.add_mul s 2 (2 ^ f.fractionBits)]

theorem units_lt_top {m : Nat} (hm : m < f.infinity) :
    significand f m * 2 ^ shift f m < 2 ^ f.top := by
  refine (canonical_magnitude f m).1.mul_lt ?_
  have hexp := f.four_le_exponents
  have hdiv : m / 2 ^ f.fractionBits < twoPow f.exponentBits - 1 := by
    rw [Nat.div_lt_iff_lt_mul (Nat.two_pow_pos _)]
    exact hm
  rw [shift_eq, top]
  omega

theorem magnitude_ofRatio (negative : Bool) (num den : Nat) :
    (ofRatio negative num den : Binary f).magnitude = min f.infinity
      (unboundedMagnitude f (num * 2 ^ f.places) den) :=
  magnitude_ofMagnitude negative
    (Nat.lt_of_le_of_lt (Nat.min_le_left ..) f.infinity_lt)

theorem negative_ofRatio (negative : Bool) (num den : Nat) :
    (ofRatio negative num den : Binary f).negative = negative :=
  negative_ofMagnitude negative
    (Nat.lt_of_le_of_lt (Nat.min_le_left ..) f.infinity_lt)

theorem magnitude_ofRatio_le (negative : Bool) (num den : Nat) :
    (ofRatio negative num den : Binary f).magnitude ≤ f.infinity := by
  rw [magnitude_ofRatio]
  exact Nat.min_le_left ..

theorem ofRatio_zero (negative : Bool) (den : Nat) :
    (ofRatio negative 0 den : Binary f) = zero negative := by
  simp [ofRatio, unboundedMagnitude, roundDiv, zero]

/-! ## What a pattern stands for -/

/-- `x` is finite and stands for so many units, with the sign. -/
structure IsUnits (x : Binary f) (negative : Bool) (units : Nat) : Prop where
  sign : x.negative = negative
  finite : x.magnitude < f.infinity
  value : significand f x.magnitude * 2 ^ shift f x.magnitude = units

theorem IsUnits.reading {x : Binary f} {negative : Bool} {units : Nat}
    (h : x.IsUnits negative units) :
    ∃ c s, x.reading = .finite negative c s ∧ c * 2 ^ s = units := by
  refine ⟨_, _, ?_, h.value⟩
  rw [Binary.reading, if_pos h.finite, h.sign]

theorem isUnits_self {x : Binary f} (hx : x.magnitude < f.infinity) :
    x.IsUnits x.negative
      (significand f x.magnitude * 2 ^ shift f x.magnitude) :=
  ⟨rfl, hx, rfl⟩

/-- A pattern is known by what it stands for. -/
theorem IsUnits.unique {x y : Binary f} {negative : Bool} {units : Nat}
    (hx : x.IsUnits negative units) (hy : y.IsUnits negative units) :
    x = y := by
  have hrounded : ∀ z : Binary f, z.IsUnits negative units →
      z.magnitude = unboundedMagnitude f (units * 1) 1 := by
    intro z hz
    obtain ⟨hcanonical, heq⟩ := canonical_magnitude f z.magnitude
    rw [← hz.value, unboundedMagnitude_of_canonical hcanonical Nat.one_pos]
    exact heq
  calc x = ofMagnitude x.negative x.magnitude := x.ofMagnitude_magnitude.symm
    _ = ofMagnitude y.negative y.magnitude := by
        rw [hx.sign, hy.sign, hrounded x hx, hrounded y hy]
    _ = y := y.ofMagnitude_magnitude

theorem isUnits_ofMagnitude {c s : Nat} (negative : Bool)
    (h : f.Canonical c s) (htop : c * 2 ^ s < 2 ^ f.top) :
    (ofMagnitude negative (s * 2 ^ f.fractionBits + c) : Binary f).IsUnits
      negative (c * 2 ^ s) := by
  have hfinite := magnitude_lt_infinity h htop
  have hlt := Nat.lt_trans hfinite f.infinity_lt
  obtain ⟨hsignificand, hshift⟩ := significand_shift_of_canonical h
  refine ⟨negative_ofMagnitude negative hlt, ?_, ?_⟩
  · rwa [magnitude_ofMagnitude negative hlt]
  · rw [magnitude_ofMagnitude negative hlt, hsignificand, hshift]

/-- A quotient that can be written with few enough bits is hit exactly. -/
theorem ofRatio_isUnits {num den c k : Nat} (negative : Bool)
    (hc : c < 2 ^ (f.fractionBits + 1)) (hden : 0 < den)
    (hvalue : num * 2 ^ f.places = c * 2 ^ k * den)
    (htop : c * 2 ^ k < 2 ^ f.top) :
    (ofRatio negative num den : Binary f).IsUnits negative (c * 2 ^ k) := by
  obtain ⟨c', s', h, heq⟩ := exists_canonical hc k
  rw [← heq] at hvalue htop ⊢
  have hmin := Nat.min_eq_right (Nat.le_of_lt (magnitude_lt_infinity h htop))
  rw [ofRatio, twoPow_eq, hvalue, unboundedMagnitude_of_canonical h hden, hmin]
  exact isUnits_ofMagnitude negative h htop

/-- Rounding what a pattern of the format stands for gives the pattern. -/
theorem IsUnits.ofRatio_eq {x : Binary f} {negative : Bool} {units : Nat}
    (h : x.IsUnits negative units) :
    (ofRatio negative units (2 ^ f.places) : Binary f) = x := by
  have htop := units_lt_top h.finite
  have hlt := (canonical_magnitude f x.magnitude).1.lt
  rw [h.value] at htop
  have hsame : (ofRatio negative units (2 ^ f.places) : Binary f).IsUnits
      negative units := by
    rw [← h.value] at htop ⊢
    exact ofRatio_isUnits negative hlt (Nat.two_pow_pos _) rfl htop
  exact hsame.unique h

/-! ## Conversions -/

theorem IsUnits.convert_eq {g : Format} {x : Binary f} {negative : Bool}
    {units : Nat} (h : x.IsUnits negative units) :
    (x.convert : Binary g) = ofRatio negative units (2 ^ f.places) := by
  obtain ⟨c, s, hreading, hvalue⟩ := h.reading
  rw [Binary.convert, hreading]
  simp only [twoPow_eq, hvalue]

/-- A number that another format has too is kept. -/
theorem IsUnits.convert {g : Format} {x : Binary f} {negative : Bool}
    {units c k : Nat} (hx : x.IsUnits negative units)
    (hc : c < 2 ^ (g.fractionBits + 1))
    (hvalue : units * 2 ^ g.places = c * 2 ^ k * 2 ^ f.places)
    (htop : c * 2 ^ k < 2 ^ g.top) :
    (x.convert : Binary g).IsUnits negative (c * 2 ^ k) := by
  rw [hx.convert_eq]
  exact ofRatio_isUnits negative hc (Nat.two_pow_pos _) hvalue htop

/-- Integers with few enough bits are hit exactly. -/
theorem ofInt_isUnits {n : Int}
    (hn : n.natAbs < 2 ^ (f.fractionBits + 1)) :
    (ofInt n : Binary f).IsUnits (n < 0) (n.natAbs * 2 ^ f.places) := by
  refine ofRatio_isUnits _ hn Nat.one_pos (Nat.mul_one _).symm ?_
  have htop : f.fractionBits + 1 + f.places ≤ f.top := by
    cases f <;> decide
  calc n.natAbs * 2 ^ f.places
      < 2 ^ (f.fractionBits + 1) * 2 ^ f.places :=
        Nat.mul_lt_mul_of_pos_right hn (Nat.two_pow_pos _)
    _ = 2 ^ (f.fractionBits + 1 + f.places) := (Nat.pow_add ..).symm
    _ ≤ 2 ^ f.top := Nat.pow_le_pow_right (by omega) htop

theorem signed_natAbs (n : Int) : signed (n < 0) n.natAbs = n := by
  unfold signed
  by_cases h : n < 0
  · rw [if_pos (by simpa using h)]
    omega
  · rw [if_neg (by simpa using h)]
    omega

/-- The fraction is dropped, and nothing else in the range of the width. -/
theorem IsUnits.clamped_eq {x : Binary f} {negative : Bool} {units : Nat}
    (h : x.IsUnits negative units) {width : Nat}
    (hlow : -(2 ^ (width - 1) : Int) ≤ signed negative (units / 2 ^ f.places))
    (hhigh : signed negative (units / 2 ^ f.places) < 2 ^ (width - 1)) :
    x.clamped width = signed negative (units / 2 ^ f.places) := by
  obtain ⟨c, s, hreading, hvalue⟩ := h.reading
  have hbound : ((twoPow (width - 1) : Nat) : Int) = 2 ^ (width - 1) := by
    rw [twoPow_eq, Nat.cast_pow, Nat.cast_ofNat]
  rw [clamped, hreading]
  simp only [twoPow_eq s, twoPow_eq f.places, hvalue, hbound]
  omega

/-- An integer that is hit exactly is read back, if it is not clamped. -/
theorem clamped_ofInt {n : Int} {width : Nat}
    (hn : n.natAbs < 2 ^ (f.fractionBits + 1))
    (hlow : -(2 ^ (width - 1) : Int) ≤ n) (hhigh : n < 2 ^ (width - 1)) :
    (ofInt n : Binary f).clamped width = n := by
  have hwhole : signed (n < 0) (n.natAbs * 2 ^ f.places / 2 ^ f.places) = n := by
    rw [Nat.mul_div_cancel _ (Nat.two_pow_pos f.places), signed_natAbs]
  have hclamped := (ofInt_isUnits hn).clamped_eq (f := f)
    (hwhole.symm ▸ hlow) (hwhole.symm ▸ hhigh)
  exact hclamped.trans hwhole

end Binary

end Schemata
