import Mathlib
import Schemata.Proofs.CorrectRounding
import Schemata.Proofs.Expansion

/-!
# Decimals in between

A number that is converted to a decimal and from there to another kind ends
where the direct conversion ends (`Number.convert_through_decimal`). Nothing
is lost on the way to the decimal; the question is whether the way from it
is the same as the direct one, which is computed quite differently.

Both ways to floating point end at the number nearest to the value, and
there is only one (`Decimal.toBinary_ofBinary`). Both ways to an integer drop
the fraction of the value (`Decimal.truncated_ofBinary`), so that they differ
only where the direct one clamps it.

What a decimal does not have is the sign of a zero. That is why the ends
are equal as numbers, and the same pattern only if the number is not zero.
-/

namespace Schemata

/-! ## Dropping the fraction -/

/-- A rational number without its fraction. -/
def wholePart (q : ℚ) : Int := if 0 ≤ q then ⌊q⌋ else ⌈q⌉

theorem wholePart_intCast (v : Int) : wholePart v = v := by
  unfold wholePart
  split
  · exact Int.floor_intCast v
  · exact Int.ceil_intCast v

theorem wholePart_neg (q : ℚ) : wholePart (-q) = -wholePart q := by
  unfold wholePart
  rcases lt_trichotomy q 0 with hq | rfl | hq
  · rw [if_pos (by linarith), if_neg (by linarith), Int.floor_neg]
  · simp
  · rw [if_neg (by linarith), if_pos (by linarith), Int.ceil_neg]

/-- Dropping the fraction of a quotient is division toward zero. -/
theorem wholePart_div (m : Int) (n : Nat) :
    wholePart (m / n) = m.tdiv n := by
  have hnonneg : ∀ k : Int, 0 ≤ k → wholePart (k / n) = k.tdiv n := by
    intro k hk
    have hle : (0 : ℚ) ≤ k / n :=
      div_nonneg (Int.cast_nonneg hk) n.cast_nonneg
    rw [wholePart, if_pos hle, Rat.floor_intCast_div_natCast,
      Int.tdiv_eq_ediv_of_nonneg hk]
  rcases Int.le_total 0 m with hm | hm
  · exact hnonneg m hm
  · have hneg := hnonneg (-m) (Int.neg_nonneg_of_nonpos hm)
    rwa [Int.cast_neg, neg_div, wholePart_neg, Int.neg_tdiv,
      neg_inj] at hneg

theorem wholePart_signed (negative : Bool) (units places : Nat) :
    wholePart (signed negative units / 2 ^ places)
      = signed negative (units / 2 ^ places) := by
  rw [← signed_tdiv, ← wholePart_div, Nat.cast_pow, Nat.cast_ofNat]

namespace Decimal

theorem lt_two_pow_bitCount (n : Nat) : n < 2 ^ bitCount n := by
  unfold bitCount
  by_cases hn : n = 0
  · rw [if_pos hn, hn]
    decide
  · rw [if_neg hn]
    exact Nat.lt_log2_self

/-- The integer part is not computed if there is nothing in front of the
point, which makes no difference. -/
theorem truncated_ofNat {d : Decimal} {scale : Nat}
    (h : d.scale.toInt = scale) :
    d.truncated = d.unscaled.tdiv (10 ^ scale : Nat) := by
  unfold truncated
  rw [h]
  show (if bitCount d.unscaled.natAbs < scale then 0
    else d.unscaled.tdiv (tenPow scale)) = _
  by_cases hsmall : bitCount d.unscaled.natAbs < scale
  · have hlt : d.unscaled.natAbs < 10 ^ scale :=
      calc d.unscaled.natAbs < 2 ^ bitCount d.unscaled.natAbs :=
            lt_two_pow_bitCount _
        _ ≤ 2 ^ scale := Nat.pow_le_pow_right (by decide) hsmall.le
        _ ≤ 10 ^ scale := Nat.pow_le_pow_left (by decide) scale
    have hzero : (d.unscaled.tdiv (10 ^ scale : Nat)).natAbs = 0 := by
      rw [Int.natAbs_tdiv, Int.natAbs_natCast]
      exact Nat.div_eq_of_lt hlt
    rw [if_pos hsmall, Int.natAbs_eq_zero.mp hzero]
  · rw [if_neg hsmall, tenPow_eq]

theorem truncated_of_nonneg {d : Decimal} (h : 0 ≤ d.scale.toInt) :
    d.truncated = wholePart d.toRat := by
  obtain ⟨scale, hscale⟩ := Int.eq_ofNat_of_zero_le h
  rw [truncated_ofNat hscale, toRat_of_nonneg hscale, wholePart_div]

/-! ## The decimal of a pattern -/

variable {f : Format} {x : Binary f} {negative : Bool} {units : Nat}

/-- Dropping the fraction of the decimal gives the same integer as dropping
the one of the pattern. -/
theorem truncated_ofBinary (h : x.IsUnits negative units) :
    (ofBinary x).truncated = signed negative (units / 2 ^ f.places) := by
  have hlowest := isLowest_ofBinary h
  rw [truncated_of_nonneg hlowest.nonneg, hlowest.value, wholePart_signed]

/-- The way back from the decimal rounds the value of the pattern. -/
theorem toBinary_ofBinary {g : Format} (h : x.IsUnits negative units)
    (hunits : units ≠ 0) :
    ((ofBinary x).toBinary : Binary g)
      = .ofRatio negative units (2 ^ f.places) := by
  have hlowest := isLowest_ofBinary h
  have hscale : (ofBinary x).scale.toInt ≠ -2 ^ 63 := by
    have := hlowest.nonneg
    omega
  have hsigned : signed negative units ≠ 0 := by
    rwa [← Int.natAbs_ne_zero, natAbs_signed]
  have hvalue : (signed negative units : ℚ) / 2 ^ f.places ≠ 0 :=
    div_ne_zero (Int.cast_ne_zero.mpr hsigned) (by positivity)
  have hnearest : ((ofBinary x).toBinary : Binary g).IsNearest
      (signed negative units / 2 ^ f.places) :=
    hlowest.value ▸ isNearest_toBinary hscale
  exact hnearest.unique hvalue (Binary.isNearest_units ..)

theorem toBinary_ofBinary_zero {g : Format} (h : x.IsUnits negative 0) :
    ((ofBinary x).toBinary : Binary g) = .zero false := by
  have hvalue := (isLowest_ofBinary h).value
  rw [signed_zero, Int.cast_zero, zero_div, toRat_eq_zero_iff] at hvalue
  rw [toBinary, hvalue]
  exact nearest_zero _ _

/-- The decimal of an integer rounds as the integer. -/
theorem toBinary_ofInt (v : Int) :
    ((ofInt v).toBinary : Binary f) = .ofInt v := by
  have hscale : (-(ofInt v).scale).toInt = -((0 : Nat) : Int) := by
    show (-(0 : Int64)).toInt = _
    decide
  rw [toBinary, hscale, Binary.ofInt]
  show nearest (v < 0) v.natAbs (-((0 : Nat) : Int)) = _
  by_cases hzero : v.natAbs = 0
  · rw [hzero, nearest_zero, Binary.ofRatio_zero]
    exact congrArg _ (by simp [Int.natAbs_eq_zero.mp hzero])
  · exact nearest_fraction _ hzero 0

end Decimal

/-! ## All kinds -/

/-- The numbers that no conversion of floating point to the kind clamps:
what is left without the fraction is in the range of 32 bits, or of 64 bits
for the widest integers. -/
def NumberKind.Unclamped (q : ℚ) : NumberKind → Prop
  | .tinyInt | .smallInt | .int =>
      -2 ^ 31 ≤ wholePart q ∧ wholePart q < 2 ^ 31
  | .bigInt => -2 ^ 63 ≤ wholePart q ∧ wholePart q < 2 ^ 63
  | .float | .double | .decimal => True

namespace Number

variable {n : Number} {negative : Bool} {units places : Nat}

/-- An integer goes the same way through its decimal. -/
theorem convert_decimal_integer {v : Int} (hn : n.integer? = some v)
    (k : NumberKind) : (n.convert .decimal).convert k = n.convert k := by
  have hdecimal : n.convert .decimal = .decimal (.ofInt v) :=
    congrArg Number.decimal (toDecimal_integer hn)
  have hwhole : ∀ width, (Number.decimal (.ofInt v)).whole width
      = n.whole width := by
    intro width
    rw [whole_integer hn]
    exact Decimal.truncated_ofInt v
  rw [hdecimal]
  cases k with
  | tinyInt => simp only [convert, toTinyInt, hwhole]
  | smallInt => simp only [convert, toSmallInt, hwhole]
  | int => simp only [convert, toInt, hwhole]
  | bigInt => simp only [convert, toBigInt, hwhole]
  | float =>
      rw [convert, convert, toFloat_integer hn]
      exact congrArg Number.float (Decimal.toBinary_ofInt v)
  | double =>
      rw [convert, convert, toDouble_integer hn]
      exact congrArg Number.double (Decimal.toBinary_ofInt v)
  | decimal => exact hdecimal.symm

/-- An integer stands for something in every kind. -/
theorem isSome_quantity_integer {v : Int} (hn : n.integer? = some v)
    (k : NumberKind) : (n.convert k).quantity?.isSome = true := by
  cases k with
  | float =>
      show n.toFloat.quantity?.isSome = true
      rw [toFloat_integer hn, Binary.isSome_quantity_iff]
      exact Binary.magnitude_ofRatio_le ..
  | double =>
      show n.toDouble.quantity?.isSome = true
      rw [toDouble_integer hn, Binary.isSome_quantity_iff]
      exact Binary.magnitude_ofRatio_le ..
  | _ => rfl

/-- What the conversions of a finite pattern come to, directly and through
its decimal. -/
structure Dyadic (n : Number) (negative : Bool) (units places : Nat) :
    Prop where
  whole : ∀ width : Nat,
    -(2 ^ (width - 1) : Int) ≤ signed negative (units / 2 ^ places) →
    signed negative (units / 2 ^ places) < 2 ^ (width - 1) →
    n.whole width = signed negative (units / 2 ^ places)
  toFloat : n.toFloat = .ofRatio negative units (2 ^ places)
  toDouble : n.toDouble = .ofRatio negative units (2 ^ places)
  truncated : n.toDecimal.truncated = signed negative (units / 2 ^ places)
  toBinary : ∀ f : Format, units ≠ 0 →
    (n.toDecimal.toBinary : Binary f) = .ofRatio negative units (2 ^ places)
  toBinary_zero : ∀ f : Format, units = 0 →
    (n.toDecimal.toBinary : Binary f) = .zero false

theorem dyadic_float {x : Binary .single} (h : x.IsUnits negative units) :
    (Number.float x).Dyadic negative units Format.single.places where
  whole _ := h.clamped_eq
  toFloat := h.ofRatio_eq.symm
  toDouble := h.convert_eq
  truncated := Decimal.truncated_ofBinary h
  toBinary _ := Decimal.toBinary_ofBinary h
  toBinary_zero _ hzero := Decimal.toBinary_ofBinary_zero (hzero ▸ h)

theorem dyadic_double {x : Binary .double} (h : x.IsUnits negative units) :
    (Number.double x).Dyadic negative units Format.double.places where
  whole _ := h.clamped_eq
  toFloat := h.convert_eq
  toDouble := h.ofRatio_eq.symm
  truncated := Decimal.truncated_ofBinary h
  toBinary _ := Decimal.toBinary_ofBinary h
  toBinary_zero _ hzero := Decimal.toBinary_ofBinary_zero (hzero ▸ h)

/-- Floating point that stands for a rational number. -/
theorem exists_dyadic {q : ℚ} (hkind : n.kind = .float ∨ n.kind = .double)
    (hn : n.quantity? = some (.finite q)) :
    ∃ negative units places, n.Dyadic negative units places
      ∧ q = signed negative units / 2 ^ places := by
  cases n with
  | float x =>
      obtain ⟨negative, units, hx, hq⟩ := Binary.exists_isUnits hn
      exact ⟨negative, units, _, dyadic_float hx, hq⟩
  | double x =>
      obtain ⟨negative, units, hx, hq⟩ := Binary.exists_isUnits hn
      exact ⟨negative, units, _, dyadic_double hx, hq⟩
  | _ => simp [kind] at hkind

namespace Dyadic

/-- The way through the decimal leads to the same integer, unless the direct
one clamps it. -/
theorem whole_decimal (h : n.Dyadic negative units places) (width : Nat)
    (hlow : -(2 ^ (width - 1) : Int)
      ≤ wholePart (signed negative units / 2 ^ places))
    (hhigh : wholePart (signed negative units / 2 ^ places)
      < 2 ^ (width - 1)) :
    (n.convert .decimal).whole width = n.whole width := by
  rw [wholePart_signed] at hlow hhigh
  rw [h.whole width hlow hhigh]
  exact h.truncated

/-- Rounded from the decimal or directly, the numbers are equal. -/
theorem toBinary_beq (h : n.Dyadic negative units places) (f : Format) :
    ((n.toDecimal.toBinary : Binary f)
      == .ofRatio negative units (2 ^ places)) = true := by
  rw [Binary.beq_iff]
  by_cases hunits : units = 0
  · rw [h.toBinary_zero f hunits, hunits, Binary.ofRatio_zero]
    have hzero : ∀ negative,
        (Binary.zero negative : Binary f).quantity? = some (.finite 0) := by
      intro negative
      refine Binary.quantity_zero (Binary.magnitude_ofMagnitude negative ?_)
      exact Nat.two_pow_pos _
    exact ⟨_, hzero false, hzero negative⟩
  · rw [h.toBinary f hunits]
    obtain ⟨q, hq⟩ := Option.isSome_iff_exists.mp (Binary.isSome_quantity_iff.mpr
      (Binary.magnitude_ofRatio_le (f := f) negative units (2 ^ places)))
    exact ⟨q, hq, hq⟩

theorem convert_decimal_beq (h : n.Dyadic negative units places)
    {k : NumberKind} (hk : k.Unclamped (signed negative units / 2 ^ places)) :
    ((n.convert .decimal).convert k == n.convert k) = true := by
  cases k with
  | tinyInt =>
      rw [convert, convert, toTinyInt, toTinyInt,
        h.whole_decimal 32 hk.1 hk.2]
      exact beq_self rfl
  | smallInt =>
      rw [convert, convert, toSmallInt, toSmallInt,
        h.whole_decimal 32 hk.1 hk.2]
      exact beq_self rfl
  | int =>
      rw [convert, convert, toInt, toInt,
        h.whole_decimal 32 hk.1 hk.2]
      exact beq_self rfl
  | bigInt =>
      rw [convert, convert, toBigInt, toBigInt,
        h.whole_decimal 64 hk.1 hk.2]
      exact beq_self rfl
  | float =>
      show (n.toDecimal.toBinary == n.toFloat) = true
      rw [h.toFloat]
      exact h.toBinary_beq .single
  | double =>
      show (n.toDecimal.toBinary == n.toDouble) = true
      rw [h.toDouble]
      exact h.toBinary_beq .double
  | decimal => exact beq_self rfl

/-- A pattern other than a zero is found again from its decimal. -/
theorem convert_decimal_self (h : n.Dyadic negative units places)
    (hkind : n.kind = .float ∨ n.kind = .double) (hunits : units ≠ 0) :
    (n.convert .decimal).convert n.kind = n := by
  cases n with
  | float x =>
      refine congrArg Number.float ?_
      exact (h.toBinary .single hunits).trans h.toFloat.symm
  | double x =>
      refine congrArg Number.double ?_
      exact (h.toBinary .double hunits).trans h.toDouble.symm
  | _ => simp [kind] at hkind

end Dyadic

/-- Converting to the own kind changes nothing. -/
theorem convert_kind (hkind : n.kind = .float ∨ n.kind = .double) :
    n.convert n.kind = n := by
  cases n with
  | float x => rfl
  | double x => rfl
  | _ => simp [kind] at hkind

/-- An integer is converted to any kind as its decimal is. Floating point
that stands for a number is converted as its decimal is, up to equality,
unless the direct way to an integer clamps it. In particular it is found
again from its decimal, and this is the very pattern unless it is a zero. -/
theorem convert_through_decimal :
    (∀ (n : Number) (v : Int), n.integer? = some v → ∀ k,
      (n.convert .decimal).convert k = n.convert k
      ∧ ((n.convert .decimal).convert k == n.convert k) = true)
    ∧ ∀ (n : Number) (q : ℚ), (n.kind = .float ∨ n.kind = .double) →
        n.quantity? = some (.finite q) →
        (∀ k : NumberKind, k.Unclamped q →
          ((n.convert .decimal).convert k == n.convert k) = true)
        ∧ ((n.convert .decimal).convert n.kind == n) = true
        ∧ (q ≠ 0 → (n.convert .decimal).convert n.kind = n) := by
  refine ⟨fun n v hn k => ⟨convert_decimal_integer hn k, ?_⟩, ?_⟩
  · rw [convert_decimal_integer hn k]
    exact beq_self (isSome_quantity_integer hn k)
  · intro n q hkind hn
    obtain ⟨negative, units, places, hdyadic, rfl⟩ := exists_dyadic hkind hn
    refine ⟨fun k hk => hdyadic.convert_decimal_beq hk, ?_, fun hq => ?_⟩
    · have hfloating : n.kind.Unclamped (signed negative units / 2 ^ places) := by
        rcases hkind with h | h <;> rw [h] <;> trivial
      have hbeq := hdyadic.convert_decimal_beq hfloating
      rwa [convert_kind hkind] at hbeq
    · refine hdyadic.convert_decimal_self hkind fun hzero => hq ?_
      rw [hzero, signed_zero, Int.cast_zero, zero_div]

end Number

/-- An integer with too many bits for a `Double`, the number `-2.5`, and the
negative zero, whose sign is lost. -/
theorem Number.convert_through_decimal_zero :
    let wide : Number := .bigInt 9007199254740993
    let x : Binary .double := ⟨0xC004000000000000⟩
    let zero : Binary .double := ⟨0x8000000000000000⟩
    ((wide.convert .decimal).convert .double == wide.convert .double) = true
      ∧ (((Number.double x).convert .decimal).convert .tinyInt
          == (Number.double x).convert .tinyInt) = true
      ∧ ((Number.double x).convert .tinyInt == .tinyInt (-2)) = true
      ∧ (((Number.double zero).convert .decimal).convert .double
          == .double zero) = true := by
  intro wide x zero
  have hx := (Binary.isUnits_self (x := x) (by decide +kernel)).quantity
  have hzero := (Binary.isUnits_self (x := zero) (by decide +kernel)).quantity
  obtain ⟨hintegers, hfloating⟩ := Number.convert_through_decimal
  refine ⟨(hintegers wide _ rfl .double).2, ?_, by decide +kernel, ?_⟩
  · refine (hfloating (.double x) _ (Or.inr rfl) hx).1 .tinyInt ?_
    simp only [NumberKind.Unclamped, wholePart_signed]
    decide +kernel
  · exact (hfloating (.double zero) _ (Or.inr rfl) hzero).2.1

end Schemata
