import Mathlib
import Schemata.Proofs.Building
import Schemata.Proofs.Membership
import Schemata.Proofs.CorrectRounding

/-!
# Decimals and their types

A decimal `m / 10 ^ e` belongs to `Decimal(p, s)` if it has no more than `p`
digits and no more than `s` of them behind the point. The digits are counted,
with the zeros that a negative scale stands for, and both counts end at a
greatest one. None of this can be seen from a valid type: its precision is
at least one, so it accepts every zero that has few enough places, and at
most 38, which is far below the greatest count. What is left is arithmetic,
`|m| * 10 ^ max(0, -e) < 10 ^ p` and `e ≤ s` (`Decimal.fits_iff`).

The natural type of a decimal is cut down to a valid one, so it may be too
small; then no decimal type is large enough. Otherwise nothing was cut off,
and it is the least type that accepts the decimal in both parameters
(`Decimal.isInstance_iff_bounds`).
-/

namespace Schemata

namespace Decimal

/-! ## Counting digits -/

theorem precision_le_iff {d : Decimal} {p : Nat} (hlow : 1 ≤ p)
    (hhigh : p < maxDigits) : d.precision ≤ p ↔
      d.unscaled.natAbs * 10 ^ (-d.scale.toInt).toNat < 10 ^ p := by
  unfold precision
  by_cases hzero : d.unscaled = 0
  · simp [hzero, hlow]
  · have hdigits : d.unscaled.natAbs ≠ 0 := Int.natAbs_ne_zero.mpr hzero
    rw [if_neg hzero, ← digitCount_add_le_iff hdigits]
    omega

theorem fractionDigits_le_iff {d : Decimal} {s : Nat} (hs : s < maxDigits) :
    d.fractionDigits ≤ s ↔ d.scale.toInt ≤ s := by
  unfold fractionDigits
  omega

theorem decimalPrecision_lt_maxDigits : Limit.decimalPrecision < maxDigits := by
  decide

theorem fits_iff {d : Decimal} {p s : Nat}
    (h : (ScalarType.decimal p s).WithinLimits) : d.fits p s = true ↔
      d.unscaled.natAbs * 10 ^ (-d.scale.toInt).toNat < 10 ^ p
        ∧ d.scale.toInt ≤ s := by
  obtain ⟨hlow, hhigh, hscale⟩ := h
  have hmax := decimalPrecision_lt_maxDigits
  rw [fits, Bool.and_eq_true, decide_eq_true_iff, decide_eq_true_iff,
    precision_le_iff hlow (by omega), fractionDigits_le_iff (by omega)]

/-! ## Types -/

/-- The covering type is valid, and the least one that is large enough if
there is one. -/
theorem coveringDecimal_least (d : Decimal) : ∃ precision scale,
    ScalarType.coveringDecimal d.precision d.fractionDigits
        = .decimal precision scale
      ∧ (ScalarType.decimal precision scale).WithinLimits
      ∧ ∀ p s, (ScalarType.decimal p s).WithinLimits → d.fits p s = true →
          d.fits precision scale = true ∧ precision ≤ p ∧ scale ≤ s := by
  refine ⟨_, _, rfl, ?_, ?_⟩
  · exact Scalar.naturalType_withinLimits (.number (.decimal d))
  · rintro p s ⟨hlow, hhigh, hscale⟩ hd
    simp only [fits, Bool.and_eq_true, decide_eq_true_iff] at hd ⊢
    omega

/-- A decimal is an instance of a valid decimal type if its digits, with the
zeros of a negative scale, are below the power of ten of the precision, and
its scale is not above that of the type. Its natural type is a valid decimal
type. It accepts the decimal if some decimal type does, and is then the
least of these in both parameters. -/
theorem isInstance_iff_bounds (S : Scope) (d : Decimal) :
    let v : Value := .number (.decimal d)
    (∀ p s t, Ty.decimal p s = .ok t → (v.isInstance S t = true ↔
      d.unscaled.natAbs * 10 ^ (-d.scale.toInt).toNat < 10 ^ p
        ∧ d.scale.toInt ≤ s))
    ∧ ∃ precision scale, Ty.decimal precision scale = .ok v.naturalType
      ∧ (v.isInstance S v.naturalType = true ↔
          ∃ p s t, Ty.decimal p s = .ok t ∧ v.isInstance S t = true)
      ∧ ∀ p s t, Ty.decimal p s = .ok t → v.isInstance S t = true →
          precision ≤ p ∧ scale ≤ s := by
  intro v
  have hfits : ∀ p s t, Ty.decimal p s = .ok t →
      (v.isInstance S t = true ↔ d.fits p s = true) := by
    intro p s t ht
    obtain ⟨rfl, -⟩ := Ty.decimal_ok_iff.mp ht
    exact Value.isInstance_scalar_iff
  obtain ⟨precision, scale, hcovering, hlimits, hleast⟩ :=
    coveringDecimal_least d
  have hnatural : Ty.decimal precision scale = .ok v.naturalType :=
    Ty.decimal_ok_iff.mpr ⟨congrArg Ty.scalar hcovering, hlimits⟩
  refine ⟨fun p s t ht => ?_, precision, scale, hnatural,
    ⟨fun h => ⟨_, _, _, hnatural, h⟩, ?_⟩, fun p s t ht hv => ?_⟩
  · rw [hfits p s t ht, fits_iff (Ty.decimal_ok_iff.mp ht).2]
  · rintro ⟨p, s, t, ht, hv⟩
    have hd := (hfits p s t ht).mp hv
    rw [hfits _ _ _ hnatural]
    exact (hleast p s (Ty.decimal_ok_iff.mp ht).2 hd).1
  · have hd := (hfits p s t ht).mp hv
    exact (hleast p s (Ty.decimal_ok_iff.mp ht).2 hd).2

/-- The number `12000`, written with two digits and a negative scale, has
five digits. -/
theorem isInstance_iff_bounds_thousands :
    let v : Value := .number (.decimal ⟨12, -3⟩)
    v.isInstance ⟨[]⟩ (.scalar (.decimal 5 0)) = true
      ∧ ¬ v.isInstance ⟨[]⟩ (.scalar (.decimal 4 4)) = true
      ∧ v.isInstance ⟨[]⟩ v.naturalType = true := by
  intro v
  obtain ⟨hbounds, precision, scale, hvalid, haccepts, hleast⟩ :=
    isInstance_iff_bounds ⟨[]⟩ ⟨12, -3⟩
  have hfive := (hbounds 5 0 (.scalar (.decimal 5 0)) rfl).mpr (by decide)
  have hfour := (hbounds 4 4 (.scalar (.decimal 4 4)) rfl).not.mpr (by decide)
  exact ⟨hfive, hfour, haccepts.mpr ⟨5, 0, _, rfl, hfive⟩⟩

end Decimal

end Schemata
