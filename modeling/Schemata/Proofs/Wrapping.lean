import Mathlib
import Schemata.Proofs.ThroughDecimal

/-!
# Conversions to integers

A number becomes an integer of `w` bits in three steps: its fraction is
dropped, floating point is clamped to 32 bits (to 64 bits for the widest
integers), and of what is left the signed residue of `w` bits is kept
(`Number.convert_wraps`).

The first step is not computed for every decimal. A scale above the number
of bits leaves nothing in front of the point, and 64 zeros behind the digits
are 64 zero bits, so in both cases the answer is zero at once. The first
shortcut keeps the integer and the second one its residue of 64 bits, hence
all residues that are asked for (`Decimal.truncated_modEq`).

The low word of a long integer can be put together from the bytes of its
shortest two's complement form (`lowWord`). If these are fewer than eight,
the missing ones repeat the sign; if they are more, the others are left out.
Byte by byte this is division by 256 with remainder, whatever the sign
(`bytesValue_take_signedBytes`), so that the word is the residue
(`lowWord_eq`).
-/

namespace Schemata

/-! ## Low words -/

/-- The bytes of the shortest two's complement form, the lowest one
first. -/
def signedBytes (n : Int) : List UInt8 :=
  if -128 ≤ n ∧ n < 128 then [UInt8.ofInt n]
  else UInt8.ofInt n :: signedBytes (n / 256)
termination_by n.natAbs
decreasing_by omega

/-- The byte that continues the form of an integer. -/
def signByte (n : Int) : UInt8 := if n < 0 then 255 else 0

/-- The natural number with these bytes, the lowest one first. -/
def bytesValue : List UInt8 → Nat
  | [] => 0
  | b :: bs => b.toNat + 256 * bytesValue bs

/-- The word whose eight bytes are the lowest ones of the integer, after
which the sign is repeated. -/
def lowWord (n : Int) : Int64 :=
  Int64.ofInt (bytesValue
    ((signedBytes n ++ List.replicate 8 (signByte n)).take 8))

theorem toNat_byte (n : Int) : ((UInt8.ofInt n).toNat : Int) = n % 256 := by
  have hnonneg : 0 ≤ n % 256 := Int.emod_nonneg n (by decide)
  show (((n % 256).toNat % 256 : Nat) : Int) = n % 256
  rw [Int.natCast_emod, Int.toNat_of_nonneg hnonneg]
  exact Int.emod_emod_of_dvd n (dvd_refl 256)

/-- One more byte is one more division. -/
theorem emod_pow_succ (n : Int) (k : Nat) :
    n % 256 ^ (k + 1) = n % 256 + 256 * (n / 256 % 256 ^ k) := by
  have hpow : (0 : Int) < 256 ^ k := by positivity
  have hbyte := Int.emod_lt_of_pos n (show (0 : Int) < 256 by decide)
  have hrest := Int.emod_lt_of_pos (n / 256) hpow
  have hsplit : n = n % 256 + 256 * (n / 256 % 256 ^ k)
      + 256 ^ (k + 1) * (n / 256 / 256 ^ k) := by
    have hfirst := Int.emod_add_mul_ediv n 256
    have hsecond := Int.emod_add_mul_ediv (n / 256) (256 ^ k)
    rw [pow_succ]
    linear_combination - hfirst - 256 * hsecond
  conv_lhs => rw [hsplit]
  rw [Int.add_mul_emod_self_left, Int.emod_eq_of_lt]
  · have := Int.emod_nonneg n (show (256 : Int) ≠ 0 by decide)
    have := Int.emod_nonneg (n / 256) hpow.ne'
    positivity
  · rw [pow_succ]
    linarith

theorem signByte_ediv (n : Int) : signByte (n / 256) = signByte n := by
  unfold signByte
  by_cases hn : n < 0
  · rw [if_pos hn, if_pos (by omega)]
  · rw [if_neg hn, if_neg (by omega)]

/-- The sign, repeated, stands for what is left of a short integer. -/
theorem bytesValue_signByte {n : Int} (h : -128 ≤ n ∧ n < 128) (k : Nat) :
    (bytesValue (List.replicate k (signByte n)) : Int)
      = n / 256 % 256 ^ k := by
  have hlow : n / 256 = if n < 0 then -1 else 0 := by
    split <;> omega
  rw [hlow, signByte]
  induction k with
  | zero => simp [bytesValue]
  | succ k ih =>
      rw [List.replicate_succ, bytesValue, Nat.cast_add, Nat.cast_mul, ih,
        emod_pow_succ]
      split <;> rfl

/-- The lowest `k` bytes of an integer are its residue. -/
theorem bytesValue_take_signedBytes (n : Int) (k : Nat) :
    (bytesValue ((signedBytes n ++ List.replicate k (signByte n)).take k) : Int)
      = n % 256 ^ k := by
  suffices h : ∀ extra : Nat, (bytesValue
      ((signedBytes n ++ List.replicate (k + extra) (signByte n)).take k) : Int)
        = n % 256 ^ k from h 0
  induction k generalizing n with
  | zero => simp [bytesValue]
  | succ k ih =>
      intro extra
      rw [signedBytes, emod_pow_succ, ← toNat_byte]
      split
      · next hshort =>
          rw [List.singleton_append, List.take_succ_cons, bytesValue,
            Nat.cast_add, Nat.cast_mul, List.take_replicate,
            Nat.min_eq_left (by omega), bytesValue_signByte hshort]
          rfl
      · rw [List.cons_append, List.take_succ_cons, bytesValue,
          Nat.cast_add, Nat.cast_mul, ← signByte_ediv, Nat.add_assoc,
          ih (n / 256) (1 + extra)]
        rfl

theorem lowWord_eq (n : Int) : lowWord n = Int64.ofInt n := by
  have hresidue := bytesValue_take_signedBytes n 8
  rw [lowWord, hresidue, Int64.ofInt_eq_iff_bmod_eq_toInt, Int64.toInt_ofInt]
  exact Int.emod_bmod n (2 ^ 64)

/-! ## Decimals -/

namespace Decimal

/-- The low word of the number without its fraction. The power of ten is
taken with the scale as a word of 32 bits, which is enough for digits of
less than `2 ^ 32` bits. -/
def wrapped (d : Decimal) : Int64 :=
  match d.scale.toInt with
  | .ofNat scale =>
    if bitCount d.unscaled.natAbs < scale then 0
    else lowWord (d.unscaled.tdiv (tenPow (scale % twoPow 32)))
  | .negSucc scale =>
    if 64 ≤ scale + 1 then 0
    else lowWord (d.unscaled * tenPow (scale + 1))

theorem wrapped_eq {d : Decimal}
    (h : bitCount d.unscaled.natAbs < 2 ^ 32) :
    d.wrapped = Int64.ofInt d.truncated := by
  unfold wrapped truncated
  cases d.scale.toInt with
  | ofNat scale =>
      by_cases hsmall : bitCount d.unscaled.natAbs < scale
      · simp only [if_pos hsmall]
        rfl
      · have hscale : scale % twoPow 32 = scale :=
          Nat.mod_eq_of_lt (Nat.lt_of_le_of_lt (Nat.le_of_not_lt hsmall) h)
        simp only [if_neg hsmall, hscale, lowWord_eq]
  | negSucc zeros =>
      by_cases hmany : 64 ≤ zeros + 1
      · simp only [if_pos hmany]
        rfl
      · simp only [if_neg hmany, lowWord_eq]

/-- The shortcuts keep the residue of 64 bits. -/
theorem truncated_modEq (d : Decimal) :
    d.truncated ≡ wholePart d.toRat [ZMOD 2 ^ 64] := by
  cases hscale : d.scale.toInt with
  | ofNat scale =>
      rw [truncated_of_nonneg (hscale ▸ Int.natCast_nonneg scale)]
  | negSucc zeros =>
      have hneg : d.scale.toInt = -((zeros + 1 : Nat) : Int) := hscale
      rw [toRat_of_neg hneg, wholePart_intCast]
      unfold truncated
      rw [hscale]
      show (if 64 ≤ zeros + 1 then 0
        else d.unscaled * tenPow (zeros + 1)) ≡ _ [ZMOD 2 ^ 64]
      split
      · next hmany =>
          have hdvd : (2 ^ 64 : Int) ∣ 10 ^ (zeros + 1) :=
            (pow_dvd_pow 2 hmany).trans (pow_dvd_pow_of_dvd (by decide) _)
          exact (Int.modEq_zero_iff_dvd.mpr (hdvd.mul_left _)).symm
      · rw [tenPow_eq, Nat.cast_pow, Nat.cast_ofNat]

end Decimal

/-! ## Floating point -/

/-- A quantity without its fraction, clamped to signed words of `width`
bits. -/
def Quantity.clamped (width : Nat) : Quantity → Int
  | .finite q =>
      max (-2 ^ (width - 1)) (min (2 ^ (width - 1) - 1) (wholePart q))
  | .infinite negative =>
      if negative then -2 ^ (width - 1) else 2 ^ (width - 1) - 1

/-- What is not a number counts as zero. -/
theorem Binary.clamped_quantity {f : Format} (x : Binary f) (width : Nat) :
    x.clamped width = (x.quantity?.map (Quantity.clamped width)).getD 0 := by
  have hbound : ((twoPow (width - 1) : Nat) : Int) = 2 ^ (width - 1) := by
    rw [twoPow_eq, Nat.cast_pow, Nat.cast_ofNat]
  unfold clamped quantity?
  cases x.reading with
  | notNumber => rfl
  | infinite negative => simp only [hbound]; rfl
  | finite negative significand shift =>
      show max _ (min _ (signed negative _)) = max _ (min _ (wholePart _))
      rw [hbound, wholePart_signed]
      rfl

/-! ## All kinds -/

/-- The number of bits of the integers of a kind. -/
def NumberKind.width? : NumberKind → Option Nat
  | .tinyInt => some 8
  | .smallInt => some 16
  | .int => some 32
  | .bigInt => some 64
  | .float | .double | .decimal => none

namespace Number

/-- The number is the integer of the kind that is the signed residue of `v`
of so many bits. -/
structure IsResidue (n : Number) (k : NumberKind) (width : Nat) (v : Int) :
    Prop where
  kind : n.kind = k
  value : n.integer? = some (v.bmod (2 ^ width))

variable {n : Number} {k : NumberKind} {w : Nat} {v : Int}

theorem isResidue_whole (hk : k.width? = some w) (n : Number) :
    (n.convert k).IsResidue k w (n.whole (max 32 w)) := by
  cases k with
  | tinyInt =>
      obtain rfl := Option.some.inj hk
      exact ⟨rfl, congrArg some Int8.toInt_ofInt⟩
  | smallInt =>
      obtain rfl := Option.some.inj hk
      exact ⟨rfl, congrArg some Int16.toInt_ofInt⟩
  | int =>
      obtain rfl := Option.some.inj hk
      exact ⟨rfl, congrArg some Int32.toInt_ofInt⟩
  | bigInt =>
      obtain rfl := Option.some.inj hk
      exact ⟨rfl, congrArg some Int64.toInt_ofInt⟩
  | float | double | decimal => cases hk

theorem width_le (hk : k.width? = some w) : w ≤ 64 := by
  cases k <;> cases hk <;> decide

/-- No more than 64 bits are asked for. -/
theorem IsResidue.congr {v' : Int} (hk : k.width? = some w)
    (h : n.IsResidue k w v) (hv : v ≡ v' [ZMOD 2 ^ 64]) :
    n.IsResidue k w v' := by
  have hmod : v ≡ v' [ZMOD (2 ^ w : Nat)] := by
    refine hv.of_dvd ?_
    rw [Nat.cast_pow, Nat.cast_ofNat]
    exact pow_dvd_pow 2 (width_le hk)
  refine ⟨h.kind, h.value.trans (congrArg some ?_)⟩
  rw [← Int.emod_bmod v, ← Int.emod_bmod v', hmod]

theorem whole_floating (hkind : n.kind = .float ∨ n.kind = .double)
    (width : Nat) :
    n.whole width = (n.quantity?.map (Quantity.clamped width)).getD 0 := by
  cases n with
  | float x => exact x.clamped_quantity width
  | double x => exact x.clamped_quantity width
  | _ => simp [Number.kind] at hkind

/-- Conversion to integers of `w` bits keeps the signed residue of `w` bits:
of an integer itself; of a decimal without its fraction; of floating point
without its fraction, clamped to 32 bits or to the `w` bits of a wider
target, where what is not a number counts as zero. For decimals with digits
of less than `2 ^ 32` bits this is also the residue of the word that is put
together from bytes. -/
theorem convert_wraps {k : NumberKind} {w : Nat} (hk : k.width? = some w) :
    (∀ (n : Number) (v : Int), n.integer? = some v →
      (n.convert k).IsResidue k w v)
    ∧ (∀ d : Decimal,
        ((Number.decimal d).convert k).IsResidue k w (wholePart d.toRat))
    ∧ (∀ d : Decimal, Decimal.bitCount d.unscaled.natAbs < 2 ^ 32 →
        ((Number.decimal d).convert k).IsResidue k w d.wrapped.toInt)
    ∧ ∀ n : Number, (n.kind = .float ∨ n.kind = .double) →
        (n.quantity? = none → (n.convert k).IsResidue k w 0)
        ∧ ∀ q, n.quantity? = some q →
            (n.convert k).IsResidue k w (q.clamped (max 32 w)) := by
  refine ⟨fun n v hn => ?_, fun d => ?_, fun d hd => ?_, fun n hn => ?_⟩
  · rw [← whole_integer hn (max 32 w)]
    exact isResidue_whole hk n
  · exact (isResidue_whole hk (.decimal d)).congr hk d.truncated_modEq
  · refine (isResidue_whole hk (.decimal d)).congr hk ?_
    rw [Decimal.wrapped_eq hd, Int64.toInt_ofInt]
    exact (Int.bmod_emod (m := 2 ^ 64)).symm
  · have hwhole := isResidue_whole hk n
    rw [whole_floating hn] at hwhole
    refine ⟨fun hq => ?_, fun q hq => ?_⟩
    · rwa [hq] at hwhole
    · rwa [hq] at hwhole

/-- One byte is left of `300`, of `-18446744073709551621.9`, whose low word
is `-5`, of `10 ^ 20`, which is clamped, and of what is not a number. -/
theorem convert_wraps_tinyInt :
    let d : Decimal := ⟨-184467440737095516219, 1⟩
    let x : Binary .double := ⟨0x4415AF1D78B58C40⟩
    ((Number.int 300).convert .tinyInt).IsResidue .tinyInt 8 300
      ∧ ((Number.decimal d).convert .tinyInt).IsResidue .tinyInt 8
          (wholePart d.toRat)
      ∧ ((Number.decimal d).convert .tinyInt).IsResidue .tinyInt 8
          d.wrapped.toInt
      ∧ ((Number.double x).convert .tinyInt).IsResidue .tinyInt 8 (2 ^ 31 - 1)
      ∧ ((Number.float .notNumber).convert .tinyInt).IsResidue .tinyInt 8 0
      ∧ ((Number.decimal d).convert .tinyInt).integer? = some (-5)
      ∧ ((Number.double x).convert .tinyInt).integer? = some (-1) := by
  intro d x
  obtain ⟨hint, hdecimal, hbytes, hfloating⟩ :=
    convert_wraps (k := .tinyInt) (w := 8) rfl
  have hx := (Binary.isUnits_self (x := x) (by decide +kernel)).quantity
  refine ⟨hint _ _ rfl, hdecimal d, hbytes d (by decide +kernel), ?_, ?_,
    by decide +kernel, by decide +kernel⟩
  · have hclamped := (hfloating (.double x) (Or.inr rfl)).2 _ hx
    have hbound : Quantity.clamped 32 (.finite
        (signed x.negative (Binary.significand .double x.magnitude
          * 2 ^ Binary.shift .double x.magnitude) / 2 ^ Format.double.places))
        = 2 ^ 31 - 1 := by
      rw [Quantity.clamped, wholePart_signed]
      decide +kernel
    exact hbound ▸ hclamped
  · exact (hfloating (.float .notNumber) (Or.inl rfl)).1 (by decide +kernel)

end Number

end Schemata
