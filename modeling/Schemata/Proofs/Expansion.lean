import Mathlib
import Schemata.Proofs.Lossless

/-!
# The decimal of a floating point number

Every finite pattern stands for a number that decimals have too: `n / 2 ^ p`
is `n * 5 ^ p / 10 ^ p`. The decimal that a pattern is converted to has the
same value, and of all decimals with this value and no negative scale the
least scale (`Number.toDecimal_exact`).

The quotient is halved as long as its numerator is even and a place is left,
so in the end no place is left or the numerator is odd (`halved_lowest`).
Then the digits are odd as well, and ten does not divide them. This makes the
decimal the only one with its value that is in lowest terms
(`Decimal.IsLowest.unique`). In particular a `Float` has the decimal of the
`Double` that it widens to (`Decimal.ofBinary_widened`).

The same decimal can be computed without a loop. A `Double` is its
significand times a power of two, and if the exponent is negative, the zero
bits at the end of the significand say how many places are not needed
(`Decimal.ofDouble`). That is where the halving stops (`Decimal.halved_eq`).
-/

namespace Schemata

namespace Decimal

/-- The number is `q`, its scale is not negative, and no zero at the end of
its digits could be left out with one place. -/
structure IsLowest (d : Decimal) (q : ℚ) : Prop where
  value : d.toRat = q
  nonneg : 0 ≤ d.scale.toInt
  lowest : d.scale.toInt = 0 ∨ ¬ 10 ∣ d.unscaled

variable {d e : Decimal} {q : ℚ}

/-- A place less would leave a zero at the end. -/
theorem IsLowest.scale_le (hd : d.IsLowest q) (he : e.toRat = q)
    (hscale : 0 ≤ e.scale.toInt) : d.scale.toInt ≤ e.scale.toInt := by
  by_contra hlt
  obtain ⟨gap, hgap⟩ : ∃ gap : Nat,
      d.scale.toInt = e.scale.toInt + (gap + 1 : Nat) :=
    ⟨(d.scale.toInt - e.scale.toInt - 1).toNat, by omega⟩
  have hdigits : e.unscaled * 10 ^ (gap + 1) = d.unscaled :=
    (toRat_eq_iff hgap).mp (he.trans hd.value.symm)
  rcases hd.lowest with hzero | hten
  · omega
  · refine hten ⟨e.unscaled * 10 ^ gap, ?_⟩
    rw [← hdigits, pow_succ]
    ring

theorem IsLowest.unique (hd : d.IsLowest q) (he : e.IsLowest q) : d = e := by
  have hscale : d.scale.toInt = e.scale.toInt :=
    Int.le_antisymm (hd.scale_le he.value he.nonneg)
      (he.scale_le hd.value hd.nonneg)
  have hunscaled : d.unscaled = e.unscaled := by
    have hgap : e.scale.toInt = d.scale.toInt + (0 : Nat) := by
      simpa using hscale.symm
    have hsame := (toRat_eq_iff hgap).mp (hd.value.trans he.value.symm)
    rwa [pow_zero, mul_one] at hsame
  cases d
  cases e
  congr
  exact Int64.toInt_inj.mp hscale

/-- Halving until a number is odd or no place is left keeps the quotient. -/
theorem halved_spec (places n : Nat) :
    n * 2 ^ (halved places n).2 = (halved places n).1 * 2 ^ places
      ∧ (halved places n).2 ≤ places := by
  induction places generalizing n with
  | zero => exact ⟨rfl, Nat.le_refl 0⟩
  | succ places ih =>
      rw [halved]
      by_cases heven : n % 2 = 0
      · rw [if_pos heven]
        obtain ⟨hvalue, hle⟩ := ih (n / 2)
        refine ⟨?_, Nat.le_succ_of_le hle⟩
        have htwice : n = n / 2 * 2 := by omega
        calc n * 2 ^ (halved places (n / 2)).2
            = n / 2 * 2 ^ (halved places (n / 2)).2 * 2 := by
              rw [Nat.mul_right_comm, ← htwice]
          _ = (halved places (n / 2)).1 * 2 ^ (places + 1) := by
              rw [hvalue, Nat.pow_succ, Nat.mul_assoc]
      · rw [if_neg heven]
        exact ⟨rfl, Nat.le_refl _⟩

/-- Halving stops at an odd number unless no place is left. -/
theorem halved_lowest (places n : Nat) :
    (halved places n).2 = 0 ∨ (halved places n).1 % 2 = 1 := by
  induction places generalizing n with
  | zero => exact Or.inl rfl
  | succ places ih =>
      rw [halved]
      by_cases heven : n % 2 = 0
      · rw [if_pos heven]
        exact ih (n / 2)
      · rw [if_neg heven]
        exact Or.inr (by omega)

/-- Odd digits have no zero at the end. -/
theorem not_ten_dvd_signed (negative : Bool) {n : Nat} (hn : n % 2 = 1)
    (p : Nat) : ¬ (10 : Int) ∣ signed negative (n * 5 ^ p) := by
  intro hten
  have heven : 2 ∣ n * 5 ^ p := by
    have hdvd := Int.natAbs_dvd_natAbs.mpr hten
    rw [natAbs_signed] at hdvd
    exact Nat.dvd_trans (by decide) hdvd
  rcases (Nat.Prime.dvd_mul Nat.prime_two).mp heven with h | h
  · omega
  · exact absurd (Nat.Prime.dvd_of_dvd_pow Nat.prime_two h) (by decide)

variable {f : Format} {x : Binary f} {negative : Bool} {units : Nat}

theorem ofBinary_eq (h : x.IsUnits negative units) :
    ofBinary x = ⟨signed negative ((halved f.places units).1
      * 5 ^ (halved f.places units).2), Int64.ofInt (halved f.places units).2⟩ := by
  obtain ⟨c, s, hreading, hvalue⟩ := h.reading
  rw [ofBinary, hreading]
  simp only [twoPow_eq, hvalue]
  rfl

theorem toInt_scale {p : Nat} (hp : p ≤ f.places) :
    (Int64.ofInt p).toInt = p ∧ (-Int64.ofInt p).toInt = -p := by
  have hle := f.places_le
  rw [Int64.neg_ofInt]
  constructor <;> apply Int64.toInt_ofInt_of_le <;> omega

/-- The decimal of a finite pattern is its value in lowest terms. -/
theorem isLowest_ofBinary (h : x.IsUnits negative units) :
    (ofBinary x).IsLowest (signed negative units / 2 ^ f.places) := by
  obtain ⟨hvalue, hle⟩ := halved_spec f.places units
  have hodd := halved_lowest f.places units
  rw [ofBinary_eq h]
  generalize (halved f.places units).1 = n at hvalue hodd
  generalize (halved f.places units).2 = p at hvalue hodd hle
  generalize hd : (⟨signed negative (n * 5 ^ p), Int64.ofInt p⟩ : Decimal) = d
  have hscale : d.scale.toInt = p := hd ▸ (toInt_scale hle).1
  have hdigits : d.unscaled = signed negative (n * 5 ^ p) := hd ▸ rfl
  refine ⟨?_, ?_, ?_⟩
  · have hten : (10 : ℚ) ^ p = 2 ^ p * 5 ^ p := by
      rw [← mul_pow]
      norm_num
    have hunits : (units : ℚ) * 2 ^ p = n * 2 ^ f.places := by
      exact_mod_cast hvalue
    have hquotient : ((n * 5 ^ p : Nat) : ℚ) / (10 ^ p : Nat)
        = units / 2 ^ f.places := by
      rw [div_eq_div_iff (by positivity) (by positivity), Nat.cast_mul,
        Nat.cast_pow, Nat.cast_pow, Nat.cast_ofNat, Nat.cast_ofNat, hten]
      linear_combination - (5 : ℚ) ^ p * hunits
    rw [toRat_of_nonneg hscale, hdigits]
    exact signed_div_eq negative hquotient
  · rw [hscale]
    exact Int.natCast_nonneg p
  · rw [hscale, hdigits]
    rcases hodd with rfl | hodd
    · exact Or.inl rfl
    · exact Or.inr (not_ten_dvd_signed negative hodd p)

/-- The decimal that a pattern becomes, by what the pattern stands for: the
number in lowest terms, the widest number of 38 digits for an infinity, and
zero for what is not a number. -/
def Expands (d : Decimal) : Option Quantity → Prop
  | some (.finite q) => d.IsLowest q
  | some (.infinite negative) => d = ⟨signed negative (10 ^ 38 - 1), 0⟩
  | none => d = ⟨0, 0⟩

theorem expands_ofBinary (x : Binary f) : (ofBinary x).Expands x.quantity? := by
  rcases Nat.lt_trichotomy x.magnitude f.infinity with hx | hx | hx
  · rw [(Binary.isUnits_self hx).quantity]
    exact isLowest_ofBinary (Binary.isUnits_self hx)
  · rw [Binary.quantity_infinite hx, ofBinary, Binary.reading_infinite hx]
    rfl
  · rw [Binary.quantity_notNumber hx, ofBinary, Binary.reading_notNumber hx]
    rfl

theorem Expands.unique {o : Option Quantity} (hd : d.Expands o)
    (he : e.Expands o) : d = e := by
  match o with
  | some (.finite q) => exact IsLowest.unique hd he
  | some (.infinite negative) => exact hd.trans he.symm
  | none => exact hd.trans he.symm

/-! ## By significand and exponent -/

/-- Number of zero bits at the end of a number other than zero. -/
def trailingZeroBits (n : Nat) : Nat := padicValNat 2 n

/-- The decimal of `significand * 2 ^ exponent`. The zero bits at the end are
taken off a negative exponent at once. -/
def ofPower (negative : Bool) (significand : Nat) (exponent : Int) : Decimal :=
  let zeros := min (trailingZeroBits significand) exponent.natAbs
  let (n, e) : Nat × Int :=
    if exponent < 0 then (significand >>> zeros, exponent + zeros)
    else (significand, exponent)
  if 0 ≤ e then ofInt (signed negative (n <<< e.toNat))
  else ⟨signed negative (n * Nat.pow 5 e.natAbs), Int64.ofInt e.natAbs⟩

/-- Significand and exponent of a finite `Double`, by the fields of its
pattern. -/
def power (x : Binary .double) : Nat × Int :=
  let biased := x.bits.toNat >>> 52 &&& 0x7ff
  let fraction := x.bits.toNat &&& (1 <<< 52 - 1)
  if biased = 0 then (fraction, -1074)
  else (fraction ||| 1 <<< 52, biased - 1075)

/-- The decimal of a `Double`, by its significand and exponent. -/
def ofDouble (x : Binary .double) : Decimal :=
  match x.reading with
  | .notNumber => ofInt 0
  | .infinite negative => ofInt (signed negative widest)
  | .finite negative .. =>
    let (significand, exponent) := power x
    if significand = 0 then ofInt 0
    else ofPower negative significand exponent

theorem halved_zero (places : Nat) : halved places 0 = (0, 0) := by
  induction places with
  | zero => rfl
  | succ places ih => rw [halved, if_pos rfl, Nat.zero_div, ih]

theorem trailingZeroBits_of_odd {n : Nat} (h : ¬n % 2 = 0) :
    trailingZeroBits n = 0 :=
  padicValNat.eq_zero_of_not_dvd fun hdvd => h (Nat.mod_eq_zero_of_dvd hdvd)

theorem trailingZeroBits_mul_two_pow {n : Nat} (hn : n ≠ 0) (k : Nat) :
    trailingZeroBits (n * 2 ^ k) = trailingZeroBits n + k := by
  rw [trailingZeroBits, padicValNat.mul hn (Nat.two_pow_pos k).ne',
    padicValNat.prime_pow]
  rfl

/-- Halving stops where the zero bits or the places are used up. -/
theorem halved_eq {n : Nat} (hn : n ≠ 0) (places : Nat) :
    halved places n = (n / 2 ^ min (trailingZeroBits n) places,
      places - min (trailingZeroBits n) places) := by
  induction places generalizing n with
  | zero => simp [halved]
  | succ places ih =>
      rw [halved]
      by_cases heven : n % 2 = 0
      · obtain ⟨m, rfl⟩ := Nat.dvd_of_mod_eq_zero heven
        have hm : m ≠ 0 := fun hzero => hn (by rw [hzero])
        have hzeros : trailingZeroBits (2 * m) = trailingZeroBits m + 1 := by
          rw [Nat.mul_comm]
          exact trailingZeroBits_mul_two_pow hm 1
        rw [if_pos heven, Nat.mul_div_cancel_left m two_pos, ih hm, hzeros,
          Nat.succ_min_succ, Nat.pow_succ', Nat.mul_div_mul_left _ _ two_pos,
          Nat.succ_sub_succ]
      · rw [if_neg heven, trailingZeroBits_of_odd heven]
        simp

/-- A power that is not negative has no places behind the point. -/
theorem ofPower_ofNat (negative : Bool) (s e : Nat) :
    ofPower negative s e = ⟨signed negative (s * 2 ^ e), 0⟩ := by
  have hpos : ¬((e : Int) < 0) := by omega
  have hnonneg : (0 : Int) ≤ e := by omega
  simp only [ofPower, if_neg hpos, if_pos hnonneg, Int.toNat_natCast,
    Nat.shiftLeft_eq]
  rfl

/-- Otherwise the zero bits take away places. -/
theorem ofPower_neg (negative : Bool) (s : Nat) {places : Nat}
    (hplaces : places ≠ 0) :
    let zeros := min (trailingZeroBits s) places
    ofPower negative s (-places)
      = ⟨signed negative (s / 2 ^ zeros * 5 ^ (places - zeros)),
          Int64.ofInt (places - zeros : Nat)⟩ := by
  intro zeros
  have hneg : (-(places : Int)) < 0 := by omega
  have hle : zeros ≤ places := Nat.min_le_right ..
  simp only [ofPower, if_pos hneg, Int.natAbs_neg, Int.natAbs_natCast]
  by_cases hall : zeros = places
  · have hnonneg : 0 ≤ -(places : Int) + zeros := by omega
    have htoNat : (-(places : Int) + zeros).toNat = 0 := by omega
    rw [if_pos hnonneg, htoNat, hall, Nat.sub_self]
    show ofInt (signed negative (s >>> zeros <<< 0)) = _
    rw [hall, Nat.shiftRight_eq_div_pow, Nat.shiftLeft_zero, pow_zero, mul_one]
    rfl
  · have hnonneg : ¬(0 ≤ -(places : Int) + zeros) := by omega
    have hnatAbs : (-(places : Int) + zeros).natAbs = places - zeros := by omega
    rw [if_neg hnonneg, hnatAbs, Nat.shiftRight_eq_div_pow]
    rfl

theorem ofPower_sub (negative : Bool) {s : Nat} (hs : s ≠ 0)
    (shift places : Nat) :
    ofPower negative s (shift - places)
      = ⟨signed negative ((halved places (s * 2 ^ shift)).1
          * 5 ^ (halved places (s * 2 ^ shift)).2),
        Int64.ofInt (halved places (s * 2 ^ shift)).2⟩ := by
  have hunits : s * 2 ^ shift ≠ 0 := Nat.mul_ne_zero hs (Nat.two_pow_pos _).ne'
  rw [halved_eq hunits, trailingZeroBits_mul_two_pow hs]
  rcases Nat.lt_or_ge shift places with hlt | hle
  · obtain ⟨gap, rfl⟩ := Nat.exists_eq_add_of_le' hlt.le
    have hmin : min (trailingZeroBits s + shift) (gap + shift)
        = min (trailingZeroBits s) gap + shift := by omega
    have hexponent : (shift : Int) - (gap + shift : Nat) = -gap := by omega
    rw [hexponent, hmin, Nat.pow_add,
      Nat.mul_div_mul_right _ _ (Nat.two_pow_pos _), Nat.add_sub_add_right]
    exact ofPower_neg negative s (by omega)
  · obtain ⟨e, rfl⟩ := Nat.exists_eq_add_of_le' hle
    have hmin : min (trailingZeroBits s + (e + places)) places = places := by
      omega
    have hexponent : ((e + places : Nat) : Int) - places = e := by omega
    rw [hexponent, hmin, ofPower_ofNat, Nat.pow_add, ← Nat.mul_assoc,
      Nat.mul_div_cancel _ (Nat.two_pow_pos _), Nat.sub_self, pow_zero, mul_one]
    rfl

/-- The fields of the pattern of a `Double`. -/
theorem fields_of_double (x : Binary .double) :
    x.bits.toNat >>> 52 &&& 0x7ff = x.magnitude / 2 ^ 52
      ∧ x.bits.toNat &&& (1 <<< 52 - 1) = x.magnitude % 2 ^ 52 := by
  have hmagnitude : x.magnitude = x.bits.toNat % (2 ^ 52 * 2 ^ 11) := rfl
  constructor
  · rw [hmagnitude, Nat.mod_mul_right_div_self, Nat.shiftRight_eq_div_pow]
    exact Nat.and_two_pow_sub_one_eq_mod _ 11
  · rw [hmagnitude, Nat.mod_mul_right_mod]
    exact Nat.and_two_pow_sub_one_eq_mod _ 52

theorem power_eq (x : Binary .double) :
    power x = (Binary.significand .double x.magnitude,
      (Binary.shift .double x.magnitude : Int) - (1074 : Nat)) := by
  obtain ⟨hbiased, hfraction⟩ := fields_of_double x
  rw [power, hbiased, hfraction, Binary.significand_eq, Binary.shift_eq]
  show (if x.magnitude / 2 ^ 52 = 0 then _ else _)
    = (if x.magnitude / 2 ^ 52 = 0 then _ else _,
        ((x.magnitude / 2 ^ 52 - 1 : Nat) : Int) - _)
  by_cases hzero : x.magnitude / 2 ^ 52 = 0
  · rw [if_pos hzero, if_pos hzero, hzero]
    rfl
  · have hlt : x.magnitude % 2 ^ 52 < 2 ^ 52 := Nat.mod_lt _ (by decide)
    have hor : x.magnitude % 2 ^ 52 ||| 1 <<< 52
        = x.magnitude % 2 ^ 52 + 2 ^ 52 := by
      rw [Nat.or_comm, Nat.add_comm]
      exact (Nat.two_pow_add_eq_or_of_lt hlt 1).symm
    rw [if_neg hzero, if_neg hzero, hor]
    refine Prod.ext rfl ?_
    show ((x.magnitude / 2 ^ 52 : Nat) : Int) - 1075 = _
    omega

theorem ofDouble_eq (x : Binary .double) : ofDouble x = ofBinary x := by
  rcases Nat.lt_trichotomy x.magnitude Format.double.infinity with hx | hx | hx
  · have hunits := Binary.isUnits_self hx
    rw [ofBinary_eq hunits, ofDouble, Binary.reading, if_pos hx]
    simp only [power_eq]
    by_cases hs : Binary.significand .double x.magnitude = 0
    · rw [if_pos hs, hs, Nat.zero_mul, halved_zero, Nat.zero_mul, signed_zero]
      rfl
    · rw [if_neg hs]
      exact ofPower_sub _ hs _ 1074
  · rw [ofDouble, ofBinary, Binary.reading_infinite hx]
  · rw [ofDouble, ofBinary, Binary.reading_notNumber hx]

end Decimal

/-! ## All patterns -/

/-- A `Float` stands for the same number as the `Double` it widens to. -/
theorem Binary.quantity_widened (x : Binary .single) :
    (x.convert : Binary .double).quantity? = x.quantity? := by
  rcases Nat.lt_or_ge x.magnitude Format.single.infinity with hx | hx
  · have hself := isUnits_self hx
    have hwide := Nat.lt_trans (canonical_magnitude .single x.magnitude).1.lt
      (show _ < 2 ^ (Format.double.fractionBits + 1) by decide)
    obtain ⟨k, hvalue, htop⟩ := exists_widened (units_lt_top hx)
    rw [(hself.convert hwide hvalue htop).quantity, hself.quantity]
    refine congrArg (fun q => some (Quantity.finite q)) (signed_div_eq _ ?_)
    rw [div_eq_div_iff (by positivity) (by positivity)]
    exact_mod_cast hvalue.symm
  · exact quantity_convert hx

theorem Decimal.ofBinary_widened (x : Binary .single) :
    ofBinary x = ofBinary (x.convert : Binary .double) := by
  have hwide := expands_ofBinary (x.convert : Binary .double)
  rw [x.quantity_widened] at hwide
  exact (expands_ofBinary x).unique hwide

namespace Number

/-- Floating point becomes a decimal by the significand and the exponent of
a `Double`, a `Float` after it has been widened. -/
theorem toDecimal_eq_ofDouble :
    (∀ x, (Number.double x).toDecimal = .ofDouble x)
      ∧ ∀ x, (Number.float x).toDecimal = .ofDouble x.convert := by
  refine ⟨fun x => (Decimal.ofDouble_eq x).symm, fun x => ?_⟩
  rw [Decimal.ofDouble_eq]
  exact Decimal.ofBinary_widened x

theorem expands_toDecimal {n : Number}
    (hkind : n.kind = .float ∨ n.kind = .double) :
    n.toDecimal.Expands n.quantity? := by
  cases n with
  | float x => exact Decimal.expands_ofBinary x
  | double x => exact Decimal.expands_ofBinary x
  | _ => simp [kind] at hkind

/-- The decimal of a finite number has its value, in lowest terms, so that
no decimal with this value has fewer places behind the point. Infinities
become the widest numbers of 38 digits and what is not a number becomes
zero. A `Float` has the decimal of the `Double` that it widens to. -/
theorem toDecimal_exact :
    (∀ n : Number, (n.kind = .float ∨ n.kind = .double) →
      n.toDecimal.Expands n.quantity?
      ∧ ∀ d : Decimal, n.quantity? = some (.finite d.toRat) →
          0 ≤ d.scale.toInt → n.toDecimal.scale.toInt ≤ d.scale.toInt)
    ∧ ∀ x : Binary .single,
        (Number.float x).toDecimal = (Number.double x.convert).toDecimal := by
  refine ⟨fun n hkind => ⟨expands_toDecimal hkind, fun d hd hscale => ?_⟩,
    Decimal.ofBinary_widened⟩
  have hlowest := expands_toDecimal hkind
  rw [hd] at hlowest
  exact Decimal.IsLowest.scale_le hlowest rfl hscale

/-- The `Double` next to a tenth has 55 places behind the point. The decimal
with one zero more is the same number. -/
theorem toDecimal_exact_tenth :
    let x : Binary .double := ⟨0x3FB999999999999A⟩
    let digits := 1000000000000000055511151231257827021181583404541015625
    let d : Decimal := ⟨digits * 10, 56⟩
    (Number.double x).toDecimal.Expands (some (.finite d.toRat))
      ∧ (Number.double x).toDecimal.unscaled = digits
      ∧ (Number.double x).toDecimal.scale.toInt = 55
      ∧ (Number.double x).toDecimal.scale.toInt ≤ d.scale.toInt := by
  intro x digits d
  obtain ⟨hexpands, hleast⟩ := toDecimal_exact.1 (.double x) (Or.inr rfl)
  have hunscaled : (Number.double x).toDecimal.unscaled = digits := by
    decide +kernel
  have hscale : (Number.double x).toDecimal.scale.toInt = 55 := by
    decide +kernel
  have hx := (Binary.isUnits_self (x := x) (by decide +kernel)).quantity
  have hsame : (Number.double x).quantity? = some (.finite d.toRat) := by
    have hgap : d.scale.toInt
        = (Number.double x).toDecimal.scale.toInt + (1 : Nat) := by
      rw [hscale]
      decide
    have hvalue := (Decimal.toRat_eq_iff hgap).mpr (by rw [hunscaled, pow_one])
    have hlowest := hexpands
    rw [Number.quantity?, hx] at hlowest
    rw [← hvalue, Decimal.IsLowest.value hlowest]
    exact hx
  exact ⟨hsame ▸ hexpands, hunscaled, hscale, hleast d hsame (by decide)⟩

end Number

end Schemata
