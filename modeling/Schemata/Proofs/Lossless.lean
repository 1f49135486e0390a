import Mathlib
import Schemata.Proofs.Quantity

/-!
# Which conversions lose nothing

`NumberKind.isLosslessTo` is a table. It says `true` exactly where every
number of the one kind is the same again after it has been converted to
the other kind and back (`NumberKind.isLosslessTo_exact`), infinities
included.

Where it says `true` for integers, the target has every integer of the
source exactly (`Holds`), and reading it back neither clamps nor wraps.
Where it says `true` for floating point, the target has the same number
with other places: a `Float` has fewer bits than fit into the significand
of a `Double`, and its least unit is a multiple of the least unit there.
Where it says `false` there is a number that changes
(`NumberKind.changed`): an integer with too many bits, an infinity that the
target does not have, a number that is too small for it, or a tenth.
-/

namespace Schemata

/-! ## Floating point and decimals -/

namespace Binary

/-- An infinity stays one. -/
theorem convert_infinite {f g : Format} {x : Binary f}
    (hx : x.magnitude = f.infinity) :
    (x.convert : Binary g) = infinite x.negative := by
  rw [convert, reading_infinite hx]

/-- An infinity keeps its sign, and what is not a number is none
afterwards. -/
theorem quantity_convert {f g : Format} {x : Binary f}
    (hx : f.infinity ≤ x.magnitude) :
    (x.convert : Binary g).quantity? = x.quantity? := by
  rcases Nat.eq_or_lt_of_le hx with hx | hx
  · rw [convert_infinite hx.symm, quantity_infinite hx.symm,
      quantity_infinite (magnitude_infinite _), negative_infinite]
  · have hnone : (notNumber : Binary g).quantity? = none := by
      cases g <;> decide +kernel
    rw [quantity_notNumber hx, convert, reading_notNumber hx]
    exact hnone

/-- The unit of the wider format is smaller, and its range wider by more. -/
theorem exists_widened {c s : Nat}
    (htop : c * 2 ^ s < 2 ^ Format.single.top) :
    ∃ k, c * 2 ^ s * 2 ^ Format.double.places
        = c * 2 ^ k * 2 ^ Format.single.places
      ∧ c * 2 ^ k < 2 ^ Format.double.top := by
  obtain ⟨gap, hplaces, hgap⟩ : ∃ gap,
      Format.double.places = gap + Format.single.places
        ∧ Format.single.top + gap ≤ Format.double.top :=
    ⟨925, rfl, by decide⟩
  refine ⟨s + gap, ?_, ?_⟩
  · rw [hplaces, Nat.pow_add, Nat.pow_add]
    simp only [Nat.mul_assoc]
  · calc c * 2 ^ (s + gap) = c * 2 ^ s * 2 ^ gap := by
          rw [Nat.pow_add, Nat.mul_assoc]
      _ < 2 ^ Format.single.top * 2 ^ gap :=
          Nat.mul_lt_mul_of_pos_right htop (Nat.two_pow_pos gap)
      _ = 2 ^ (Format.single.top + gap) := (Nat.pow_add ..).symm
      _ ≤ 2 ^ Format.double.top := Nat.pow_le_pow_right (by omega) hgap

/-- A `Float` is found again in a `Double`. -/
theorem convert_convert_single {x : Binary .single}
    (hx : x.magnitude ≤ Format.single.infinity) :
    ((x.convert : Binary .double).convert : Binary .single) = x := by
  rcases Nat.lt_or_eq_of_le hx with hfinite | hinfinite
  · have hself := isUnits_self hfinite
    have htop := units_lt_top hfinite
    have hlt := (canonical_magnitude .single x.magnitude).1.lt
    have hwide := Nat.lt_trans hlt
      (show _ < 2 ^ (Format.double.fractionBits + 1) by decide)
    -- the same number in the other units, there and back
    obtain ⟨k, hvalue, htop'⟩ := exists_widened htop
    have hconverted := hself.convert hwide hvalue htop'
    exact (hconverted.convert hlt hvalue.symm htop).unique hself
  · rw [convert_infinite hinfinite, convert_infinite (magnitude_infinite _),
      negative_infinite, infinite, ← hinfinite, ofMagnitude_magnitude]

end Binary

theorem Decimal.truncated_ofInt (n : Int) : (ofInt n).truncated = n := by
  show (if bitCount n.natAbs < 0 then 0 else n.tdiv (tenPow 0)) = n
  rw [if_neg (Nat.not_lt_zero _)]
  exact Int.tdiv_one n

/-! ## Integers -/

namespace NumberKind

/-- The integers that a kind has, and reads back, exactly. -/
def Holds : NumberKind → Int → Prop
  | .tinyInt, v => -2 ^ 7 ≤ v ∧ v < 2 ^ 7
  | .smallInt, v => -2 ^ 15 ≤ v ∧ v < 2 ^ 15
  | .int, v => -2 ^ 31 ≤ v ∧ v < 2 ^ 31
  | .bigInt, v => -2 ^ 63 ≤ v ∧ v < 2 ^ 63
  | .float, v => v.natAbs < 2 ^ 24
  | .double, v => v.natAbs < 2 ^ 53
  | .decimal, _ => True

/-- The width of the word to which floating point is clamped on its way to
an integer of the kind. -/
def clampWidth : NumberKind → Nat
  | .bigInt => 64
  | _ => 32

theorem Holds.of_lossless {k t : NumberKind} {v : Int}
    (h : k.isLosslessTo t = true) (hv : k.Holds v) : t.Holds v := by
  cases k with
  | tinyInt => cases t <;> simp only [Holds] at hv ⊢ <;> omega
  | smallInt =>
      cases t with
      | tinyInt => cases h
      | _ => simp only [Holds] at hv ⊢ <;> omega
  | int =>
      cases t with
      | tinyInt | smallInt | float => cases h
      | _ => simp only [Holds] at hv ⊢ <;> omega
  | bigInt =>
      cases t with
      | bigInt => exact hv
      | decimal => trivial
      | _ => cases h
  | float =>
      cases t with
      | float => exact hv
      | double => exact Nat.lt_trans hv (by decide)
      | _ => cases h
  | double =>
      cases t with
      | double => exact hv
      | _ => cases h
  | decimal =>
      cases t with
      | decimal => trivial
      | _ => cases h

end NumberKind

namespace Number

open NumberKind

/-- The value of an integer. -/
def integer? : Number → Option Int
  | .tinyInt n => some n.toInt
  | .smallInt n => some n.toInt
  | .int n => some n.toInt
  | .bigInt n => some n.toInt
  | _ => none

variable {n : Number} {v : Int}

theorem holds_integer (h : n.integer? = some v) : n.kind.Holds v := by
  cases n with
  | tinyInt m => exact Option.some.inj h ▸ ⟨m.le_toInt, m.toInt_lt⟩
  | smallInt m => exact Option.some.inj h ▸ ⟨m.le_toInt, m.toInt_lt⟩
  | int m => exact Option.some.inj h ▸ ⟨m.le_toInt, m.toInt_lt⟩
  | bigInt m => exact Option.some.inj h ▸ ⟨m.le_toInt, m.toInt_lt⟩
  | _ => cases h

theorem whole_integer (h : n.integer? = some v) (width : Nat) :
    n.whole width = v := by
  cases n <;> cases h <;> rfl

theorem toFloat_integer (h : n.integer? = some v) :
    n.toFloat = .ofInt v := by
  cases n <;> cases h <;> rfl

theorem toDouble_integer (h : n.integer? = some v) :
    n.toDouble = .ofInt v := by
  cases n <;> cases h <;> rfl

theorem toDecimal_integer (h : n.integer? = some v) :
    n.toDecimal = .ofInt v := by
  cases n <;> cases h <;> rfl

/-- What is held exactly is read back, if it is not clamped. -/
theorem whole_convert {t : NumberKind} {width : Nat}
    (hn : n.integer? = some v) (ht : t.Holds v)
    (hlow : -(2 ^ (width - 1) : Int) ≤ v) (hhigh : v < 2 ^ (width - 1)) :
    (n.convert t).whole width = v := by
  cases t with
  | tinyInt =>
      show (Int8.ofInt (n.whole 32)).toInt = v
      rw [whole_integer hn]
      exact Int8.toInt_ofInt_of_le ht.1 ht.2
  | smallInt =>
      show (Int16.ofInt (n.whole 32)).toInt = v
      rw [whole_integer hn]
      exact Int16.toInt_ofInt_of_le ht.1 ht.2
  | int =>
      show (Int32.ofInt (n.whole 32)).toInt = v
      rw [whole_integer hn]
      exact Int32.toInt_ofInt_of_le ht.1 ht.2
  | bigInt =>
      show (Int64.ofInt (n.whole 64)).toInt = v
      rw [whole_integer hn]
      exact Int64.toInt_ofInt_of_le ht.1 ht.2
  | float =>
      show n.toFloat.clamped width = v
      rw [toFloat_integer hn]
      exact Binary.clamped_ofInt ht hlow hhigh
  | double =>
      show n.toDouble.clamped width = v
      rw [toDouble_integer hn]
      exact Binary.clamped_ofInt ht hlow hhigh
  | decimal =>
      show n.toDecimal.truncated = v
      rw [toDecimal_integer hn]
      exact Decimal.truncated_ofInt v

/-- What reads as the value of an integer converts to it. -/
theorem convert_of_whole {x : Number} (hn : n.integer? = some v)
    (hx : x.whole n.kind.clampWidth = v) : x.convert n.kind = n := by
  cases n with
  | tinyInt m =>
      have hm : x.whole 32 = m.toInt := hx.trans (Option.some.inj hn).symm
      show Number.tinyInt (Int8.ofInt (x.whole 32)) = .tinyInt m
      rw [hm, Int8.ofInt_toInt]
  | smallInt m =>
      have hm : x.whole 32 = m.toInt := hx.trans (Option.some.inj hn).symm
      show Number.smallInt (Int16.ofInt (x.whole 32)) = .smallInt m
      rw [hm, Int16.ofInt_toInt]
  | int m =>
      have hm : x.whole 32 = m.toInt := hx.trans (Option.some.inj hn).symm
      show Number.int (Int32.ofInt (x.whole 32)) = .int m
      rw [hm, Int32.ofInt_toInt]
  | bigInt m =>
      have hm : x.whole 64 = m.toInt := hx.trans (Option.some.inj hn).symm
      show Number.bigInt (Int64.ofInt (x.whole 64)) = .bigInt m
      rw [hm, Int64.ofInt_toInt]
  | _ => cases hn

/-- The integers of a kind are not clamped on their way back. -/
theorem clamp_integer (h : n.integer? = some v) :
    -(2 ^ (n.kind.clampWidth - 1) : Int) ≤ v
      ∧ v < 2 ^ (n.kind.clampWidth - 1) := by
  have hholds := holds_integer h
  cases n with
  | tinyInt m =>
      simp only [kind, Holds, clampWidth] at hholds ⊢
      omega
  | smallInt m =>
      simp only [kind, Holds, clampWidth] at hholds ⊢
      omega
  | int m => exact hholds
  | bigInt m => exact hholds
  | _ => cases h

theorem convert_convert_integer {t : NumberKind} (hn : n.integer? = some v)
    (h : n.kind.isLosslessTo t = true) : (n.convert t).convert n.kind = n := by
  obtain ⟨hlow, hhigh⟩ := clamp_integer hn
  have hholds := (holds_integer hn).of_lossless h
  exact convert_of_whole hn (whole_convert hn hholds hlow hhigh)

/-! ## All kinds -/

/-- A conversion without loss can be taken back, pattern by pattern. -/
theorem convert_convert {t : NumberKind} (hn : n.quantity?.isSome = true)
    (h : n.kind.isLosslessTo t = true) : (n.convert t).convert n.kind = n := by
  cases n with
  | tinyInt m => exact convert_convert_integer rfl h
  | smallInt m => exact convert_convert_integer rfl h
  | int m => exact convert_convert_integer rfl h
  | bigInt m => exact convert_convert_integer rfl h
  | float x =>
      cases t with
      | float => rfl
      | double =>
          have hx := Binary.isSome_quantity_iff.mp hn
          exact congrArg Number.float (Binary.convert_convert_single hx)
      | _ => cases h
  | double x =>
      cases t with
      | double => rfl
      | _ => cases h
  | decimal d =>
      cases t with
      | decimal => rfl
      | _ => cases h

theorem beq_self (hn : n.quantity?.isSome = true) : (n == n) = true := by
  obtain ⟨q, hq⟩ := Option.isSome_iff_exists.mp hn
  exact beq_iff.mpr ⟨rfl, q, hq, hq⟩

end Number

/-! ## Losses -/

namespace NumberKind

/-- A number of kind `k` that `t` does not give back, if there is one. An
infinity does for floating point, unless the target has infinities too; then
it is the least positive number. -/
def changed : NumberKind → NumberKind → Number
  | .tinyInt, _ => .tinyInt 0
  | .smallInt, _ => .smallInt 128
  | .int, _ => .int 16777217
  | .bigInt, _ => .bigInt 9007199254740993
  | .float, _ => .float (.infinite false)
  | .double, .float => .double ⟨1⟩
  | .double, _ => .double (.infinite false)
  | .decimal, _ => .decimal ⟨1, 1⟩

theorem kind_changed (k t : NumberKind) : (changed k t).kind = k := by
  cases k <;> cases t <;> rfl

theorem isSome_quantity_changed (k t : NumberKind) :
    (changed k t).quantity?.isSome = true := by
  cases k <;> cases t <;> decide +kernel

theorem changed_ne {k t : NumberKind} (h : k.isLosslessTo t = false) :
    (((changed k t).convert t).convert k == changed k t) = false := by
  cases k <;> cases t <;> cases h <;> decide +kernel

/-- Numbers are equal if they are of one kind and stand for the same number
or infinity. A conversion is said to lose nothing if and only if everything
of the kind that stands for something is equal to what comes back. -/
theorem isLosslessTo_exact :
    (∀ m n : Number, (m == n) = true ↔ m.kind = n.kind
      ∧ ∃ q, m.quantity? = some q ∧ n.quantity? = some q)
    ∧ ∀ k t : NumberKind, k.isLosslessTo t = true ↔
        ∀ n : Number, n.kind = k → n.quantity?.isSome = true →
          ((n.convert t).convert k == n) = true := by
  refine ⟨fun m n => Number.beq_iff, fun k t => ⟨?_, fun hall => ?_⟩⟩
  · rintro h n rfl hn
    rw [Number.convert_convert hn h]
    exact Number.beq_self hn
  · by_contra hlossy
    have hne := changed_ne (eq_false_of_ne_true hlossy)
    rw [hall _ (kind_changed k t) (isSome_quantity_changed k t)] at hne
    cases hne

end NumberKind

end Schemata
