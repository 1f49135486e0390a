import Schemata.Number.Binary

/-!
# The shortest decimal that reads back

A finite positive number of a binary format is the nearest one to all reals
of an interval around it, whose ends belong to it when the significand is
even. Its shortest decimal is the multiple of the largest possible power of
ten that lies in the interval; of two neighbouring multiples the nearer one
is taken, and the upper one if they are equally near.

Reals are written as multiples of `10 ^ -places / (4 * 2 ^ places)`, in which
the number itself, the ends of the interval and all powers of ten down to
`10 ^ -places` are natural numbers. On the finest of these grids the number
itself is a grid point, so the search always succeeds.
-/

namespace Schemata.Shortest

/-- The number, with the interval of what rounds to it. -/
structure Target where
  value : Nat
  lower : Nat
  upper : Nat
  closed : Bool

/-- The target of `significand * 2 ^ shift` units. The gap below a power of
two is half as wide as the one above it, unless it is the least gap. -/
def Target.of (f : Format) (significand shift : Nat) : Target :=
  let fine := tenPow f.places
  let value := 4 * significand * twoPow shift
  let above := 2 * twoPow shift
  let below :=
    if significand = twoPow f.fractionBits ∧ shift ≠ 0 then twoPow shift
    else above
  { value := value * fine
    lower := (value - below) * fine
    upper := (value + above) * fine
    closed := significand % 2 = 0 }

/-- Whether a real rounds to the number. -/
def Target.contains (t : Target) (x : Nat) : Bool :=
  if t.closed then t.lower ≤ x && x ≤ t.upper
  else t.lower < x && x < t.upper

/-- The multiplier of the best multiple of `step` that rounds to the
number, if one does. -/
def Target.best? (t : Target) (step : Nat) : Option Nat :=
  let below := t.value / step
  let above := below + 1
  match t.contains (below * step), t.contains (above * step) with
  | true, true =>
    some (if 2 * (t.value % step) < step then below else above)
  | true, false => some below
  | false, true => some above
  | false, false => none

/-- Searches the grids of `10 ^ grid`, `10 ^ (grid - 1)` and so on, in units
of `10 ^ -places`. -/
def search (t : Target) (unit : Nat) : Nat → Nat × Nat
  | 0 => ((t.best? unit).getD (t.value / unit), 0)
  | grid + 1 =>
    match t.best? (unit * tenPow (grid + 1)) with
    | some digits => (digits, grid + 1)
    | none => search t unit grid

/-- Digits and decimal exponent of the shortest decimal that reads back as
`significand * 2 ^ shift` units. -/
def digits (f : Format) (significand shift : Nat) : Nat × Int :=
  let whole := significand * twoPow shift / twoPow f.places
  let (digits, grid) :=
    search (Target.of f significand shift) (4 * twoPow f.places)
      (f.places + whole.repr.length)
  (digits, (grid : Int) - f.places)

end Schemata.Shortest
