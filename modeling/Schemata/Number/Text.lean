import Schemata.Number.Basic
import Schemata.Number.Shortest
import Schemata.Text

/-!
# Numbers as text

Integers and floating point are written without an exponent. Floating point
has the fewest digits that read back in its own format, no point when it is
whole, and a sign also in front of zero.

Decimals keep their scale, except that zero is just `0`; very small ones
and very large whole ones are written with an exponent.
-/

namespace Schemata

/-- `digits / 10 ^ scale` without an exponent. -/
def positional (digits : Nat) (scale : Int) : String :=
  let text := digits.repr
  match scale with
  | .negSucc zeros => text ++ Text.zeros (zeros + 1)
  | .ofNat 0 => text
  | .ofNat places =>
    if places < text.length then
      let cut := text.length - places
      String.ofList (text.toList.take cut) ++ "." ++
        String.ofList (text.toList.drop cut)
    else "0." ++ Text.zeros (places - text.length) ++ text

def signText (negative : Bool) : String := if negative then "-" else ""

namespace Binary

def render {f : Format} (x : Binary f) : String :=
  match x.reading with
  | .notNumber => "NaN"
  | .infinite negative => signText negative ++ "inf"
  | .finite negative significand shift =>
    if significand = 0 then signText negative ++ "0"
    else
      let (digits, exponent) := Shortest.digits f significand shift
      signText negative ++ positional digits (-exponent)

end Binary

namespace Decimal

/-- More zeros than this behind the point, in front of the first other
digit, are written as an exponent. -/
def leadingZeros : Int := 5

/-- More zeros than this at the end of a whole number are written as an
exponent. -/
def trailingZeros : Int := 15

/-- One digit, the point and the others, with the exponent `E`. -/
def scientific (digits : Nat) (exponent : Int) : String :=
  match digits.repr.toList with
  | [] => ""
  | [c] => String.ofList [c] ++ "E" ++ exponent.repr
  | c :: cs =>
    String.ofList [c] ++ "." ++ String.ofList cs ++ "E" ++ exponent.repr

def render (d : Decimal) : String :=
  let digits := d.unscaled.natAbs
  let count : Int := digitCount digits
  let scale := d.scale.toInt
  if digits = 0 then "0"
  else
    signText (d.unscaled < 0) ++
    if leadingZeros < scale - count then
      scientific digits (count - scale - 1)
    else if trailingZeros < -scale then
      digits.repr ++ "e+" ++ (-scale).repr
    else positional digits scale

end Decimal

def Number.render : Number → String
  | .tinyInt n => n.toInt.repr
  | .smallInt n => n.toInt.repr
  | .int n => n.toInt.repr
  | .bigInt n => n.toInt.repr
  | .float x => x.render
  | .double x => x.render
  | .decimal d => d.render

end Schemata
