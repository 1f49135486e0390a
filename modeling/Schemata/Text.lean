/-!
# Pieces of text

The few text operations that every printer of the library shares:
joining with a separator, numbers padded with zeros, and quoted names.
-/

namespace Schemata.Text

/-- The items one after the other, with `separator` between neighbours. -/
def join (separator : String) : List String → String
  | [] => ""
  | [item] => item
  | item :: items => item ++ separator ++ join separator items

/-- `count` zeros. -/
def zeros (count : Nat) : String :=
  String.ofList (List.replicate count '0')

/-- The decimal digits of `n`, with zeros in front up to `width` digits. -/
def padded (width n : Nat) : String :=
  let digits := n.repr
  zeros (width - digits.length) ++ digits

/-- One character of a quoted name: the quote and the backslash are marked
by a backslash, everything else stands for itself. -/
def escaped : Char → List Char
  | '"' => ['\\', '"']
  | '\\' => ['\\', '\\']
  | c => [c]

/-- A name between quotes. -/
def quoted (name : String) : String :=
  "\"" ++ String.ofList (name.toList.flatMap escaped) ++ "\""

end Schemata.Text
