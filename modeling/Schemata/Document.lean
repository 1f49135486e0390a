/-!
# Documents

The data model in which diagnostics are exchanged: a tree of records,
lists, texts and numbers. A number is `mantissa / 10 ^ places`, so that
reading one loses nothing; it is an integer when it has no places.
-/

namespace Schemata

inductive Document where
  | null
  | boolean (value : Bool)
  | number (mantissa : Int) (places : Nat)
  | text (value : String)
  | list (items : List Document)
  | record (fields : List (String × Document))

instance : Inhabited Document := ⟨.null⟩

namespace Document

def integer (n : Int) : Document := .number n 0

def text? : Document → Option String
  | .text value => some value
  | _ => none

/-- A number without places that a 16-bit word can hold. -/
def word? : Document → Option UInt16
  | .number (.ofNat n) 0 => if n < UInt16.size then some n.toUInt16 else none
  | _ => none

end Document

end Schemata
