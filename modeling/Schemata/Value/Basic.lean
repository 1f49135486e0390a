import Schemata.Calendar
import Schemata.Number.Basic
import Schemata.Ty.Build

/-!
# Values

Scalars are the values without parts, and the only ones that can be map
keys. Arrays of fixed-width numbers may be *packed*; a packed array stands
for the array of its numbers.

Maps and structs keep the order in which their entries came first. They
are built by `Value.mapOf` and `Value.structOf`, where a later entry with
the same key takes the place of the earlier one.
-/

namespace Schemata

/-- The three families of text. -/
inductive TextKind where
  | char
  | varchar
  | string
deriving DecidableEq

inductive Scalar where
  | boolean (b : Bool)
  | number (n : Number)
  | date (d : Date)
  | timestamp (t : Timestamp)
  | text (kind : TextKind) (content : String)

/-- Numbers of one fixed-width kind. -/
inductive Packed where
  | tinyInt (ns : List Int8)
  | smallInt (ns : List Int16)
  | int (ns : List Int32)
  | bigInt (ns : List Int64)
  | float (xs : List (Binary .single))
  | double (xs : List (Binary .double))

inductive Value where
  | null
  | scalar (s : Scalar)
  | array (items : List Value)
  | packed (items : Packed)
  | tuple (items : List Value)
  | map (entries : List (Scalar × Value))
  | struct (fields : List (String × Value))

instance : Inhabited Value := ⟨.null⟩

/-! ## Scalars -/

/-- Equality of scalars: numbers compare as numbers. -/
protected def Scalar.beq : Scalar → Scalar → Bool
  | .boolean a, .boolean b => a == b
  | .number m, .number n => m == n
  | .date d, .date e => d == e
  | .timestamp t, .timestamp u => t == u
  | .text k s, .text l t => k == l && s == t
  | _, _ => false

instance : BEq Scalar := ⟨Scalar.beq⟩

/-! ## Packed arrays -/

namespace Packed

def numbers : Packed → List Number
  | .tinyInt ns => ns.map .tinyInt
  | .smallInt ns => ns.map .smallInt
  | .int ns => ns.map .int
  | .bigInt ns => ns.map .bigInt
  | .float xs => xs.map .float
  | .double xs => xs.map .double

/-- The type of the numbers, also when there are none. -/
def elementType : Packed → ScalarType
  | .tinyInt _ => .tinyInt
  | .smallInt _ => .smallInt
  | .int _ => .int
  | .bigInt _ => .bigInt
  | .float _ => .float
  | .double _ => .double

/-- The items of the array for which a packed array stands. -/
def items (p : Packed) : List Value :=
  p.numbers.map fun n => .scalar (.number n)

end Packed

namespace Value

def number (n : Number) : Value := .scalar (.number n)

def isNull : Value → Bool
  | .null => true
  | _ => false

def scalar? : Value → Option Scalar
  | .scalar s => some s
  | _ => none

def isScalar (v : Value) : Bool := v.scalar?.isSome

def boolean? : Value → Option Bool
  | .scalar (.boolean b) => some b
  | _ => none

def number? : Value → Option Number
  | .scalar (.number n) => some n
  | _ => none

def text? : Value → Option String
  | .scalar (.text _ content) => some content
  | _ => none

/-- The items of an array, packed or not. -/
def items? : Value → Option (List Value)
  | .array items => some items
  | .packed p => some p.items
  | _ => none

def fields? : Value → Option (List (String × Value))
  | .struct fields => some fields
  | _ => none

def entries? : Value → Option (List (Scalar × Value))
  | .map entries => some entries
  | _ => none

/-- The type of the numbers of a packed array. -/
def packedType? : Value → Option ScalarType
  | .packed p => some p.elementType
  | _ => none

/-! ## Texts of limited length -/

/-- A text, if it fits the largest type of its family. -/
def textOf (kind : TextKind) (content : String) : Except Error Value :=
  let limited (family : String) (max : Nat) : Except Error Value :=
    if max < content.length then
      .error (.textTooLong family content.length max)
    else .ok (.scalar (.text kind content))
  match kind with
  | .char => limited "char" Limit.charLength
  | .varchar => limited "varchar" Limit.varcharLength
  | .string => .ok (.scalar (.text .string content))

/-! ## Structs -/

/-- Sets a field in its place, or adds it at the end. -/
def setField : List (String × Value) → String → Value →
    List (String × Value)
  | [], name, v => [(name, v)]
  | field :: fields, name, v =>
    if field.1 == name then (field.1, v) :: fields
    else field :: setField fields name v

def structOf (fields : List (String × Value)) : Value :=
  .struct (fields.foldl (fun kept field => setField kept field.1 field.2) [])

/-- A field of a struct; an absent one is null. -/
def fieldOrNull (fields : List (String × Value)) (name : String) : Value :=
  (fields.lookup name).getD .null

/-! ## Maps -/

/-- Sets the value of a key in its place, or adds it at the end. -/
def setEntry : List (Scalar × Value) → Scalar → Value →
    List (Scalar × Value)
  | [], key, v => [(key, v)]
  | entry :: entries, key, v =>
    if entry.1 == key then (entry.1, v) :: entries
    else entry :: setEntry entries key v

/-- The value of a key; an absent one, or one that is no scalar, has
null. -/
def entryOrNull (entries : List (Scalar × Value)) (key : Value) : Value :=
  match key with
  | .scalar key =>
    match entries.find? fun entry => entry.1 == key with
    | some entry => entry.2
    | none => .null
  | _ => .null

end Value

end Schemata
