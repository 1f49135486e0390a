/-!
# Types

The types of tabular data. Scalar types are kept apart (`ScalarType`),
because they are what a map key may have.

Structs and unions carry a `Label`. A plain one may have a name, which is
only a matter of display. One that refers to itself is *recursive*: it
always has a name, which is its identity in comparisons, and it has a
`DefId`, which is what its self-references point to.

A self-reference (`Ty.ref`) does not contain its target, so every type is a
finite tree. `Ty.parts` lists that tree, `Schemata.Ty.Contents` says what
matters of it; whether a reference can be followed is a question about what
else is held (`Schemata.Scope`).
-/

namespace Schemata

/-! ## Descriptions -/

/-- The types of the values that have no parts. -/
inductive ScalarType where
  | boolean
  | tinyInt
  | smallInt
  | int
  | bigInt
  | float
  | double
  | decimal (precision scale : Nat)
  | date
  | timestamp
  | char (length : Nat)
  | varchar (length : Nat)
  | string
deriving DecidableEq

/-- The two forms that a definition can have. -/
inductive Form where
  | struct
  | union
deriving DecidableEq

/-- Identity of a recursive definition. -/
abbrev DefId := Nat

/-- What a struct or union is known by. -/
inductive Label where
  | plain (name : Option String)
  | recursive (name : String) (id : DefId)
deriving DecidableEq

inductive Ty where
  /-- The type of all values. -/
  | any
  /-- The type of the null value. -/
  | null
  | scalar (s : ScalarType)
  | array (element : Ty)
  | tuple (elements : List Ty)
  | map (key : ScalarType) (value : Ty)
  | struct (label : Label) (fields : List (String × Ty))
  | union (label : Label) (variants : List Ty)
  /-- A reference to the definition `target`, from inside of it. -/
  | ref (form : Form) (name : String) (target : DefId)

instance : Inhabited Ty := ⟨.any⟩

/-! ## Properties -/

namespace ScalarType

def isNumeric : ScalarType → Bool
  | .tinyInt | .smallInt | .int | .bigInt | .float | .double
  | .decimal .. => true
  | _ => false

end ScalarType

namespace Label

def name? : Label → Option String
  | .plain name => name
  | .recursive name _ => some name

def isRecursive : Label → Bool
  | .plain _ => false
  | .recursive .. => true

def id? : Label → Option DefId
  | .plain _ => none
  | .recursive _ id => some id

end Label

namespace Ty

def isAny : Ty → Bool
  | .any => true
  | _ => false

def isNull : Ty → Bool
  | .null => true
  | _ => false

def isScalar : Ty → Bool
  | .scalar _ => true
  | _ => false

def isNumeric : Ty → Bool
  | .scalar s => s.isNumeric
  | _ => false

/-- Recursive definitions and references to them. -/
def isRecursive : Ty → Bool
  | .struct label _ => label.isRecursive
  | .union label _ => label.isRecursive
  | .ref .. => true
  | _ => false

/-- The declared name of a struct, a union or the target of a reference. -/
def name? : Ty → Option String
  | .struct label _ => label.name?
  | .union label _ => label.name?
  | .ref _ name _ => some name
  | _ => none

/-- The identity of a recursive definition. -/
def defId? : Ty → Option DefId
  | .struct label _ => label.id?
  | .union label _ => label.id?
  | _ => none

/-- The definition that a reference points to. -/
def target? : Ty → Option DefId
  | .ref _ _ target => some target
  | _ => none

/-! ## Components -/

def scalar? : Ty → Option ScalarType
  | .scalar s => some s
  | _ => none

def element? : Ty → Option Ty
  | .array element => some element
  | _ => none

def elements? : Ty → Option (List Ty)
  | .tuple elements => some elements
  | _ => none

def item? (t : Ty) (i : Nat) : Option Ty := t.elements?.bind fun ts => ts[i]?

def key? : Ty → Option ScalarType
  | .map key _ => some key
  | _ => none

def value? : Ty → Option Ty
  | .map _ value => some value
  | _ => none

def field? (t : Ty) (name : String) : Option Ty :=
  match t with
  | .struct _ fields => fields.lookup name
  | _ => none

def variant? (t : Ty) (i : Nat) : Option Ty :=
  match t with
  | .union _ variants => variants[i]?
  | _ => none

/-! ## Parts

Everything that a type holds: itself, its components, their components
and so on. References are parts, their targets are not. -/

mutual

def parts : Ty → List Ty
  | .any => [.any]
  | .null => [.null]
  | .scalar s => [.scalar s]
  | .array element => .array element :: element.parts
  | .tuple elements => .tuple elements :: partsOfList elements
  | .map key value => .map key value :: .scalar key :: value.parts
  | .struct label fields => .struct label fields :: partsOfFields fields
  | .union label variants => .union label variants :: partsOfList variants
  | .ref form name target => [.ref form name target]

def partsOfList : List Ty → List Ty
  | [] => []
  | t :: ts => t.parts ++ partsOfList ts

def partsOfFields : List (String × Ty) → List Ty
  | [] => []
  | (_, t) :: fields => t.parts ++ partsOfFields fields

end

end Ty

end Schemata
