import Schemata.Scope
import Schemata.Value.Basic

/-!
# Membership

When a value is an instance of a type. Unlike subtyping this looks at the
data: the digits of a decimal are compared with the declared precision and
scale, composite values are checked part by part, and a field that a struct
value lacks counts as null. Declared lengths of texts are not checked.

A union accepts what one of its variants accepts, and a reference what its
target accepts. Both only lead to other types for the same value, so a type
is first unfolded into alternatives that are neither unions nor references
(`Scope.accepts`); then the value decides, by recursion on the value alone.
-/

namespace Schemata

/-! ## Alternatives -/

namespace Ty

mutual

/-- Whether `test` holds of the type or, if it is a union, of a variant, a
variant of a variant and so on. -/
def anyOption (test : Ty → Bool) : Ty → Bool
  | .union _ variants => anyOptionOfList test variants
  | t => test t

def anyOptionOfList (test : Ty → Bool) : List Ty → Bool
  | [] => false
  | t :: ts => anyOption test t || anyOptionOfList test ts

end

mutual

/-- The targets of the references among the options of the type. -/
def optionTargets : Ty → List DefId
  | .union _ variants => optionTargetsOfList variants
  | .ref _ _ target => [target]
  | _ => []

def optionTargetsOfList : List Ty → List DefId
  | [] => []
  | t :: ts => optionTargets t ++ optionTargetsOfList ts

end

end Ty

namespace Scope

/-- The definitions that can be reached by unfolding alone. -/
def unfolded (S : Scope) (start : List DefId) : List DefId :=
  saturate (fun known => known.flatMap fun id =>
      ((S.find? id).map Ty.optionTargets).getD [])
    S.definitions.length start

/-- Whether some alternative into which `t` unfolds is `Any` or satisfies
`test`, a test that fails for references. -/
def accepts (S : Scope) (t : Ty) (test : Ty → Bool) : Bool :=
  let accepted (option : Ty) : Bool := option.isAny || test option
  t.anyOption accepted ||
    (S.unfolded t.optionTargets).any fun id =>
      (S.find? id).any fun d => d.anyOption accepted

end Scope

/-! ## Scalars -/

/-- A decimal fits when it has no more digits than declared. -/
def Decimal.fits (d : Decimal) (precision scale : Nat) : Bool :=
  d.precision ≤ precision && d.fractionDigits ≤ scale

def Number.hasType : Number → ScalarType → Bool
  | .tinyInt _, .tinyInt => true
  | .smallInt _, .smallInt => true
  | .int _, .int => true
  | .bigInt _, .bigInt => true
  | .float _, .float => true
  | .double _, .double => true
  | .decimal d, .decimal precision scale => d.fits precision scale
  | _, _ => false

def Scalar.hasType : Scalar → ScalarType → Bool
  | .boolean _, .boolean => true
  | .number n, t => n.hasType t
  | .date _, .date => true
  | .timestamp _, .timestamp => true
  | .text .char _, .char _ => true
  | .text .varchar _, .varchar _ => true
  | .text .string _, .string => true
  | _, _ => false

/-! ## Values -/

namespace Scope

def acceptsNull (S : Scope) (t : Ty) : Bool :=
  S.accepts t Ty.isNull

def acceptsScalar (S : Scope) (s : Scalar) (t : Ty) : Bool :=
  S.accepts t fun
    | .scalar type => s.hasType type
    | _ => false

/-- All numbers of a packed array are of one kind, so the first one
decides. -/
def acceptsFirst (S : Scope) (numbers : List Number) (t : Ty) : Bool :=
  match numbers with
  | [] => true
  | n :: _ => S.acceptsScalar (.number n) t

end Scope

namespace Value

mutual

/-- Whether the value is an instance of the type. -/
def isInstance (S : Scope) : Value → Ty → Bool
  | .null, t => S.acceptsNull t
  | .scalar s, t => S.acceptsScalar s t
  | .array items, t => S.accepts t fun
    | .array element => allInstances S items element
    | _ => false
  | .packed p, t => S.accepts t fun
    | .array element => S.acceptsFirst p.numbers element
    | _ => false
  | .tuple items, t => S.accepts t fun
    | .tuple elements => itemsAreInstances S items elements
    | _ => false
  | .map entries, t => S.accepts t fun
    | .map key value => entriesAreInstances S entries key value
    | _ => false
  | .struct fields, t => S.accepts t fun
    | .struct _ declared => declared.all fun field =>
      fieldIsInstance S fields field.1 field.2
    | _ => false
termination_by structural v => v

def allInstances (S : Scope) : List Value → Ty → Bool
  | [], _ => true
  | v :: vs, t => isInstance S v t && allInstances S vs t
termination_by structural vs => vs

/-- As many items as types, each an instance of the type in its place. -/
def itemsAreInstances (S : Scope) : List Value → List Ty → Bool
  | [], [] => true
  | v :: vs, t :: ts => isInstance S v t && itemsAreInstances S vs ts
  | _, _ => false
termination_by structural vs => vs

def entriesAreInstances (S : Scope) :
    List (Scalar × Value) → ScalarType → Ty → Bool
  | [], _, _ => true
  | (k, v) :: entries, key, value =>
    k.hasType key && isInstance S v value &&
      entriesAreInstances S entries key value
termination_by structural entries => entries

/-- Whether the field of that name, or null if there is none, is an
instance. -/
def fieldIsInstance (S : Scope) :
    List (String × Value) → String → Ty → Bool
  | [], _, t => S.acceptsNull t
  | (given, v) :: fields, name, t =>
    if given == name then isInstance S v t
    else fieldIsInstance S fields name t
termination_by structural fields => fields

end

end Value

end Schemata
