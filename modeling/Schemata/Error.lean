import Schemata.Diagnostic

/-!
# Reasons for a refusal

An `Error` is the cause of a refusal, with the data that its wording
needs; `Error.message` is the one place where causes become text. Each
cause has a fixed code, a coarse `Error.Kind`, and a diagnostic that
repeats the full text and adds the help of its code.

Several errors may be collected in `Error.multiple`; the first of them
decides code and diagnostic.
-/

namespace Schemata

inductive Error where
  | decimalPrecision (precision max : Nat)
  | decimalScale (precision scale : Nat)
  | charLength (length max : Nat)
  | varcharLength (length max : Nat)
  | mapKey (key : String)
  | textTooLong (family : String) (length max : Nat)
  | invalidArgument (message : String)
  | unionArity (distinct : Nat)
  | anonymousRecursion (signature : String)
  | unconditionalCycle (typeName : Option String) (member : String)
  | duplicateName (name container : String)
  | unknownName (family name : String)
  | multiple (errors : List Error)

namespace Error

/-- The rule that was violated, without its details. -/
inductive Kind where
  | invalidParameter
  | invalidUnion
  | invalidRecursion
  | duplicateName
  | unknownName
  | multiple
deriving DecidableEq

def kind : Error → Kind
  | .decimalPrecision .. | .decimalScale .. | .charLength ..
  | .varcharLength .. | .mapKey .. | .textTooLong ..
  | .invalidArgument .. => .invalidParameter
  | .unionArity .. => .invalidUnion
  | .anonymousRecursion .. | .unconditionalCycle .. => .invalidRecursion
  | .duplicateName .. => .duplicateName
  | .unknownName .. => .unknownName
  | .multiple .. => .multiple

def code : Error → ErrorCode
  | .decimalPrecision .. => ⟨1⟩
  | .decimalScale .. => ⟨2⟩
  | .charLength .. => ⟨3⟩
  | .varcharLength .. => ⟨4⟩
  | .mapKey .. => ⟨5⟩
  | .textTooLong .. => ⟨6⟩
  | .invalidArgument .. => ⟨7⟩
  | .unionArity .. => ⟨100⟩
  | .anonymousRecursion .. => ⟨101⟩
  | .unconditionalCycle .. => ⟨102⟩
  | .duplicateName .. => ⟨200⟩
  | .unknownName .. => ⟨201⟩
  | .multiple [] => .unknown
  | .multiple (first :: _) => first.code

/-- The wording of a cause, without its code. -/
def message : Error → String
  | .decimalPrecision precision max =>
    s!"decimal precision {precision} outside 1..={max}"
  | .decimalScale precision scale =>
    s!"decimal scale {scale} exceeds precision {precision}"
  | .charLength length max => s!"char length {length} outside 1..={max}"
  | .varcharLength length max =>
    s!"varchar length {length} outside 1..={max}"
  | .mapKey key => s!"map key {key} is not a scalar"
  | .textTooLong family length max =>
    s!"{family} value of length {length} exceeds maximum {max}"
  | .invalidArgument message => message
  | .unionArity distinct =>
    s!"union needs at least 2 distinct variants, got {distinct}"
  | .anonymousRecursion signature =>
    s!"anonymous type {signature} is self-referential"
  | .unconditionalCycle typeName member =>
    let owner := typeName.getD "<anonymous>"
    s!"member {member} of {owner} is unconditionally cyclic"
  | .duplicateName name container =>
    s!"duplicate name '{name}' in {container}"
  | .unknownName family name => s!"unknown {family} '{name}'"
  | .multiple errors =>
    let count := errors.length
    s!"Multiple errors: {count}"

/-- Code and message; collected errors have no code of their own. -/
def render (e : Error) : String :=
  match e with
  | .multiple _ => e.message
  | _ => e.code.render ++ ": " ++ e.message

/-- The type that a recursion error is about, if it has a name. -/
def typeName? : Error → Option String
  | .unconditionalCycle typeName _ => typeName
  | _ => none

def diagnostic : Error → Diagnostic
  | .multiple [] => .ofCode .unknown "Unknown error" none
  | .multiple (first :: _) => first.diagnostic
  | e => .ofCode e.code e.render e.code.info.help

end Error

end Schemata
