import Schemata.Document
import Schemata.Text

/-!
# Error codes and diagnostics

Every refusal carries an `ErrorCode`. Codes come in three ranges (the
parameters of a type, the structure of a type, the catalog), and each
code in use has a short description and sometimes a hint on what to do.

A `Diagnostic` is what is shown to the user: severity, code, message and
an optional help text. It has a one-line text form (`Diagnostic.render`)
and a document form, written by `toDocument` and read by `ofDocument?`.
-/

namespace Schemata

/-! ## Error codes -/

structure ErrorCode where
  number : UInt16
deriving DecidableEq

namespace ErrorCode

/-- The code of a failure about which nothing is known. -/
def unknown : ErrorCode := ⟨0⟩

/-- `TAB` and at least four digits. -/
def render (code : ErrorCode) : String :=
  "TAB" ++ Text.padded 4 code.number.toNat

/-- A parameter of a type or value is out of range. -/
def isParameter (code : ErrorCode) : Bool :=
  1 ≤ code.number && code.number < 100

/-- A union or a recursive definition is ill-formed. -/
def isStructure (code : ErrorCode) : Bool :=
  100 ≤ code.number && code.number < 200

/-- A name in a catalog is taken or missing. -/
def isCatalog (code : ErrorCode) : Bool :=
  200 ≤ code.number && code.number < 300

/-- What is known about a code without the case at hand. -/
structure Info where
  description : String
  help : Option String

def info (code : ErrorCode) : Info :=
  match code.number.toNat with
  | 1 => ⟨"Decimal precision out of range",
      some "Decimal precision must be within 1..=38"⟩
  | 2 => ⟨"Decimal scale out of range",
      some "Decimal scale must not exceed its precision"⟩
  | 3 => ⟨"Char length out of range",
      some "Char length must be within 1..=255"⟩
  | 4 => ⟨"Varchar length out of range",
      some "Varchar length must be within 1..=65535"⟩
  | 5 => ⟨"Map key must be a scalar type", none⟩
  | 6 => ⟨"Text value exceeds maximum length", none⟩
  | 7 => ⟨"Invalid function argument", none⟩
  | 100 => ⟨"Union needs at least two distinct variants", none⟩
  | 101 => ⟨"Anonymous type is self-referential",
      some "Give the type a name to allow recursive references"⟩
  | 102 => ⟨"Unconditionally cyclic member",
      some ("Break the cycle with an array or map, " ++
        "or add a non-recursive union variant")⟩
  | 200 => ⟨"Duplicate name", none⟩
  | 201 => ⟨"Unknown name", none⟩
  | _ => ⟨"Unknown error", none⟩

end ErrorCode

/-! ## Diagnostics -/

inductive Severity where
  | error
deriving DecidableEq

def Severity.render : Severity → String
  | .error => "error"

structure Diagnostic where
  severity : Severity
  code : ErrorCode
  message : String
  help : Option String
deriving DecidableEq

namespace Diagnostic

def ofCode (code : ErrorCode) (message : String)
    (help : Option String) : Diagnostic :=
  ⟨.error, code, message, help⟩

/-- `severity: code - message`, then the help text in brackets. -/
def render (d : Diagnostic) : String :=
  let line := d.severity.render ++ ": " ++ d.code.render ++ " - " ++ d.message
  match d.help with
  | none => line
  | some help => line ++ " (" ++ help ++ ")"

/-! ## The document form -/

def severityName : Severity → String
  | .error => "Error"

/-- The help text is left out when there is none. -/
def toDocument (d : Diagnostic) : Document :=
  .record <|
    [("severity", .text (severityName d.severity)),
      ("code", .integer d.code.number.toNat),
      ("message", .text d.message)] ++
    match d.help with
    | none => []
    | some help => [("help", .text help)]

/-- A severity is its name, or a record with the name as its only field. -/
def severity? : Document → Option Severity
  | .text "Error" => some .error
  | .record [("Error", .null)] => some .error
  | _ => none

def help? : Document → Option (Option String)
  | .null => some none
  | .text help => some (some help)
  | _ => none

/-- Reads the parts; a missing part is `none`. Only help may be missing. -/
def ofParts? (severity code message help : Option Document) :
    Option Diagnostic := do
  return {
    severity := ← severity? (← severity)
    code := ⟨← (← code).word?⟩
    message := ← (← message).text?
    help := ← help? (help.getD .null) }

/-- Reads a record, in which unknown fields are ignored, or the list of the
four parts. -/
def ofDocument? : Document → Option Diagnostic
  | .record fields =>
    ofParts? (fields.lookup "severity") (fields.lookup "code")
      (fields.lookup "message") (fields.lookup "help")
  | .list [severity, code, message, help] =>
    ofParts? (some severity) (some code) (some message) (some help)
  | _ => none

end Diagnostic

end Schemata
