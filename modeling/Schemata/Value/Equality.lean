import Schemata.Value.Basic

/-!
# Equality of values

Values of different kinds are never equal, packed arrays excepted, which
equal the arrays they stand for. Maps compare with regard to the order of
their entries, structs without regard to the order of their fields.
-/

namespace Schemata.Value

/-- Numbers against values, one by one. -/
def beqNumbers : List Number → List Value → Bool
  | [], [] => true
  | n :: ns, .scalar (.number m) :: ws => n == m && beqNumbers ns ws
  | _, _ => false

mutual

protected def beq : Value → Value → Bool
  | .null, .null => true
  | .scalar s, .scalar t => s == t
  | .array vs, w =>
    match w.items? with
    | some ws => beqList vs ws
    | none => false
  | .packed p, w =>
    match w.items? with
    | some ws => beqNumbers p.numbers ws
    | none => false
  | .tuple vs, .tuple ws => beqList vs ws
  | .map es, .map fs => beqEntries es fs
  | .struct fs, .struct gs => fs.length == gs.length && fieldsWithin fs gs
  | _, _ => false
termination_by structural v => v

def beqList : List Value → List Value → Bool
  | [], [] => true
  | v :: vs, w :: ws => Value.beq v w && beqList vs ws
  | _, _ => false
termination_by structural vs => vs

def beqEntries : List (Scalar × Value) → List (Scalar × Value) → Bool
  | [], [] => true
  | (k, v) :: es, (l, w) :: fs => k == l && Value.beq v w && beqEntries es fs
  | _, _ => false
termination_by structural es => es

/-- Every field of the first list is in the second with an equal value. -/
def fieldsWithin : List (String × Value) → List (String × Value) → Bool
  | [], _ => true
  | (name, v) :: fs, gs =>
    (match gs.lookup name with
      | some w => Value.beq v w
      | none => false) && fieldsWithin fs gs
termination_by structural fs => fs

end

instance : BEq Value := ⟨Value.beq⟩

end Schemata.Value
