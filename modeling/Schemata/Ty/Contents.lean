import Schemata.Sharing
import Schemata.Ty.Exact

/-!
# Contents

What is among the parts of a type: how many there are, the targets of the
references, and the recursive definitions. Targets and definitions are
listed once each, a definition by its identity, in the order of the parts.

`Ty.contents` follows every occurrence of a part. Types are built from
types that were built before, and one that uses another twice in each of
many steps has far more parts than objects. `Ty.size`, `Ty.references` and
`Ty.definitions` therefore enter each struct and union once.
-/

namespace Schemata

structure Contents where
  size : Nat
  references : List DefId
  definitions : List Ty

namespace Contents

def empty : Contents := ⟨0, [], []⟩

/-- The contents of `t` apart from its components. -/
def own (t : Ty) : Contents :=
  ⟨1, t.target?.toList, if t.defId?.isSome then [t] else []⟩

/-- Whether the identity of `d` is that of a definition in the list. -/
def defines (definitions : List Ty) (d : Ty) : Bool :=
  definitions.any fun e => e.defId? == d.defId?

/-- The contents of two types together. -/
def append (a b : Contents) : Contents where
  size := a.size + b.size
  references :=
    a.references ++ b.references.filter fun id => !a.references.contains id
  definitions :=
    a.definitions ++ b.definitions.filter fun d => !defines a.definitions d

end Contents

namespace Ty

mutual

def contents : Ty → Contents
  | .any => .own .any
  | .null => .own .null
  | .scalar s => .own (.scalar s)
  | .array element => (Contents.own (.array element)).append element.contents
  | .tuple elements =>
    (Contents.own (.tuple elements)).append (contentsOfList elements)
  | .map key value =>
    (Contents.own (.map key value)).append
      ((Contents.own (.scalar key)).append value.contents)
  | .struct label fields =>
    (Contents.own (.struct label fields)).append (contentsOfFields fields)
  | .union label variants =>
    (Contents.own (.union label variants)).append (contentsOfList variants)
  | .ref form name target => .own (.ref form name target)

def contentsOfList : List Ty → Contents
  | [] => .empty
  | t :: ts => t.contents.append (contentsOfList ts)

def contentsOfFields : List (String × Ty) → Contents
  | [] => .empty
  | (_, t) :: fields => t.contents.append (contentsOfFields fields)

end

/-! ## Each object once -/

open Sharing

/-- Structs and unions, which are often used in more than one place. -/
def hasMembers : Ty → Bool
  | .struct .. | .union .. => true
  | _ => false

mutual

def visit (t : Ty) (memo : Memo contents) :
    Visit contents { c : Contents // c = t.contents } :=
  let inside (memo : Memo contents) :
      Visit contents { c : Contents // c = t.contents } :=
    match t with
    | .any => .done ⟨.own .any, by rw [contents]⟩ memo
    | .null => .done ⟨.own .null, by rw [contents]⟩ memo
    | .scalar s => .done ⟨.own (.scalar s), by rw [contents]⟩ memo
    | .array e => (visit e memo).next fun c memo =>
      .done ⟨(Contents.own (.array e)).append c.1, by rw [c.2, contents]⟩ memo
    | .tuple es => (visitList es memo).next fun c memo =>
      .done ⟨(Contents.own (.tuple es)).append c.1, by rw [c.2, contents]⟩
        memo
    | .map k v => (visit v memo).next fun c memo =>
      .done ⟨(Contents.own (.map k v)).append
        ((Contents.own (.scalar k)).append c.1), by rw [c.2, contents]⟩ memo
    | .struct l fs => (visitFields fs memo).next fun c memo =>
      .done ⟨(Contents.own (.struct l fs)).append c.1,
        by rw [c.2, contents]⟩ memo
    | .union l vs => (visitList vs memo).next fun c memo =>
      .done ⟨(Contents.own (.union l vs)).append c.1,
        by rw [c.2, contents]⟩ memo
    | .ref f n id => .done ⟨.own (.ref f n id), by rw [contents]⟩ memo
  if t.hasMembers then once decEq t memo inside else inside memo
termination_by structural t

def visitList (ts : List Ty) (memo : Memo contents) :
    Visit contents { c : Contents // c = contentsOfList ts } :=
  match ts with
  | [] => .done ⟨.empty, by rw [contentsOfList]⟩ memo
  | t :: ts => (visit t memo).next fun c memo =>
    (visitList ts memo).next fun d memo =>
      .done ⟨c.1.append d.1, by rw [c.2, d.2, contentsOfList]⟩ memo
termination_by structural ts

def visitFields (fields : List (String × Ty)) (memo : Memo contents) :
    Visit contents { c : Contents // c = contentsOfFields fields } :=
  match fields with
  | [] => .done ⟨.empty, by rw [contentsOfFields]⟩ memo
  | (_, t) :: fields => (visit t memo).next fun c memo =>
    (visitFields fields memo).next fun d memo =>
      .done ⟨c.1.append d.1, by rw [c.2, d.2, contentsOfFields]⟩ memo
termination_by structural fields

end

/-- The contents of all types of a list together. -/
def contentsOf (ts : List Ty) : Contents := (visitList ts []).result.1

theorem contentsOf_eq (ts : List Ty) : contentsOf ts = contentsOfList ts :=
  (visitList ts []).result.2

/-- Number of parts, with repetitions. -/
def size (t : Ty) : Nat := (visit t []).result.1.size

theorem size_eq (t : Ty) : t.size = t.contents.size :=
  congrArg Contents.size (visit t []).result.2

/-- The targets of the references among the parts. -/
def references (t : Ty) : List DefId := (visit t []).result.1.references

theorem references_eq (t : Ty) : t.references = t.contents.references :=
  congrArg Contents.references (visit t []).result.2

end Ty

end Schemata
