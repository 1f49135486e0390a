import Schemata.Ty.Basic

/-!
# Equality of types

Recursive definitions and references are compared by form and name, so that
a reference equals its target and comparing never enters a cycle. All other
types are compared by structure: fields and variants without regard to
order, and plain names not at all.

`Ty.beq` states the rule. Types are often compared with themselves, deep
inside of others; `Ty.compare` has the same answers and settles the
comparison of an object with itself at once. It can do so because the
comparison is reflexive (`Ty.beq_refl`).

`Ty.distinct` keeps the first of equal types and the order of the rest.
-/

namespace Schemata

namespace Ty

/-- The form and name by which a recursive type is identified. -/
def nominal? : Ty → Option (Form × String)
  | .struct (.recursive name _) _ => some (.struct, name)
  | .union (.recursive name _) _ => some (.union, name)
  | .ref form name _ => some (form, name)
  | _ => none

/-- The fields of a struct that is compared by structure. -/
def plainFields? : Ty → Option (List (String × Ty))
  | .struct (.plain _) fields => some fields
  | _ => none

/-- The variants of a union that is compared by structure. -/
def plainVariants? : Ty → Option (List Ty)
  | .union (.plain _) variants => some variants
  | _ => none

mutual

protected def beq : Ty → Ty → Bool
  | .any, b => b.isAny
  | .null, b => b.isNull
  | .scalar s, b => b.scalar? == some s
  | .array s, b => b.element?.any fun t => Ty.beq s t
  | .tuple ss, b => b.elements?.any fun ts => beqList ss ts
  | .map k s, b => b.key? == some k && b.value?.any fun t => Ty.beq s t
  | .struct (.plain _) fs, b => b.plainFields?.any fun gs =>
    fs.length == gs.length && fieldsWithin fs gs
  | .union (.plain _) vs, b => b.plainVariants?.any fun ws =>
    vs.length == ws.length && variantsWithin vs ws
  | .struct (.recursive name _) _, b => b.nominal? == some (.struct, name)
  | .union (.recursive name _) _, b => b.nominal? == some (.union, name)
  | .ref form name _, b => b.nominal? == some (form, name)
termination_by structural a => a

def beqList : List Ty → List Ty → Bool
  | [], [] => true
  | s :: ss, t :: ts => Ty.beq s t && beqList ss ts
  | _, _ => false
termination_by structural ss => ss

/-- Every field of the first list is in the second with an equal type. -/
def fieldsWithin : List (String × Ty) → List (String × Ty) → Bool
  | [], _ => true
  | (name, s) :: fs, gs =>
    gs.any (fun g => g.1 == name && Ty.beq s g.2) && fieldsWithin fs gs
termination_by structural fs => fs

/-- Every type of the first list equals one of the second. -/
def variantsWithin : List Ty → List Ty → Bool
  | [], _ => true
  | v :: vs, ws => ws.any (fun w => Ty.beq v w) && variantsWithin vs ws
termination_by structural vs => vs

end

/-! ## Reflexivity -/

mutual

theorem beq_refl : ∀ t : Ty, Ty.beq t t = true
  | .any => by simp [Ty.beq, isAny]
  | .null => by simp [Ty.beq, isNull]
  | .scalar _ => by simp [Ty.beq, scalar?]
  | .array e => by simp [Ty.beq, element?, beq_refl e]
  | .tuple es => by simp [Ty.beq, elements?, beqList_refl es]
  | .map _ e => by simp [Ty.beq, key?, value?, beq_refl e]
  | .struct (.plain _) fs => by
    simp [Ty.beq, plainFields?, fieldsWithin_of_subset fs fs fun _ h => h]
  | .union (.plain _) vs => by
    simp [Ty.beq, plainVariants?,
      variantsWithin_of_subset vs vs fun _ h => h]
  | .struct (.recursive ..) _ => by simp [Ty.beq, nominal?]
  | .union (.recursive ..) _ => by simp [Ty.beq, nominal?]
  | .ref .. => by simp [Ty.beq, nominal?]
termination_by structural t => t

theorem beqList_refl : ∀ ts : List Ty, beqList ts ts = true
  | [] => by rw [beqList]
  | t :: ts => by rw [beqList, beq_refl t, beqList_refl ts]; rfl
termination_by structural ts => ts

theorem fieldsWithin_of_subset : ∀ fs gs : List (String × Ty),
    (∀ f ∈ fs, f ∈ gs) → fieldsWithin fs gs = true
  | [], _, _ => by rw [fieldsWithin]
  | (name, t) :: fs, gs, h => by
    have here : (name, t) ∈ gs := h _ (List.mem_cons_self ..)
    have there := fieldsWithin_of_subset fs gs
      fun f hf => h f (List.mem_cons_of_mem _ hf)
    rw [fieldsWithin, there, Bool.and_true]
    exact List.any_eq_true.mpr ⟨_, here, by simp [beq_refl t]⟩
termination_by structural fs => fs

theorem variantsWithin_of_subset : ∀ vs ws : List Ty,
    (∀ v ∈ vs, v ∈ ws) → variantsWithin vs ws = true
  | [], _, _ => by rw [variantsWithin]
  | t :: vs, ws, h => by
    have here : t ∈ ws := h _ (List.mem_cons_self ..)
    have there := variantsWithin_of_subset vs ws
      fun v hv => h v (List.mem_cons_of_mem _ hv)
    rw [variantsWithin, there, Bool.and_true]
    exact List.any_eq_true.mpr ⟨_, here, beq_refl t⟩
termination_by structural vs => vs

end

/-! ## The same object -/

/-- The comparison of `a` and `b`, which need not be made if they are the
same object. -/
@[inline] def unlessSame (a b : Ty)
    (compare : Unit → { r : Bool // r = Ty.beq a b }) :
    { r : Bool // r = Ty.beq a b } :=
  ⟨withPtrEq a b (fun u => (compare u).1)
    fun h => by rw [(compare ()).2, h, beq_refl], (compare ()).2⟩

mutual

def compare (a b : Ty) : { r : Bool // r = Ty.beq a b } :=
  unlessSame a b fun _ =>
    match a with
    | .any => ⟨b.isAny, by rw [Ty.beq]⟩
    | .null => ⟨b.isNull, by rw [Ty.beq]⟩
    | .scalar s => ⟨b.scalar? == some s, by rw [Ty.beq]⟩
    | .array s => ⟨b.element?.any fun t => (compare s t).1,
      by simp only [Ty.beq, fun t => (compare s t).2]⟩
    | .tuple ss => ⟨b.elements?.any fun ts => (compareList ss ts).1,
      by simp only [Ty.beq, fun ts => (compareList ss ts).2]⟩
    | .map k s =>
      ⟨b.key? == some k && b.value?.any fun t => (compare s t).1,
        by simp only [Ty.beq, fun t => (compare s t).2]⟩
    | .struct (.plain _) fs =>
      ⟨b.plainFields?.any fun gs =>
          fs.length == gs.length && (compareFields fs gs).1,
        by simp only [Ty.beq, fun gs => (compareFields fs gs).2]⟩
    | .union (.plain _) vs =>
      ⟨b.plainVariants?.any fun ws =>
          vs.length == ws.length && (compareVariants vs ws).1,
        by simp only [Ty.beq, fun ws => (compareVariants vs ws).2]⟩
    | .struct (.recursive name _) _ =>
      ⟨b.nominal? == some (.struct, name), by rw [Ty.beq]⟩
    | .union (.recursive name _) _ =>
      ⟨b.nominal? == some (.union, name), by rw [Ty.beq]⟩
    | .ref form name _ => ⟨b.nominal? == some (form, name), by rw [Ty.beq]⟩
termination_by structural a

def compareList : (ss ts : List Ty) → { r : Bool // r = beqList ss ts }
  | [], [] => ⟨true, by rw [beqList]⟩
  | [], _ :: _ => ⟨false, by simp [beqList]⟩
  | _ :: _, [] => ⟨false, by simp [beqList]⟩
  | s :: ss, t :: ts => ⟨(compare s t).1 && (compareList ss ts).1,
    by simp only [beqList, (compare s t).2, (compareList ss ts).2]⟩
termination_by structural ss => ss

def compareFields : (fs gs : List (String × Ty)) →
    { r : Bool // r = fieldsWithin fs gs }
  | [], _ => ⟨true, by rw [fieldsWithin]⟩
  | (name, s) :: fs, gs =>
    ⟨gs.any (fun g => g.1 == name && (compare s g.2).1) &&
        (compareFields fs gs).1,
      by simp only [fieldsWithin, fun t => (compare s t).2,
        (compareFields fs gs).2]⟩
termination_by structural fs => fs

def compareVariants : (vs ws : List Ty) →
    { r : Bool // r = variantsWithin vs ws }
  | [], _ => ⟨true, by rw [variantsWithin]⟩
  | v :: vs, ws =>
    ⟨ws.any (fun w => (compare v w).1) && (compareVariants vs ws).1,
      by simp only [variantsWithin, fun w => (compare v w).2,
        (compareVariants vs ws).2]⟩
termination_by structural vs => vs

end

instance : BEq Ty := ⟨fun a b => (compare a b).1⟩

theorem beq_eq (a b : Ty) : (a == b) = Ty.beq a b := (compare a b).2

/-! ## Distinct types -/

/-- `t` at the end, unless an equal type is there already. -/
def addDistinct (kept : List Ty) (t : Ty) : List Ty :=
  if kept.contains t then kept else kept ++ [t]

/-- The first type of each class of equal ones, in order. -/
def distinct (ts : List Ty) : List Ty :=
  ts.foldl addDistinct []

end Ty

end Schemata
