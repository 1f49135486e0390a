import Schemata.Ty.Basic

/-!
# Exact equality

Whether two types are built in the same way, names and order included.
This is finer than the equality by which types are compared
(`Schemata.Ty.Equality`); it tells whether a type is the one that was met
before.
-/

namespace Schemata.Ty

mutual

def exact : Ty → Ty → Bool
  | .any, .any => true
  | .null, .null => true
  | .scalar s, .scalar t => s == t
  | .array s, .array t => exact s t
  | .tuple ss, .tuple ts => exactList ss ts
  | .map k s, .map l t => k == l && exact s t
  | .struct l fs, .struct m gs => l == m && exactFields fs gs
  | .union l vs, .union m ws => l == m && exactList vs ws
  | .ref f m i, .ref g n j => f == g && m == n && i == j
  | _, _ => false

def exactList : List Ty → List Ty → Bool
  | [], [] => true
  | s :: ss, t :: ts => exact s t && exactList ss ts
  | _, _ => false

def exactFields : List (String × Ty) → List (String × Ty) → Bool
  | [], [] => true
  | (m, s) :: fs, (n, t) :: gs => m == n && exact s t && exactFields fs gs
  | _, _ => false

end

mutual

theorem exact_iff : ∀ a b : Ty, exact a b = true ↔ a = b
  | .any, b => by cases b <;> simp [exact]
  | .null, b => by cases b <;> simp [exact]
  | .scalar _, b => by cases b <;> simp [exact]
  | .array s, b => by cases b <;> simp [exact, exact_iff s]
  | .tuple ss, b => by cases b <;> simp [exact, exactList_iff ss]
  | .map _ s, b => by cases b <;> simp [exact, exact_iff s]
  | .struct _ fs, b => by cases b <;> simp [exact, exactFields_iff fs]
  | .union _ vs, b => by cases b <;> simp [exact, exactList_iff vs]
  | .ref .., b => by cases b <;> simp [exact, and_assoc]

theorem exactList_iff : ∀ ss ts : List Ty, exactList ss ts = true ↔ ss = ts
  | [], ts => by cases ts <;> simp [exactList]
  | s :: ss, ts => by
    cases ts <;> simp [exactList, exact_iff s, exactList_iff ss]

theorem exactFields_iff : ∀ fs gs : List (String × Ty),
    exactFields fs gs = true ↔ fs = gs
  | [], gs => by cases gs <;> simp [exactFields]
  | (_, s) :: fs, [] => by simp [exactFields]
  | (_, s) :: fs, (_, t) :: gs => by
    simp [exactFields, exact_iff s, exactFields_iff fs]

end

/-- Not an instance, since `==` means the coarser equality. -/
def decEq : DecidableEq Ty :=
  fun a b => decidable_of_iff _ (exact_iff a b)

end Schemata.Ty
