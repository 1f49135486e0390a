import Schemata.Ty.Basic

/-!
# Hashing

What a type feeds to a hasher. As in a comparison, a recursive definition
or a reference is known by its form and name, and the name of a plain
struct or union does not matter. Everything else feeds its kind and what it
is made of.

Fields and variants have no order that a comparison would see. Each of them
is hashed by itself, and what is fed is how many there are and the sum of
their hashes, which wraps around.
-/

namespace Schemata

/-- What a hasher can be fed. -/
inductive Datum where
  /-- Which of several kinds something is of. -/
  | tag (n : Nat)
  | length (n : Nat)
  | number (n : Nat)
  | text (s : String)
  | hash (h : UInt64)
deriving DecidableEq

/-- The hash depends on nothing but what was fed, in order. -/
abbrev Hasher := List Datum → UInt64

def ScalarType.hashData : ScalarType → List Datum
  | .boolean => [.tag 2]
  | .tinyInt => [.tag 3]
  | .smallInt => [.tag 4]
  | .int => [.tag 5]
  | .bigInt => [.tag 6]
  | .float => [.tag 7]
  | .double => [.tag 8]
  | .date => [.tag 9]
  | .timestamp => [.tag 10]
  | .string => [.tag 11]
  | .decimal precision scale => [.tag 12, .number precision, .number scale]
  | .char length => [.tag 13, .number length]
  | .varchar length => [.tag 14, .number length]

def Form.hashData : Form → List Datum
  | .struct => [.tag 0]
  | .union => [.tag 1]

namespace Ty

/-- Members without an order. -/
def unordered (hashes : List UInt64) : List Datum :=
  [.length hashes.length, .hash (hashes.foldl (· + ·) 0)]

mutual

/-- What a type feeds to a hasher, where its members are hashed by
`inner`. -/
def hashData (inner : Hasher) : Ty → List Datum
  | .any => [.tag 0]
  | .null => [.tag 1]
  | .scalar s => s.hashData
  | .array t => .tag 15 :: hashData inner t
  | .tuple ts => .tag 16 :: .length ts.length :: hashDataOfList inner ts
  | .map k t => .tag 17 :: (k.hashData ++ hashData inner t)
  | .struct (.plain _) fs => .tag 18 :: unordered (fieldHashes inner fs)
  | .union (.plain _) vs => .tag 19 :: unordered (variantHashes inner vs)
  | .struct (.recursive name _) _ => Form.struct.hashData ++ [.text name]
  | .union (.recursive name _) _ => Form.union.hashData ++ [.text name]
  | .ref form name _ => form.hashData ++ [.text name]
termination_by structural t => t

def hashDataOfList (inner : Hasher) : List Ty → List Datum
  | [] => []
  | t :: ts => hashData inner t ++ hashDataOfList inner ts
termination_by structural ts => ts

def fieldHashes (inner : Hasher) : List (String × Ty) → List UInt64
  | [] => []
  | (name, t) :: fs =>
    inner (.text name :: hashData inner t) :: fieldHashes inner fs
termination_by structural fs => fs

def variantHashes (inner : Hasher) : List Ty → List UInt64
  | [] => []
  | t :: ts => inner (hashData inner t) :: variantHashes inner ts
termination_by structural ts => ts

end

end Ty

end Schemata
