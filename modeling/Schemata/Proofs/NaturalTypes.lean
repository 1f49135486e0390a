import Mathlib
import Schemata.Proofs.Transitivity
import Schemata.Proofs.ValueParts

/-!
# Values and their natural types

The natural type of an array or a map is that of its first entry, so a
value need not be an instance of it. It is one if the value is *uniform*:
no decimal in it has more digits than a decimal type can have, and in every
array and every map in it the natural types are equal to the first one
(`Value.isInstance_naturalType`).

Equal is less than the same. The structs of an array may have their fields
in different orders, and then what has been shown of an item is about its
own natural type and not the first one. Natural types refer to nothing, and
equal types without references have the same members (`Member.of_beqType`).
-/

namespace Schemata

/-- The natural type of a scalar accepts it, unless it is a decimal with too
many digits. -/
theorem Scalar.member_naturalType {s : Scalar}
    (h : ∀ d, s = .number (.decimal d) →
      d.precision ≤ 38 ∧ d.fractionDigits ≤ 38) : s.Member s.naturalType := by
  cases s with
  | boolean b => exact .boolean
  | number n =>
      cases n with
      | decimal d =>
          obtain ⟨hprecision, hscale⟩ := h d rfl
          refine .decimal ?_ ?_ <;> simp only [Limit.decimalPrecision] <;> omega
      | _ => constructor
  | date d => exact .date
  | timestamp t => exact .timestamp
  | text kind content => cases kind <;> constructor

namespace Value

/-! ## Uniform values -/

/-- The natural types of all values are equal to that of the first. -/
def OfOneType (vs : List Value) : Prop :=
  ∀ first ∈ vs.head?, ∀ v ∈ vs, (v.naturalType == first.naturalType) = true

instance (vs : List Value) : Decidable (OfOneType vs) :=
  inferInstanceAs (Decidable (∀ first ∈ vs.head?, ∀ v ∈ vs, _))

/-- The decimals fit into a decimal type, and arrays and maps hold values of
one type. -/
structure Uniform (v : Value) : Prop where
  decimals : ∀ d, .number (.decimal d) ∈ v.parts →
    d.precision ≤ 38 ∧ d.fractionDigits ≤ 38
  arrays : ∀ items, .array items ∈ v.parts → OfOneType items
  maps : ∀ entries, .map entries ∈ v.parts →
    OfOneType (entries.map fun e => .scalar e.1)
      ∧ OfOneType (entries.map Prod.snd)

theorem Uniform.component {v c : Value} (h : v.Uniform)
    (hc : c ∈ v.components) : c.Uniform where
  decimals d hd := h.decimals d (parts_of_component hc _ hd)
  arrays items hitems := h.arrays items (parts_of_component hc _ hitems)
  maps entries hentries := h.maps entries (parts_of_component hc _ hentries)

/-! ## Members of natural types -/

theorem naturalType_acyclic {v : Value} (h : v.NamesDistinct) :
    v.naturalType.Acyclic where
  wellFormed p hp := (naturalType_plain h p hp).2.2
  plain p hp := by
    obtain ⟨hid, htarget, -⟩ := naturalType_plain h p hp
    rw [Ty.isRecursive_eq_or, hid, htarget]
    rfl

variable {S : Scope}

theorem Member.of_beqType {v first : Value} (hv : v.NamesDistinct)
    (hfirst : first.NamesDistinct)
    (heq : (v.naturalType == first.naturalType) = true)
    (h : Member S v v.naturalType) : Member S v first.naturalType :=
  h.of_beq S.linked_acyclic Scope.agree_acyclic (naturalType_acyclic hv)
    (naturalType_acyclic hfirst) heq

/-- Values of one type are members of the first natural type, if each is a
member of its own. -/
theorem member_firstType {items : List Value}
    (hnames : ∀ v ∈ items, v.NamesDistinct) (hone : OfOneType items)
    (h : ∀ v ∈ items, Member S v v.naturalType) :
    ∀ v ∈ items, Member S v (firstType items) := by
  cases items with
  | nil => exact fun _ hv => (List.not_mem_nil hv).elim
  | cons first rest =>
      intro v hv
      rw [firstType]
      exact (h v hv).of_beqType (hnames v hv) (hnames _ List.mem_cons_self)
        (hone first rfl v hv)

theorem member_naturalType {v : Value} (hv : v.NamesDistinct)
    (h : v.Uniform) : Member S v v.naturalType := by
  induction hv with
  | null => exact .null
  | @scalar s =>
      refine .scalar (Scalar.member_naturalType fun d hd => h.decimals d ?_)
      exact hd ▸ mem_parts_self _
  | @array items hnames ih =>
      rw [naturalType]
      refine .array (member_firstType hnames ?_ fun v hv => ?_)
      · exact h.arrays items (mem_parts_self _)
      · exact ih v hv (h.component hv)
  | @packed p =>
      rw [naturalType]
      refine .packed fun n hn => .scalar ?_
      cases p <;> obtain ⟨_, -, rfl⟩ := List.mem_map.mp hn <;> constructor
  | @tuple items hnames ih =>
      rw [naturalType, naturalTypes_eq]
      refine .tuple (by simp) fun p hp => ?_
      rw [← List.map_prod_left_eq_zip] at hp
      obtain ⟨v, hv, rfl⟩ := List.mem_map.mp hp
      exact ih v hv (h.component hv)
  | @map entries hnames ih =>
      obtain ⟨hkeys, hvalues⟩ := h.maps entries (mem_parts_self _)
      have hmembers : ∀ v ∈ entries.map Prod.snd,
          Member S v (firstType (entries.map Prod.snd)) := by
        refine member_firstType (List.forall_mem_map.mpr hnames) hvalues
          (List.forall_mem_map.mpr fun e he => ih e he (h.component ?_))
        exact (mem_components_map he).2
      cases entries with
      | nil => exact .any
      | cons first rest =>
          refine .map (fun e he => ?_) (List.forall_mem_map.mp hmembers)
          have heq := hkeys _ rfl _ (List.mem_map_of_mem he)
          rw [Ty.scalar.inj (Ty.scalar_beq_iff.mp heq)]
          refine Scalar.member_naturalType fun d hd => h.decimals d ?_
          have hkey := mem_parts_of_component (mem_components_map he).1
          rwa [hd] at hkey
  | @struct fields hnd hnames ih =>
      rw [naturalType, fieldTypes_eq]
      refine .struct fun f hf => ?_
      obtain ⟨g, hg, rfl⟩ := List.mem_map.mp hf
      have hfield : fieldOrNull fields g.1 = g.2 := by
        rw [fieldOrNull, lookup_of_mem hnd hg, Option.getD_some]
      rw [hfield]
      exact ih g hg (h.component (List.mem_map_of_mem hg))

/-- A value with distinct names is an instance of its natural type if no
decimal in it has more than 38 digits, in all or behind the point, and if in
every array and map in it the natural types of the items, keys and values
are equal to the first one. -/
theorem isInstance_naturalType (S : Scope) {v : Value}
    (hv : v.NamesDistinct) (h : v.Uniform) :
    v.isInstance S v.naturalType = true :=
  (isInstance_iff v _).mpr (member_naturalType hv h)

/-- Items with their fields in different orders, and a packed array that is
empty. -/
theorem isInstance_naturalType_reordered :
    let first : Value := .struct
      [("price", .number (.decimal ⟨125, 1⟩)), ("sizes", .packed (.int [7]))]
    let second : Value := .struct
      [("sizes", .packed (.int [])), ("price", .number (.decimal ⟨-405, 1⟩))]
    let v : Value := .map [(.text .char "ab", .array [first, second]),
      (.text .char "cd", .array [second])]
    v.NamesDistinct ∧ v.Uniform ∧ v.isInstance ⟨[]⟩ v.naturalType = true := by
  intro first second v
  have hfirst : first.NamesDistinct :=
    .struct (by decide) (by simpa using ⟨.scalar, .packed⟩)
  have hsecond : second.NamesDistinct :=
    .struct (by decide) (by simpa using ⟨.packed, .scalar⟩)
  have hdistinct : v.NamesDistinct := by
    refine .map (List.forall_mem_cons.mpr ⟨?_, List.forall_mem_singleton.mpr ?_⟩)
    · exact .array (by simpa using ⟨hfirst, hsecond⟩)
    · exact .array (by simpa using hsecond)
  have hparts : v.parts =
      [v, .scalar (.text .char "ab"), .array [first, second], first,
        .number (.decimal ⟨125, 1⟩), .packed (.int [7]), .number (.int 7),
        second, .packed (.int []), .number (.decimal ⟨-405, 1⟩),
        .scalar (.text .char "cd"), .array [second], second,
        .packed (.int []), .number (.decimal ⟨-405, 1⟩)] := rfl
  have huniform : v.Uniform := by
    refine ⟨fun d hd => ?_, fun items hitems => ?_, fun entries hentries => ?_⟩
    · rw [hparts] at hd
      simp [v, first, second, number] at hd
      rcases hd with rfl | rfl <;> decide
    · rw [hparts] at hitems
      simp [v, first, second, number] at hitems
      rcases hitems with rfl | rfl <;> decide
    · rw [hparts] at hentries
      simp [v, first, second, number] at hentries
      subst hentries
      decide
  exact ⟨hdistinct, huniform, isInstance_naturalType ⟨[]⟩ hdistinct huniform⟩

end Value

end Schemata
