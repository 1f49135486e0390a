import Mathlib
import Schemata.Proofs.Building
import Schemata.Proofs.Moments
import Schemata.Ty.Hash

/-!
# Hashing agrees with equality

Equal types feed the same to a hasher (`Ty.hashData_eq_of_beq`). At a
struct or union that is compared by structure they may have their members
in different orders. The members are equal one by one in some order
(`SameFields.exists_perm`, `SameVariants.exists_perm`), so their hashes are
the same up to order, and a sum does not see the order.

What rests on it is that a hash table can be searched for a type. A table
compares only types that have the hash of the one that is sought, and these
include all that are equal to it. So a set that keeps the order of
insertion, however its table works (`HashTable`), keeps what `Ty.distinct`
keeps: the types that differ from all before them (`Ty.firsts`).
-/

namespace Schemata

namespace Ty

/-! ## Members -/

theorem map_eq_of_forall₂ {α β : Type} {R : α → α → Prop} {f : α → β}
    {xs ys : List α} (h : List.Forall₂ R xs ys)
    (hf : ∀ x ∈ xs, ∀ y, R x y → f x = f y) : xs.map f = ys.map f := by
  induction h with
  | nil => rfl
  | cons hxy _ ih =>
      obtain ⟨hhead, htail⟩ := List.forall_mem_cons.mp hf
      rw [List.map_cons, List.map_cons, hhead _ hxy, ih htail]

variable {inner : Hasher}

theorem hashDataOfList_eq (ts : List Ty) :
    hashDataOfList inner ts = (ts.map (hashData inner)).flatten := by
  induction ts with
  | nil => rfl
  | cons t ts ih => rw [hashDataOfList, ih, List.map_cons, List.flatten_cons]

theorem fieldHashes_eq (fs : List (String × Ty)) :
    fieldHashes inner fs
      = fs.map fun f => inner (.text f.1 :: hashData inner f.2) := by
  induction fs with
  | nil => rfl
  | cons f fs ih => rw [fieldHashes, ih, List.map_cons]

theorem variantHashes_eq (vs : List Ty) :
    variantHashes inner vs = vs.map fun v => inner (hashData inner v) := by
  induction vs with
  | nil => rfl
  | cons v vs ih => rw [variantHashes, ih, List.map_cons]

/-- The order of the members is not seen. -/
theorem unordered_perm {hs ks : List UInt64} (h : hs.Perm ks) :
    unordered hs = unordered ks := by
  rw [unordered, unordered, h.length_eq, h.foldl_eq]

theorem SameFields.fieldHashes_perm {fs gs : List (String × Ty)}
    (hnd : (fs.map Prod.fst).Nodup)
    (ih : ∀ f ∈ fs, ∀ t : Ty, (f.2 == t) = true →
      hashData inner f.2 = hashData inner t)
    (h : SameFields fs gs) :
    (fieldHashes inner fs).Perm (fieldHashes inner gs) := by
  obtain ⟨hs, hperm, hall⟩ := h.exists_perm hnd
  rw [fieldHashes_eq, fieldHashes_eq, map_eq_of_forall₂ hall ?_]
  · exact hperm.map _
  · intro f hf g hfg
    rw [hfg.1, ih f hf g.2 hfg.2]

theorem SameVariants.variantHashes_perm {vs ws : List Ty}
    (hd : vs.Pairwise fun v w => (w == v) = false)
    (hsymm : ∀ v ∈ vs, ∀ t : Ty, (v == t) = true → (t == v) = true)
    (ih : ∀ v ∈ vs, ∀ t : Ty, (v == t) = true →
      hashData inner v = hashData inner t)
    (h : SameVariants vs ws) :
    (variantHashes inner vs).Perm (variantHashes inner ws) := by
  obtain ⟨xs, hperm, hall⟩ := h.exists_perm hd hsymm
  rw [variantHashes_eq, variantHashes_eq, map_eq_of_forall₂ hall ?_]
  · exact hperm.map _
  · intro v hv w hvw
    rw [ih v hv w hvw]

/-! ## Equal types -/

theorem hashData_of_nominal? {t : Ty} {k : Form × String}
    (h : t.nominal? = some k) :
    hashData inner t = k.1.hashData ++ [.text k.2] := by
  cases t with
  | struct label fields =>
      cases label with
      | plain name => cases h
      | recursive name id => obtain rfl := Option.some.inj h; rfl
  | union label variants =>
      cases label with
      | plain name => cases h
      | recursive name id => obtain rfl := Option.some.inj h; rfl
  | ref form name target => obtain rfl := Option.some.inj h; rfl
  | _ => cases h

/-- As for symmetry, the members of the first type are the ones that are
counted. -/
theorem hashData_eq_of_beq {a b : Ty} (ha : a.WellFormed)
    (h : (a == b) = true) : hashData inner a = hashData inner b := by
  induction a using component_induction generalizing b with
  | step a ih =>
      have ih' : ∀ c ∈ a.components, ∀ t : Ty, (c == t) = true →
          hashData inner c = hashData inner t :=
        fun c hc t hct => ih c hc (ha.component hc) hct
      cases hk : a.nominal? with
      | some k =>
          have hb := (nominal_beq_iff hk).mp h
          rw [hashData_of_nominal? hk, hashData_of_nominal? hb]
      | none =>
          cases a with
          | any => obtain rfl := any_beq_iff.mp h; rfl
          | null => obtain rfl := null_beq_iff.mp h; rfl
          | scalar s => obtain rfl := scalar_beq_iff.mp h; rfl
          | array s =>
              obtain ⟨t, rfl, hst⟩ := array_beq_iff.mp h
              have heq := ih' s (by simp [components]) t hst
              rw [hashData, hashData, heq]
          | tuple ss =>
              obtain ⟨ts, rfl, hst⟩ := tuple_beq_iff.mp h
              have heq : hashDataOfList inner ss = hashDataOfList inner ts := by
                rw [hashDataOfList_eq, hashDataOfList_eq,
                  map_eq_of_forall₂ hst ih']
              rw [hashData, hashData, hst.length_eq, heq]
          | map k s =>
              obtain ⟨t, rfl, hst⟩ := map_beq_iff.mp h
              have heq := ih' s (by simp [components]) t hst
              rw [hashData, hashData, heq]
          | struct label fs =>
              cases label with
              | recursive name id => simp [nominal?] at hk
              | plain name =>
                  obtain ⟨n, gs, rfl, hfg⟩ := struct_beq_iff.mp h
                  have hperm : (fieldHashes inner fs).Perm
                      (fieldHashes inner gs) := by
                    refine hfg.fieldHashes_perm ha.regular fun f hf => ?_
                    exact ih' f.2 (List.mem_map.mpr ⟨f, hf, rfl⟩)
                  rw [hashData, hashData, unordered_perm hperm]
          | union label vs =>
              cases label with
              | recursive name id => simp [nominal?] at hk
              | plain name =>
                  obtain ⟨n, ws, rfl, hvw⟩ := union_beq_iff.mp h
                  -- two variants that equal the same one would be equal
                  have hsymm : ∀ v ∈ vs, ∀ t : Ty,
                      (v == t) = true → (t == v) = true :=
                    fun v hv t => beq_symm (ha.component hv)
                  have hperm := hvw.variantHashes_perm ha.regular.2 hsymm ih'
                  rw [hashData, hashData, unordered_perm hperm]
          | ref form name target => simp [nominal?] at hk

/-! ## The first of equal types -/

/-- The types that differ from all before them. -/
def firsts (ts : List Ty) : List Ty :=
  (ts.zipIdx.filter fun p => !(ts.take p.2).contains p.1).map Prod.fst

theorem firsts_concat (ts : List Ty) (t : Ty) :
    firsts (ts ++ [t]) = firsts ts ++ if ts.contains t then [] else [t] := by
  have hbefore : ts.zipIdx.filter
        (fun p => !((ts ++ [t]).take p.2).contains p.1)
      = ts.zipIdx.filter fun p => !(ts.take p.2).contains p.1 := by
    refine List.filter_congr fun p hp => ?_
    have hlt : p.2 < ts.length := (List.mem_zipIdx' hp).1
    rw [List.take_append_of_le_length (Nat.le_of_lt hlt)]
  rw [firsts, firsts, List.zipIdx_append, List.filter_append, hbefore,
    List.map_append]
  by_cases h : ts.contains t = true <;> simp [h]

theorem distinct_concat (ts : List Ty) (t : Ty) :
    distinct (ts ++ [t]) = addDistinct (distinct ts) t :=
  List.foldl_concat ..

/-- Every type is equal to one that is kept. -/
theorem exists_mem_distinct {ts : List Ty} {t : Ty} (ht : t ∈ ts) :
    ∃ k ∈ distinct ts, (t == k) = true := by
  induction ts using List.reverseRecOn with
  | nil => cases ht
  | append_singleton ts u ih =>
      rw [distinct_concat, addDistinct]
      rcases List.mem_append.mp ht with ht | ht
      · obtain ⟨k, hk, htk⟩ := ih ht
        refine ⟨k, ?_, htk⟩
        split
        · exact hk
        · exact List.mem_append_left _ hk
      · obtain rfl := List.mem_singleton.mp ht
        split
        · next hkept => exact contains_iff.mp hkept
        · exact ⟨t, by simp, beq_self t⟩

/-- What is equal to a type is equal to one that is kept for it. -/
theorem contains_distinct {ts : List Ty} {t : Ty} :
    (distinct ts).contains t = ts.contains t := by
  rw [Bool.eq_iff_iff, contains_iff, contains_iff]
  constructor
  · rintro ⟨k, hk, htk⟩
    exact ⟨k, mem_of_mem_distinct hk, htk⟩
  · rintro ⟨u, hu, htu⟩
    obtain ⟨k, hk, huk⟩ := exists_mem_distinct hu
    exact ⟨k, hk, beq_trans htu huk⟩

theorem distinct_eq_firsts (ts : List Ty) : distinct ts = firsts ts := by
  induction ts using List.reverseRecOn with
  | nil => rfl
  | append_singleton ts t ih =>
      rw [distinct_concat, firsts_concat, addDistinct, contains_distinct, ih]
      split <;> simp

end Ty

/-! ## Hash tables -/

/-- A set of types that keeps the order of insertion, with a table by which
it is searched for a type: what is compared with the type is kept, and
includes everything that is kept and has its hash. -/
structure HashTable (hash : Ty → UInt64) where
  State : Type
  empty : State
  /-- What is kept, in order of insertion. -/
  entries : State → List Ty
  /-- What is compared with a type of some hash. -/
  candidates : State → UInt64 → List Ty
  /-- Keeps another type. -/
  push : State → Ty → State
  entries_empty : entries empty = []
  entries_push : ∀ s t, entries (push s t) = entries s ++ [t]
  mem_entries : ∀ s h, ∀ t ∈ candidates s h, t ∈ entries s
  mem_candidates : ∀ s, ∀ t ∈ entries s, t ∈ candidates s (hash t)

namespace HashTable

variable {hash : Ty → UInt64} (T : HashTable hash)

def contains (s : T.State) (t : Ty) : Bool :=
  (T.candidates s (hash t)).contains t

/-- Keeps a type unless an equal one is found. -/
def insert (s : T.State) (t : Ty) : T.State :=
  if T.contains s t then s else T.push s t

section Agreement

variable (hhash : ∀ a b : Ty, a.WellFormed → (a == b) = true → hash a = hash b)

include hhash

/-- A search that only compares types of one hash finds what a search
through all types finds. -/
theorem contains_eq (s : T.State) {t : Ty} (ht : t.WellFormed) :
    T.contains s t = (T.entries s).contains t := by
  rw [Bool.eq_iff_iff, contains, Ty.contains_iff, Ty.contains_iff]
  constructor
  · rintro ⟨u, hu, htu⟩
    exact ⟨u, T.mem_entries s _ u hu, htu⟩
  · rintro ⟨u, hu, htu⟩
    refine ⟨u, ?_, htu⟩
    -- it has the hash that is searched for
    rw [hhash t u ht htu]
    exact T.mem_candidates s u hu

theorem entries_insert (s : T.State) {t : Ty} (ht : t.WellFormed) :
    T.entries (T.insert s t) = Ty.addDistinct (T.entries s) t := by
  rw [insert, Ty.addDistinct, T.contains_eq hhash s ht]
  split
  · rfl
  · exact T.entries_push s t

theorem entries_foldl_insert {ts : List Ty} (hts : ∀ t ∈ ts, t.WellFormed)
    (s : T.State) :
    T.entries (ts.foldl T.insert s) = ts.foldl Ty.addDistinct (T.entries s) := by
  induction ts generalizing s with
  | nil => rfl
  | cons t ts ih =>
      obtain ⟨ht, hts⟩ := List.forall_mem_cons.mp hts
      rw [List.foldl_cons, List.foldl_cons, ih hts, T.entries_insert hhash s ht]

theorem entries_insertAll {ts : List Ty} (hts : ∀ t ∈ ts, t.WellFormed) :
    T.entries (ts.foldl T.insert T.empty) = Ty.distinct ts := by
  rw [T.entries_foldl_insert hhash hts, T.entries_empty, Ty.distinct]

end Agreement

/-- The table that compares exactly what has the same hash. -/
def exact (hash : Ty → UInt64) : HashTable hash where
  State := List Ty
  empty := []
  entries ts := ts
  candidates ts h := ts.filter fun t => hash t == h
  push ts t := ts ++ [t]
  entries_empty := rfl
  entries_push _ _ := rfl
  mem_entries _ _ _ ht := (List.mem_filter.mp ht).1
  mem_candidates _ _ ht := List.mem_filter.mpr ⟨ht, by simp⟩

end HashTable

/-! ## Constructible types -/

namespace Ty

/-- Equal types feed the same to a hasher, whatever the hashes of their
members are. So a hash table finds a type if and only if an equal one is
kept, and inserting types one after the other keeps those that differ from
all before them, which are also the ones that a union keeps as variants. -/
theorem Constructible.hashing_agrees (inner : Hasher) :
    (∀ a b : Ty, a.Constructible → b.Constructible → (a == b) = true →
      hashData inner a = hashData inner b)
    ∧ ∀ (outer : Hasher) (T : HashTable fun t => outer (hashData inner t)),
        (∀ s t, t.Constructible → T.contains s t = (T.entries s).contains t)
        ∧ ∀ ts : List Ty, (∀ t ∈ ts, t.Constructible) →
            T.entries (ts.foldl T.insert T.empty) = firsts ts
            ∧ T.entries (ts.foldl T.insert T.empty) = distinct ts := by
  refine ⟨fun a b ha _ hab => hashData_eq_of_beq ha.wellFormed hab, ?_⟩
  intro outer T
  have hhash : ∀ a b : Ty, a.WellFormed → (a == b) = true →
      outer (hashData inner a) = outer (hashData inner b) :=
    fun a b ha hab => congrArg outer (hashData_eq_of_beq ha hab)
  refine ⟨fun s t ht => T.contains_eq hhash s ht.wellFormed, fun ts hts => ?_⟩
  have hkept := T.entries_insertAll hhash fun t ht => (hts t ht).wellFormed
  exact ⟨hkept.trans (distinct_eq_firsts ts), hkept⟩

/-- Two structs that differ in the order of their fields and variants, in
their names, and in that one holds a list where the other holds a reference
to a list that is gone. They hash alike, and only the first is kept. -/
theorem Constructible.hash_of_reordered :
    let next (id : DefId) : Ty :=
      .union (.plain none) [.ref .struct "L" id, .null]
    let l : Ty := .struct (.recursive "L" 1) [("next", next 1)]
    let a : Ty := .struct (.plain (some "P"))
      [("x", .union (.plain none) [.scalar .int, .null]),
        ("y", .union (.plain none) [l, .null])]
    let b : Ty := .struct (.plain none)
      [("y", next 2), ("x", .union (.plain none) [.null, .scalar .int])]
    let inner : Hasher := fun data => UInt64.ofNat (data.length * data.length)
    let T := HashTable.exact fun t => inner (hashData inner t)
    (a == b) = true ∧ hashData inner a = hashData inner b
    ∧ T.entries ([a, .scalar .string, b, .null].foldl T.insert T.empty)
      = [a, .scalar .string, .null] := by
  intro next l a b inner T
  have heval : TypeExpr.evalList Session.empty.context
      [.struct (some "P") [("x", .nullable (.scalar .int)),
          ("y", .nullable (.defineStruct (some "L") []
            [("next", .nullable (.self 0))]))],
        .scalar .string,
        .struct none [("y", .field (.defineStruct (some "L") []
            [("next", .nullable (.self 0))]) "next"),
          ("x", .union none [.null, .scalar .int])],
        .null]
      = .ok [a, .scalar .string, b, .null] := by cbv
  have hmade : ∀ t ∈ [a, .scalar .string, b, .null], t.Constructible :=
    fun t ht => Context.Arises.constructible (.session .empty) heval ht
  have heq : (a == b) = true := by cbv
  obtain ⟨hdata, htables⟩ := Constructible.hashing_agrees inner
  refine ⟨heq, hdata a b (hmade a (by simp)) (hmade b (by simp)) heq, ?_⟩
  rw [((htables inner T).2 _ hmade).1]
  cbv

end Ty

end Schemata
