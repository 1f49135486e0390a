import Mathlib
import Schemata.Proofs.ValueEquality

/-!
# Building a map and looking into it

A map is built by setting one entry after the other. What comes out is
described by the input alone: the keys are the ones that are equal to none
before them (`Value.firstKeys`), and the value of a key is that of the last
entry with an equal one (`Value.lastValue`). `Records` says that a map is
so described by the entries that were set so far; setting another entry
keeps it (`Records.set`), and so does a run over a list of entries
(`Records.addEntries`).

Keys are found by `==`, which is neither the identity nor reflexive. An
entry may be overwritten under a key that is not the one it is stored with,
and a key that is not a number is stored again each time. What is needed of
`==` is that it is symmetric and transitive.
-/

namespace Schemata

theorem Scalar.beq_congr_left {s t u : Scalar} (h : (s == t) = true) :
    (s == u) = (t == u) :=
  Bool.eq_iff_iff.mpr ⟨Scalar.beq_trans (Scalar.beq_symm h), Scalar.beq_trans h⟩

theorem Binary.zero_beq_zero {f : Format} (p q : Bool) :
    (zero p == (zero q : Binary f)) = true := by
  have hzero : ∀ r, (zero r : Binary f).magnitude = 0 := fun r =>
    magnitude_ofMagnitude r (Nat.two_pow_pos _)
  exact beq_iff.mpr
    ⟨.finite 0, quantity_zero (hzero p), quantity_zero (hzero q)⟩

namespace Value

/-! ## The first keys -/

/-- The keys that are equal to none before them: the first one, and those
of the rest that are not equal to it either. -/
def firstKeys : List Value → List Value
  | [] => []
  | k :: ks => k :: (firstKeys ks).filter fun l => !(k == l)

theorem firstKeys_concat (ks : List Value) (k : Value) :
    firstKeys (ks ++ [k])
      = firstKeys ks ++ if ks.any (· == k) then [] else [k] := by
  induction ks with
  | nil => rfl
  | cons a ks ih =>
      rw [List.cons_append, firstKeys, ih, firstKeys, List.filter_append,
        List.any_cons, List.cons_append]
      cases ks.any (· == k) <;> cases h : (a == k) <;> simp [h]

theorem firstKeys_pairwise (ks : List Value) :
    (firstKeys ks).Pairwise fun k l => (k == l) = false := by
  induction ks with
  | nil => exact .nil
  | cons k ks ih =>
      refine List.pairwise_cons.mpr ⟨fun l hl => ?_, ih.filter _⟩
      simpa using (List.mem_filter.mp hl).2

/-- Leaving out keys that are equal to earlier ones loses none, up to
equality. -/
theorem any_firstKeys (ks : List Value) (k : Value) :
    (firstKeys ks).any (· == k) = ks.any (· == k) := by
  induction ks with
  | nil => rfl
  | cons a ks ih =>
      rw [firstKeys, List.any_cons, List.any_cons, ← ih, List.any_filter]
      cases hak : (a == k) with
      | true => rfl
      | false =>
          -- what is equal to `a` is not equal to `k`
          have hdrop : ∀ l : Value, (!(a == l) && l == k) = (l == k) := by
            intro l
            cases hlk : l == k with
            | false => rw [Bool.and_false]
            | true =>
                have hal : ¬(a == l) = true := fun hal =>
                  Bool.eq_false_iff.mp hak (beq_trans hal hlk)
                rw [Bool.eq_false_iff.mpr hal]
                rfl
          simp only [hdrop]

/-! ## The last value -/

/-- The value of the last entry with an equal key, or null. -/
def lastValue (entries : List (Value × Value)) (k : Value) : Value :=
  ((entries.filter fun e => e.1 == k).getLast?.map Prod.snd).getD .null

theorem lastValue_concat (entries : List (Value × Value)) (e : Value × Value)
    (k : Value) : lastValue (entries ++ [e]) k
      = if e.1 == k then e.2 else lastValue entries k := by
  unfold lastValue
  rw [List.filter_append, List.filter_singleton]
  cases e.1 == k <;> simp

/-! ## Setting an entry -/

theorem keys_setEntry (entries : List (Scalar × Value)) (k : Scalar)
    (v : Value) : (setEntry entries k v).map Prod.fst
      = entries.map Prod.fst
        ++ if entries.any (fun e => e.1 == k) then [] else [k] := by
  induction entries with
  | nil => rfl
  | cons e entries ih =>
      rw [setEntry, List.any_cons]
      cases e.1 == k with
      | true => simp
      | false =>
          rw [if_neg Bool.false_ne_true, List.map_cons, ih, List.map_cons,
            Bool.false_or, List.cons_append]

theorem entryOrNull_cons (e : Scalar × Value) (entries : List (Scalar × Value))
    (q : Scalar) : entryOrNull (e :: entries) (.scalar q)
      = if e.1 == q then e.2 else entryOrNull entries (.scalar q) := by
  rw [entryOrNull, entryOrNull, List.find?_cons]
  cases e.1 == q <;> rfl

/-- A key that is set has the value, and so has every key that is equal to
it, whichever of them the map stores. All others keep theirs. -/
theorem entryOrNull_setEntry (entries : List (Scalar × Value)) (k : Scalar)
    (v q : Value) : entryOrNull (setEntry entries k v) q
      = if Value.scalar k == q then v else entryOrNull entries q := by
  cases q with
  | scalar q =>
      rw [scalar_beq_scalar]
      induction entries with
      | nil => rw [setEntry, entryOrNull_cons]
      | cons e entries ih =>
          rw [setEntry, entryOrNull_cons]
          cases hek : e.1 == k with
          | true =>
              rw [if_pos rfl, entryOrNull_cons, Scalar.beq_congr_left hek]
              cases k == q <;> rfl
          | false =>
              rw [if_neg Bool.false_ne_true, entryOrNull_cons, ih]
              cases hkq : k == q with
              | false => rfl
              | true =>
                  -- the stored key differs from `k`, hence also from `q`
                  have heq : ¬(e.1 == q) = true := fun heq =>
                    Bool.eq_false_iff.mp hek
                      (Scalar.beq_trans heq (Scalar.beq_symm hkq))
                  rw [if_neg heq]
                  rfl
  | _ => rfl

/-! ## Building a map -/

/-- The map is what comes of setting the entries: its keys are the first
ones, and each has the value that was set last. -/
structure Records (done : List (Value × Value))
    (stored : List (Scalar × Value)) : Prop where
  keys : stored.map (fun e => .scalar e.1) = firstKeys (done.map Prod.fst)
  values : ∀ k, entryOrNull stored k = lastValue done k

theorem records_nil : Records [] [] where
  keys := rfl
  values k := by cases k <;> rfl

theorem Records.any_eq {done : List (Value × Value)}
    {stored : List (Scalar × Value)} (h : Records done stored) (k : Scalar) :
    stored.any (fun e => e.1 == k)
      = (done.map Prod.fst).any (· == Value.scalar k) := by
  rw [← any_firstKeys, ← h.keys, List.any_map]
  rfl

theorem Records.set {done : List (Value × Value)}
    {stored : List (Scalar × Value)} (h : Records done stored) (k : Scalar)
    (v : Value) : Records (done ++ [(.scalar k, v)]) (setEntry stored k v) where
  keys := by
    have hkeys := congrArg (List.map Value.scalar) (keys_setEntry stored k v)
    rw [List.map_map, List.map_append, List.map_map, h.any_eq] at hkeys
    rw [List.map_append, List.map_singleton, firstKeys_concat, ← h.keys]
    refine hkeys.trans ?_
    congr 1
    split <;> rfl
  values q := by
    rw [entryOrNull_setEntry, lastValue_concat, h.values]

theorem Records.addEntries {entries : List (Value × Value)} :
    ∀ {done : List (Value × Value)} {stored : List (Scalar × Value)},
      Records done stored → (∀ e ∈ entries, e.1.isScalar = true) →
      ∃ result, addEntries stored entries = .ok result
        ∧ Records (done ++ entries) result := by
  induction entries with
  | nil =>
      intro done stored h _
      exact ⟨stored, rfl, by rwa [List.append_nil]⟩
  | cons e entries ih =>
      intro done stored h hscalar
      obtain ⟨he, hrest⟩ := List.forall_mem_cons.mp hscalar
      obtain ⟨key, v⟩ := e
      cases key with
      | scalar k =>
          obtain ⟨result, hok, hresult⟩ := ih (h.set k v) hrest
          rw [List.append_assoc] at hresult
          exact ⟨result, hok, hresult⟩
      | _ => cases he

theorem addEntries_error {entries : List (Value × Value)}
    {e : Value × Value}
    (h : entries.find? (fun e => !e.1.isScalar) = some e) :
    ∀ stored, addEntries stored entries = .error (.mapKey e.1.render) := by
  induction entries with
  | nil => cases h
  | cons f entries ih =>
      intro stored
      obtain ⟨key, v⟩ := f
      cases key with
      | scalar k => exact ih h _
      | _ =>
          obtain rfl := Option.some.inj h
          rfl

theorem beq_scalar_iff {v : Value} {t : Scalar} :
    (v == .scalar t) = true ↔ ∃ s, v = .scalar s ∧ (s == t) = true := by
  rw [beq_eq]
  cases v <;> simp [Value.beq, items?]

/-- What is not a number is equal to nothing. -/
theorem beq_of_isNaN {n : Number} (h : n.IsNaN) (v : Value) :
    (number n == v) = false ∧ (v == number n) = false := by
  have hself : ¬(Scalar.number n == .number n) = true := fun heq =>
    Number.beq_self_iff.mp heq h
  refine ⟨Bool.eq_false_iff.mpr fun heq => hself ?_,
    Bool.eq_false_iff.mpr fun heq => hself ?_⟩
  · obtain ⟨t, -, hnt⟩ := scalar_beq_iff.mp heq
    exact Scalar.beq_trans hnt (Scalar.beq_symm hnt)
  · obtain ⟨s, -, hsn⟩ := beq_scalar_iff.mp heq
    exact Scalar.beq_trans (Scalar.beq_symm hsn) hsn

/-- A map is refused exactly if a key is no scalar, and the first such key
is reported. Otherwise it has the keys that are equal to none before them,
no two of which are equal, and the value of a key is that of the last entry
with an equal one. Decimals are equal as numbers, zeros whatever their sign,
and what is not a number is equal to nothing. -/
theorem mapOf_entries (entries : List (Value × Value)) :
    (∀ e, mapOf entries = .error e ↔
      ∃ p, entries.find? (fun p => !p.1.isScalar) = some p
        ∧ e = .mapKey p.1.render)
    ∧ ((∀ p ∈ entries, p.1.isScalar = true) →
      ∃ stored, mapOf entries = .ok (.map stored)
        ∧ stored.Pairwise (fun a b =>
          (a.1 == b.1) = false ∧ (b.1 == a.1) = false)
        ∧ stored.map (fun a => .scalar a.1) = firstKeys (entries.map Prod.fst)
        ∧ ∀ k, entryOrNull stored k = lastValue entries k)
    ∧ (∀ d e : Decimal, (number (.decimal d) == number (.decimal e)) = true ↔
      d.toRat = e.toRat)
    ∧ (∀ p q : Bool,
      (number (.float (.zero p)) == number (.float (.zero q))) = true
        ∧ (number (.double (.zero p)) == number (.double (.zero q))) = true)
    ∧ ∀ n : Number, n.IsNaN → ∀ v,
      (number n == v) = false ∧ (v == number n) = false := by
  have hbuilt : (∀ p ∈ entries, p.1.isScalar = true) →
      ∃ stored, mapOf entries = .ok (.map stored) ∧ Records entries stored := by
    intro hscalar
    obtain ⟨stored, hok, hrecords⟩ := records_nil.addEntries hscalar
    exact ⟨stored, by rw [mapOf, hok]; rfl, hrecords⟩
  refine ⟨fun e => ?_, fun hscalar => ?_, fun d e => Decimal.beq_iff,
    fun p q => ⟨Binary.zero_beq_zero p q, Binary.zero_beq_zero p q⟩,
    fun n hn v => beq_of_isNaN hn v⟩
  · cases hfind : entries.find? (fun p => !p.1.isScalar) with
    | none =>
        obtain ⟨stored, hok, -⟩ := hbuilt (by simpa using hfind)
        simp [hok]
    | some p =>
        rw [mapOf, addEntries_error hfind]
        simp [bind, Except.bind, eq_comm]
  · obtain ⟨stored, hok, hrecords⟩ := hbuilt hscalar
    refine ⟨stored, hok, ?_, hrecords.keys, hrecords.values⟩
    have hdistinct := firstKeys_pairwise (entries.map Prod.fst)
    rw [← hrecords.keys, List.pairwise_map] at hdistinct
    refine hdistinct.imp fun {a b} hab => ⟨hab, ?_⟩
    exact Bool.eq_false_iff.mpr fun hba =>
      Bool.eq_false_iff.mp hab (Scalar.beq_symm hba)

/-- Keys of different scales and signs, one that is twice not a number, and
a key that is no scalar. -/
theorem mapOf_entries_repeated :
    let nan : Value := number (.double .notNumber)
    let text (content : String) : Value := .scalar (.text .string content)
    let entries : List (Value × Value) :=
      [(number (.decimal ⟨10, 1⟩), text "a"), (nan, text "b"),
        (number (.double (.zero true)), text "c"),
        (number (.decimal ⟨100, 2⟩), text "d"), (nan, text "e"),
        (number (.double (.zero false)), text "f")]
    let stored : List (Scalar × Value) :=
      [(.number (.decimal ⟨10, 1⟩), text "d"),
        (.number (.double .notNumber), text "b"),
        (.number (.double (.zero true)), text "f"),
        (.number (.double .notNumber), text "e")]
    (∀ p ∈ entries, p.1.isScalar = true)
      ∧ mapOf entries = .ok (.map stored)
      ∧ entryOrNull stored (number (.decimal ⟨1, 0⟩)) = text "d"
      ∧ entryOrNull stored nan = .null
      ∧ (nan == nan) = false
      ∧ mapOf (entries ++ [(.null, text "g"), (.tuple [], text "h")])
        = .error (.mapKey "null") := by
  intro nan text entries stored
  obtain ⟨-, hbuilt, -, -, hnan⟩ := mapOf_entries entries
  have hnotNumber : (Number.double .notNumber).IsNaN :=
    Binary.reading_notNumber (by decide +kernel)
  have hscalar : ∀ p ∈ entries, p.1.isScalar = true := by decide
  have hmap : mapOf entries = .ok (.map stored) := rfl
  obtain ⟨stored', hok, -, -, hvalues⟩ := hbuilt hscalar
  obtain rfl : stored = stored' := by
    have heq := Except.ok.inj (hmap.symm.trans hok)
    exact Value.map.inj heq
  refine ⟨hscalar, hmap, ?_, ?_, ?_, ?_⟩
  · rw [hvalues]
    rfl
  · rw [hvalues]
    rfl
  · exact (hnan _ hnotNumber nan).1
  · exact ((mapOf_entries _).1 _).mpr ⟨(.null, text "g"), rfl, rfl⟩

end Value

end Schemata
