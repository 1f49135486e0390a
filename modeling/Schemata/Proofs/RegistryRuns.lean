import Mathlib
import Schemata.Proofs.Aggregates

/-!
# Registries over whole runs

There are two ways to add to a registry: registering a function, which is
refused if its name is taken, and putting in the built-in aggregates, which
takes the place of what is there. So what a name stands for depends on the
calls that were made and on their order.

It does so in a simple way (`Registry.run_lookups`): the built-in aggregates
come first if they were ever put in, and after them the first function that
was to be registered under the name. Each call changes what is found by one
equation (`find?_register`, `find?_withBuiltins`), and the description of the
calls changes by the same one. The registry of every session comes about by
such calls (`Session.Reachable.exists_run`).
-/

namespace Schemata

namespace Registry

/-! ## Single calls -/

/-- A change to a registry. -/
inductive Call where
  | register (f : Function)
  | addBuiltins

/-- The function that is to be registered. -/
def Call.function? : Call → Option Function
  | .register f => some f
  | .addBuiltins => none

def Call.addsBuiltins : Call → Bool
  | .register _ => false
  | .addBuiltins => true

/-- The registry after a call; one that is refused changes nothing. -/
def after (r : Registry) : Call → Registry
  | .register f =>
    match r.register f with
    | .ok r' => r'
    | .error _ => r
  | .addBuiltins => r.withBuiltins

variable {r : Registry} {f : Function} {name : String}

theorem register_error_iff {e : Error} : r.register f = .error e ↔
    r.contains f.name = true ∧ e = .duplicateName f.name "function registry" := by
  unfold register
  cases r.contains f.name <;> simp [eq_comm]

theorem after_of_contains (h : r.contains f.name = true) :
    r.after (.register f) = r := by
  rw [after, register, if_pos h]

theorem after_of_not_contains (h : r.contains f.name = false) :
    r.after (.register f) = r.put f := by
  rw [after, register, if_neg (Bool.eq_false_iff.mp h)]

/-- A function that is registered is found where there was nothing. -/
theorem find?_register (r : Registry) (f : Function) (name : String) :
    (r.after (.register f)).find? name
      = (r.find? name).or (if f.name = name then some f else none) := by
  split_ifs with hname
  · subst hname
    cases hfind : r.find? f.name with
    | some g =>
        rw [after_of_contains (by rw [contains, hfind]; rfl), hfind]
        rfl
    | none =>
        rw [after_of_not_contains (by rw [contains, hfind]; rfl),
          find?_put_self]
        rfl
  · rw [Option.or_none]
    cases hcontains : r.contains f.name with
    | true => rw [after_of_contains hcontains]
    | false => rw [after_of_not_contains hcontains, find?_put_of_ne hname]

/-- The built-in functions are found before all others. -/
theorem find?_withBuiltins (r : Registry) (name : String) :
    r.withBuiltins.find? name
      = (builtins.find? (·.name == name)).or (r.find? name) := by
  rw [withBuiltins]
  cases hfind : builtins.find? (·.name == name) with
  | none =>
      refine find?_foldl_put_of_ne (fun f hf => ?_) r
      simpa using List.find?_eq_none.mp hfind f hf
  | some f =>
      have hname : f.name = name := by simpa using List.find?_some hfind
      rw [← hname, find?_foldl_put builtins_names_nodup
        (List.mem_of_find?_eq_some hfind)]
      rfl

/-! ## Names -/

theorem mem_names_iff : name ∈ r.names ↔ r.contains name = true := by
  rw [contains, find?, List.find?_isSome, names, List.mem_map]
  simp

theorem place_increasing {fs : List Function}
    (h : fs.Pairwise fun f g => f.name < g.name) (f : Function) :
    (place f fs).Pairwise fun f g => f.name < g.name := by
  induction fs with
  | nil => exact List.pairwise_singleton ..
  | cons g fs ih =>
      obtain ⟨hg, hrest⟩ := List.pairwise_cons.mp h
      rw [place]
      split_ifs with hlt heq
      · refine List.pairwise_cons.mpr ⟨fun k hk => ?_, h⟩
        rcases List.mem_cons.mp hk with rfl | hk
        · exact hlt
        · exact lt_trans hlt (hg k hk)
      · refine List.pairwise_cons.mpr ⟨fun k hk => ?_, hrest⟩
        rw [heq]
        exact hg k hk
      · refine List.pairwise_cons.mpr ⟨fun k hk => ?_, ih hrest⟩
        rcases mem_place hk with rfl | hk
        · exact lt_of_le_of_ne (not_lt.mp hlt) (Ne.symm heq)
        · exact hg k hk

/-- The names are in increasing order, each once. -/
def Increasing (r : Registry) : Prop :=
  r.functions.Pairwise fun f g => f.name < g.name

theorem Increasing.foldl_put {fs : List Function} :
    ∀ {r : Registry}, r.Increasing → (fs.foldl put r).Increasing := by
  induction fs with
  | nil => exact fun h => h
  | cons f fs ih => exact fun h => ih (place_increasing h f)

theorem Increasing.after (h : r.Increasing) (c : Call) :
    (r.after c).Increasing := by
  cases c with
  | register f =>
      cases hcontains : r.contains f.name with
      | true => rwa [after_of_contains hcontains]
      | false =>
          rw [after_of_not_contains hcontains]
          exact place_increasing h f
  | addBuiltins => exact h.foldl_put

/-! ## Runs -/

/-- The registry that calls make of an empty one. -/
def run (calls : List Call) : Registry := calls.foldl after .empty

theorem run_concat (calls : List Call) (c : Call) :
    run (calls ++ [c]) = (run calls).after c :=
  List.foldl_concat ..

/-- What a name stands for after some calls: the built-in function of that
name if they were put in, and else the first one that was to be
registered. -/
def resolved (calls : List Call) (name : String) : Option Function :=
  (if calls.any Call.addsBuiltins then builtins.find? (·.name == name)
    else none).or ((calls.filterMap Call.function?).find? (·.name == name))

theorem resolved_concat_register (calls : List Call) (f : Function)
    (name : String) : resolved (calls ++ [.register f]) name
      = (resolved calls name).or (if f.name = name then some f else none) := by
  simp only [resolved, List.any_append, List.filterMap_append,
    List.find?_append]
  rw [Option.or_assoc]
  simp [Call.addsBuiltins, Call.function?]

theorem resolved_concat_addBuiltins (calls : List Call) (name : String) :
    resolved (calls ++ [.addBuiltins]) name
      = (builtins.find? (·.name == name)).or (resolved calls name) := by
  simp only [resolved, List.any_append, List.filterMap_append,
    List.find?_append]
  cases calls.any Call.addsBuiltins <;>
    cases builtins.find? (·.name == name) <;>
    simp [Call.addsBuiltins, Call.function?]

theorem find?_run (calls : List Call) (name : String) :
    (run calls).find? name = resolved calls name := by
  induction calls using List.reverseRecOn with
  | nil => rfl
  | append_singleton calls c ih =>
      rw [run_concat]
      cases c with
      | register f => rw [find?_register, ih, resolved_concat_register]
      | addBuiltins =>
          rw [after, find?_withBuiltins, ih, resolved_concat_addBuiltins]

theorem run_increasing (calls : List Call) : (run calls).Increasing := by
  induction calls using List.reverseRecOn with
  | nil => exact .nil
  | append_singleton calls c ih =>
      rw [run_concat]
      exact ih.after c

/-- After any calls, a function is refused exactly if its name is taken, and
then everything is found as before. What is found under a name is the
built-in function, if there is one and they were put in at any time, and
else the first function that was to be registered. The names are those under
which something is found, in increasing order. -/
theorem run_lookups (calls : List Call) :
    (∀ f e, (run calls).register f = .error e ↔
      (run calls).contains f.name = true
        ∧ e = .duplicateName f.name "function registry")
    ∧ (∀ f, (run calls).contains f.name = true → ∀ name,
      (run (calls ++ [.register f])).find? name = (run calls).find? name)
    ∧ (∀ name, (run calls).find? name = resolved calls name)
    ∧ (∀ name, (run calls).contains name = true ↔
      ∃ f, (run calls).find? name = some f)
    ∧ (run calls).names.Pairwise (· < ·)
    ∧ ∀ name, name ∈ (run calls).names ↔ (run calls).contains name = true := by
  refine ⟨fun f e => register_error_iff, fun f h name => ?_, find?_run calls,
    fun name => Option.isSome_iff_exists, ?_, fun name => mem_names_iff⟩
  · rw [run_concat, after_of_contains h]
  · exact List.pairwise_map.mpr (run_increasing calls)

/-- A function that has the name of an aggregate, before the aggregates are
put in and after, and two functions of one name. -/
theorem run_lookups_interleaved :
    let early : Function := ⟨"sum", .tuple⟩
    let late : Function := ⟨"avg", .tuple⟩
    let now : Function := ⟨"now", .constant (.scalar .timestamp)⟩
    let again : Function := ⟨"now", .struct⟩
    let calls : List Call :=
      [.register early, .register now, .addBuiltins, .register late,
        .register again]
    (run calls).find? "sum" = some ⟨"sum", .nullableNumeric⟩
      ∧ (run calls).find? "avg" = some ⟨"avg", .nullableDouble⟩
      ∧ (run calls).find? "now" = some now
      ∧ (run calls).contains again.name = true
      ∧ (run calls).register again
        = .error (.duplicateName "now" "function registry")
      ∧ (run (calls ++ [.register again])).find? "now" = some now
      ∧ (run calls).names
        = ["avg", "count", "first", "max", "min", "now", "sum"] := by
  intro early late now again calls
  obtain ⟨hrefused, hkept, hfound, hcontains, -, -⟩ := run_lookups calls
  have hnow : (run calls).find? "now" = some now := hfound "now"
  have htaken : (run calls).contains "now" = true :=
    (hcontains "now").mpr ⟨now, hnow⟩
  refine ⟨hfound "sum", hfound "avg", hnow, htaken,
    (hrefused again _).mpr ⟨htaken, rfl⟩, (hkept again htaken "now").trans hnow,
    ?_⟩
  decide +kernel

end Registry

/-! ## Sessions -/

/-- The registry of a session is what some calls make of an empty one. -/
theorem Session.Reachable.exists_run {s : Session} (hs : s.Reachable) :
    ∃ calls, s.registry = Registry.run calls := by
  induction hs with
  | empty => exact ⟨[], rfl⟩
  | @perform s s' a _ h ih =>
      obtain ⟨calls, hcalls⟩ := ih
      cases a with
      | storeType name e =>
          obtain ⟨t, -, h⟩ := exists_of_bind_eq_ok h
          exact ⟨calls, Except.ok.inj h ▸ hcalls⟩
      | dropType name => exact ⟨calls, Except.ok.inj h ▸ hcalls⟩
      | storeValue name e =>
          obtain ⟨v, -, h⟩ := exists_of_bind_eq_ok h
          exact ⟨calls, Except.ok.inj h ▸ hcalls⟩
      | newRegistry builtins =>
          obtain rfl := Except.ok.inj h
          cases builtins with
          | true => exact ⟨[.addBuiltins], rfl⟩
          | false => exact ⟨[], rfl⟩
      | addBuiltins =>
          obtain rfl := Except.ok.inj h
          refine ⟨calls ++ [.addBuiltins], ?_⟩
          rw [Registry.run_concat, ← hcalls]
          rfl
      | register name rule =>
          obtain ⟨r, -, h⟩ := exists_of_bind_eq_ok h
          obtain ⟨registry, hregistry, h⟩ := exists_of_bind_eq_ok h
          obtain rfl := Except.ok.inj h
          refine ⟨calls ++ [.register ⟨name, r⟩], ?_⟩
          rw [Registry.run_concat, ← hcalls, Registry.after,
            Fault.lift_ok hregistry]

end Schemata
