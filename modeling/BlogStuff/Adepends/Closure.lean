import BlogStuff.Adepends.Modules
import BlogStuff.Graph.Search

/-!
# BlogStuff.Adepends.Closure

`add_module_to_source` of `adepends.py`: the modules a module depends on, directly or through
other modules.

The function is a depth-first search over the pool, with the global `modules` as the table of what
it has visited, so it is an instance of `Graph.visit`. A module may depend on itself, on modules
that depend on it, and on names no makefile defines.
-/

namespace BlogStuff.Adepends

open BlogStuff.Python BlogStuff.Graph

/-- The names in `module.depends`. -/
def Store.dependsOf (s : Store) (i : Nat) : List Str := s.list (s.module i).depends

/-- `add_module_to_source(mod_name)`, where `modules` is the table before; the depth of the
recursion is bounded. -/
def addModuleToSource (s : Store) : Nat → List (Str × Nat) → Str → Option (List (Str × Nat))
  | 0, _, _ => none
  | depth + 1, modules, modName =>
      if modules.any fun entry => entry.1 == modName then some modules
      else
        match s.find modName with
        | none => some modules
        | some mod =>
            (s.dependsOf mod).foldlM (addModuleToSource s depth) (modules ++ [(modName, mod)])

theorem addModuleToSource_eq_visit (s : Store) (depth : Nat) :
    addModuleToSource s depth = visit s.find s.dependsOf depth := by
  induction depth with
  | zero => rfl
  | succ depth ih =>
      funext modules modName
      have hseen : (modules.any fun entry => entry.1 == modName) = true ↔
          modName ∈ modules.map Prod.fst := by
        simp
      rw [addModuleToSource, visit, ih, if_congr hseen rfl rfl]
      split_ifs
      · rfl
      · cases s.find modName <;> rfl

/-- One module depends on the other: the first is defined, and lists the second. -/
def Store.DependsOn (s : Store) (m n : Str) : Prop :=
  ∃ i, s.find m = some i ∧ n ∈ s.dependsOf i

/-- **The table holds the defined modules that are reached**, each once and under its own
name. The depth that suffices is the number of names in the pool: each nested call adds a name
that was not in the table before, so there are no more of them (`missing`). -/
theorem addModuleToSource_closure (s : Store) (modName : Str) (depth : Nat)
    (hdepth : s.pool.length < depth) :
    ∃ modules, addModuleToSource s depth [] modName = some modules ∧
      (modules.map Prod.fst).Nodup ∧
      ∀ n i, (n, i) ∈ modules ↔
        s.find n = some i ∧ Relation.ReflTransGen s.DependsOn modName n := by
  have hnodes : ∀ n, (s.find n).isSome → n ∈ (s.pool.map Prod.fst).toFinset := by
    intro n hn
    obtain ⟨i, hi⟩ := Option.isSome_iff_exists.mp hn
    obtain ⟨front, back, hpool, -⟩ := List.lookup_eq_some_iff.mp hi
    rw [List.mem_toFinset, hpool]
    simp
  have hmissing : missing (s.pool.map Prod.fst).toFinset ([] : List (Str × Nat)) < depth := by
    refine lt_of_le_of_lt ?_ hdepth
    calc missing (s.pool.map Prod.fst).toFinset ([] : List (Str × Nat))
        ≤ (s.pool.map Prod.fst).toFinset.card := Finset.card_le_card Finset.sdiff_subset
      _ ≤ (s.pool.map Prod.fst).length := List.toFinset_card_le _
      _ = s.pool.length := List.length_map _
  obtain ⟨modules, hrun, hextends⟩ : ∃ modules,
      visit s.find s.dependsOf depth [] modName = some modules ∧
        Extends s.find s.dependsOf [modName] [] modules :=
    visit_extends hnodes depth [] modName hmissing
  refine ⟨modules, ?_, hextends.nodup List.nodup_nil, fun n i => hextends.mem_iff⟩
  rw [addModuleToSource_eq_visit, hrun]

/-- A module and a library that depend on each other, and on a name without a module. -/
def mutualStore : Store where
  module i := ⟨none, i, none, [], []⟩
  list i := if i = 0 then ["lib".toList, "libc".toList] else ["app".toList, "lib".toList]
  next := 2
  pool := [("app".toList, 0), ("lib".toList, 1)]

theorem addModuleToSource_closure_mutual :
    ∃ modules, addModuleToSource mutualStore 3 [] "app".toList = some modules ∧
      (modules.map Prod.fst).Nodup ∧
      ∀ n i, (n, i) ∈ modules ↔ mutualStore.find n = some i ∧
        Relation.ReflTransGen mutualStore.DependsOn "app".toList n :=
  addModuleToSource_closure mutualStore "app".toList 3 (by decide)

example : addModuleToSource mutualStore 3 [] "app".toList = some mutualStore.pool := by
  decide

end BlogStuff.Adepends
