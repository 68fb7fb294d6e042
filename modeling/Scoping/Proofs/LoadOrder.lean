import Scoping.Proofs.BuiltInterfaces

/-!
# What a module sees does not depend on incidental orders

A library is filled by loading interfaces, and an interface by adding exports. A module gets to see
neither history. Of a library it looks at the interfaces of the modules that it imports, and only at
the last one that was loaded for each; of an interface it looks at what the exports put into scope,
which does not depend on the order in which they were added. So two histories that agree on this
give the same scope, or the same failure, even if the libraries that they leave differ.

## Main definitions

* `Interface.BuiltAlike` — interfaces built in the same steps, perhaps in another order
* `Interface.last?` — the last interface of a module in a list

## Main results

* `Interface.BuiltAlike.env_eq` — such interfaces put the same into scope
* `Library.find?_loadAll` — the last interface that is loaded for a module is the one that counts
* `Library.importsEnv_congr` — imports see nothing else of a library
* `Library.scope_eq_of_loads` — histories that make no difference
-/

namespace Scoping

/-! ### The order of exports -/

namespace Interface

/-- Interfaces that are built in the same steps, perhaps in another order. -/
def BuiltAlike (i j : Interface) : Prop :=
  ∃ owner steps steps', steps.Perm steps' ∧ i = build owner steps ∧ j = build owner steps'

/-- **Interfaces that are built alike put the same into scope.** They need not be equal. -/
theorem BuiltAlike.env_eq {i j : Interface} (h : i.BuiltAlike j) :
    i.exports.env = j.exports.env := by
  obtain ⟨owner, steps, steps', hperm, rfl, rfl⟩ := h
  have hcontents : Contents.exported (steps.map (Step.toExport owner)) =
      .exported (steps'.map (Step.toExport owner)) :=
    Contents.exported_eq_of_perm (hperm.map _)
  rw [build_eq, build_eq]
  refine (Exports.holds_ofList _).unique ?_
  rw [hcontents]
  exact Exports.holds_ofList _

/-- The last interface of the module `n` in a list. -/
def last? (is : List Interface) (n : ModuleName) : Option Interface :=
  (is.filter fun i => i.owner = n).getLast?

end Interface

/-! ### The order of loading -/

namespace Library

theorem find?_load (l : Library) (i : Interface) (n : ModuleName) :
    (l.load i).find? n = if i.owner = n then some i else l.find? n := by
  by_cases hn : i.owner = n
  · subst hn
    rw [if_pos rfl]
    exact Table.get?_insert_self _ _ _
  · rw [if_neg hn]
    exact Table.get?_insert_of_ne _ (Ne.symm hn) _

/-- **The last interface that is loaded for a module is the one that counts.** -/
theorem find?_loadAll (l : Library) (is : List Interface) (n : ModuleName) :
    (l.loadAll is).find? n = (Interface.last? is n).or (l.find? n) := by
  induction is generalizing l with
  | nil => rfl
  | cons i is ih =>
    rw [loadAll, List.foldl_cons, ← loadAll, ih, find?_load, Interface.last?, Interface.last?,
      List.filter_cons]
    by_cases hn : i.owner = n
    · have hlast : ∀ js : List Interface, (i :: js).getLast? = js.getLast?.or (some i) := by
        intro js
        cases js <;> simp [List.getLast?_cons]
      simp [hn, hlast]
    · simp [hn]

/-! ### What imports see of a library -/

/-- **Imports see nothing of a library but what the interfaces of their modules put into scope.** -/
theorem importsEnv_congr {l l' : Library} {m : Module}
    (h : ∀ i ∈ m.imports, (l.find? i.value.source).map (fun j => j.exports.env) =
      (l'.find? i.value.source).map fun j => j.exports.env) :
    l.importsEnv m = l'.importsEnv m := by
  have himport : ∀ i ∈ m.imports, l.importEnv m.name.value i = l'.importEnv m.name.value i := by
    intro i hi
    have hi := h i hi
    rw [importEnv, importEnv]
    cases hl : l.find? i.value.source with
    | none =>
      rw [hl, eq_comm, Option.map_none, Option.map_eq_none_iff] at hi
      rw [hi]
    | some j =>
      rw [hl, eq_comm, Option.map_some, Option.map_eq_some_iff] at hi
      obtain ⟨j', hj', henv⟩ := hi
      rw [hj']
      exact congrArg (fun e : Env => Except.ok ((e.filterKeys i.value.admits).mapKeys i.value.key))
        henv.symm
  rw [importsEnv, importsEnv, mapM_congr himport]

/-- **Histories that make no difference.** If for every module that is imported either neither
history has an interface, or the last ones are built in the same steps up to their order, then
imports and scope of the module are the same, failures included. Neither the order in which an
interface was built nor the order of loading plays a part, nor do interfaces that were loaded for a
module before its last one, or for a module that is not imported. -/
theorem scope_eq_of_loads (m : Module) (is js : List Interface)
    (h : ∀ i ∈ m.imports, Option.Rel Interface.BuiltAlike (Interface.last? is i.value.source)
      (Interface.last? js i.value.source)) :
    (empty.loadAll is).importsEnv m = (empty.loadAll js).importsEnv m ∧
      (empty.loadAll is).moduleScope m = (empty.loadAll js).moduleScope m := by
  have himports : (empty.loadAll is).importsEnv m = (empty.loadAll js).importsEnv m := by
    refine importsEnv_congr fun i hi => ?_
    have hempty : empty.find? i.value.source = none := rfl
    have hrel := h i hi
    rw [find?_loadAll, find?_loadAll, hempty, Option.or_none, Option.or_none]
    generalize Interface.last? is i.value.source = last at hrel
    generalize Interface.last? js i.value.source = last' at hrel
    cases hrel with
    | none => rfl
    | some halike => exact congrArg some halike.env_eq
  exact ⟨himports, by rw [moduleScope, moduleScope, himports]⟩

/-- Three exports of `+`, two of them of the module itself, which disagree on its fixity. -/
def plusSteps : List Interface.Step :=
  [.own (.value ⟨"+"⟩ none), .any (.newtype (.qualified ⟨"Core", []⟩ ⟨"+"⟩)),
    .own (.value ⟨"+"⟩ (some ⟨.left, 6⟩))]

/-- The module that `plusImporter` imports is loaded twice, and another one in between. -/
def plusLoads : List Interface :=
  [.build ⟨"Lib", []⟩ [.own (.synonym ⟨"+"⟩)], .build ⟨"Core", []⟩ [], .build ⟨"Lib", []⟩ plusSteps]

theorem scope_eq_of_loads_plus :
    (∀ i ∈ plusImporter.imports, Option.Rel Interface.BuiltAlike
      (Interface.last? plusLoads i.value.source)
      (Interface.last? [.build ⟨"Lib", []⟩ plusSteps.reverse] i.value.source)) ∧
    Interface.build ⟨"Lib", []⟩ plusSteps.reverse ≠ .build ⟨"Lib", []⟩ plusSteps ∧
    (empty.loadAll plusLoads).moduleScope plusImporter =
      (empty.loadAll [.build ⟨"Lib", []⟩ plusSteps.reverse]).moduleScope plusImporter := by
  have halike : Interface.BuiltAlike (.build ⟨"Lib", []⟩ plusSteps)
      (.build ⟨"Lib", []⟩ plusSteps.reverse) :=
    ⟨_, _, _, (List.reverse_perm _).symm, rfl, rfl⟩
  have hloads : ∀ i ∈ plusImporter.imports, Option.Rel Interface.BuiltAlike
      (Interface.last? plusLoads i.value.source)
      (Interface.last? [.build ⟨"Lib", []⟩ plusSteps.reverse] i.value.source) := by
    intro i hi
    have hsource : i.value.source = ⟨"Lib", []⟩ := by
      revert i
      decide
    rw [hsource]
    exact .some halike
  exact ⟨hloads, by decide, (scope_eq_of_loads plusImporter _ _ hloads).2⟩

end Library

end Scoping
