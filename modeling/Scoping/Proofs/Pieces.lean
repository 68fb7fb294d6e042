import Scoping.Proofs.Failures

/-!
# Scopes in pieces

A scope that is made of several constructs can be made piece by piece: cut their list anywhere, take
the environment of each piece, and put the two side by side. If a piece has none, then the first
such piece says why.

For constructs that are put side by side as they are, that is how lists are gone through. For the
members of a module there is more to it. They get their owner when they are already side by side,
and giving an owner to keys is not the same before and after a merge in general: keys that become
one are combined in the order of the old keys, whichever environment they come from. It is the same
here because declarations introduce bare names only, so no two keys become one.

## Main definitions

* `Env.mergeInTurn` — two environments side by side, either of which may have failed

## Main results

* `mapM_append_mergeAll` — collecting environments along a list in two pieces
* `Env.Holds.qualify_merge` — giving an owner to declarations piece by piece
* `Declaration.envAll_append`, `Declaration.map_qualify_append`, `Library.importsEnv_append`
* `scopes_in_pieces` — all scopes that are made of several constructs
-/

namespace Scoping

/-- Two environments side by side, or the failure of the first one that fails. -/
def Env.mergeInTurn {ε : Type} (a b : Except ε Env) : Except ε Env := do
  return (← a).merge (← b)

/-! ### Lists in pieces -/

theorem mapM_append_mergeAll {α ε : Type} (f : α → Except ε Env) (l l' : List α) :
    ((l ++ l').mapM f).map Env.mergeAll =
      Env.mergeInTurn ((l.mapM f).map Env.mergeAll) ((l'.mapM f).map Env.mergeAll) := by
  rw [List.mapM_append]
  cases l.mapM f with
  | error e => rfl
  | ok es =>
    cases l'.mapM f with
    | error e => rfl
    | ok es' => exact congrArg Except.ok (Env.mergeAll_append es es')

theorem Env.ofEntries_flatMap_append {α : Type} (entries : α → List Entry) (l l' : List α) :
    ofEntries ((l ++ l').flatMap entries) =
      (ofEntries (l.flatMap entries)).merge (ofEntries (l'.flatMap entries)) := by
  rw [List.flatMap_append, ofEntries_append]

/-! ### Declarations and modules in pieces -/

theorem members_append (owner : Option ModuleName) (os os' : List Outline) :
    members owner (os ++ os') = (members owner os).merge (members owner os') := by
  ext1 <;> funext k <;> by_cases howner : k.owner = owner <;>
    simp [members, Contents.merge, howner]

/-- **Declarations may be given their owner piece by piece.** -/
theorem Env.Holds.qualify_merge {a b : Env} {os os' : List Outline}
    (ha : a.Holds (members none os)) (hb : b.Holds (members none os')) (n : ModuleName) :
    (a.merge b).qualify n = (a.qualify n).merge (b.qualify n) := by
  have hmerged : (a.merge b).Holds (members none (os ++ os')) := by
    rw [members_append]
    exact ha.merge hb
  have hpieces : ((a.qualify n).merge (b.qualify n)).Holds (members (some n) (os ++ os')) := by
    rw [members_append]
    exact (ha.qualify_members n).merge (hb.qualify_members n)
  exact (hmerged.qualify_members n).unique hpieces

namespace Declaration

theorem envAll_append (ds ds' : List Declaration) :
    envAll (ds ++ ds') = Env.mergeInTurn (envAll ds) (envAll ds') := by
  rw [envAll_eq_mapM, envAll_eq_mapM, envAll_eq_mapM, mapM_append_mergeAll]

theorem map_qualify_append (n : ModuleName) (ds ds' : List Declaration) :
    (envAll (ds ++ ds')).map (Env.qualify n) =
      Env.mergeInTurn ((envAll ds).map (Env.qualify n)) ((envAll ds').map (Env.qualify n)) := by
  rw [envAll_append]
  cases hds : envAll ds with
  | error cause => rfl
  | ok a =>
    cases hds' : envAll ds' with
    | error cause => rfl
    | ok b =>
      have hqualify : (a.merge b).qualify n = (a.qualify n).merge (b.qualify n) :=
        (holds_of_envAll hds).qualify_merge (holds_of_envAll hds') n
      exact congrArg Except.ok hqualify

end Declaration

namespace Module

theorem env_append (m : Module) (ts ts' : List TopLevel) :
    env { m with declarations := ts ++ ts' } =
      Env.mergeInTurn (env { m with declarations := ts }) (env { m with declarations := ts' }) := by
  rw [env, allDeclarations, List.map_append]
  exact Declaration.map_qualify_append m.name.value _ _

theorem exportedEnv_append (m : Module) (ts ts' : List TopLevel) :
    exportedEnv { m with declarations := ts ++ ts' } =
      Env.mergeInTurn (exportedEnv { m with declarations := ts })
        (exportedEnv { m with declarations := ts' }) := by
  rw [exportedEnv, exportedDeclarations, List.filter_append, List.map_append]
  exact Declaration.map_qualify_append m.name.value _ _

end Module

/-! ### All scopes in pieces -/

/-- **Scopes can be made in pieces.** Wherever a list of constructs is cut in two, its environment
is that of the first piece beside that of the second, or the failure of the first piece that fails.
So it is for the declarations of a module, for those of them that are exported, for its imports, and
for each kind of construct of which there are several in a scope. -/
theorem scopes_in_pieces :
    (∀ (m : Module) (ts ts' : List TopLevel),
      Module.env { m with declarations := ts ++ ts' } =
        Env.mergeInTurn (Module.env { m with declarations := ts })
          (Module.env { m with declarations := ts' }) ∧
      Module.exportedEnv { m with declarations := ts ++ ts' } =
        Env.mergeInTurn (Module.exportedEnv { m with declarations := ts })
          (Module.exportedEnv { m with declarations := ts' })) ∧
    (∀ (l : Library) (m : Module) (is is' : List (Located Import)),
      l.importsEnv { m with imports := is ++ is' } =
        Env.mergeInTurn (l.importsEnv { m with imports := is })
          (l.importsEnv { m with imports := is' })) ∧
    (∀ ds ds' : List Declaration, Declaration.envAll (ds ++ ds') =
      Env.mergeInTurn (Declaration.envAll ds) (Declaration.envAll ds')) ∧
    (∀ ms ms' : List Module, Module.envAll (ms ++ ms') =
      Env.mergeInTurn (Module.envAll ms) (Module.envAll ms')) ∧
    (∀ ps ps' : List Pattern, Env.ofEntries ((ps ++ ps').flatMap Pattern.entries) =
      (Env.ofEntries (ps.flatMap Pattern.entries)).merge
        (Env.ofEntries (ps'.flatMap Pattern.entries))) ∧
    (∀ cs cs' : List Clause, Env.ofEntries ((cs ++ cs').flatMap Clause.entries) =
      (Env.ofEntries (cs.flatMap Clause.entries)).merge
        (Env.ofEntries (cs'.flatMap Clause.entries))) ∧
    ∀ ps ps' : List TypeParam, Env.ofEntries ((ps ++ ps').map TypeParam.entry) =
      (Env.ofEntries (ps.map TypeParam.entry)).merge (Env.ofEntries (ps'.map TypeParam.entry)) := by
  refine ⟨fun m ts ts' => ⟨m.env_append ts ts', m.exportedEnv_append ts ts'⟩,
    fun l m is is' => mapM_append_mergeAll (l.importEnv m.name.value) is is',
    Declaration.envAll_append, mapM_append_mergeAll Module.env,
    Env.ofEntries_flatMap_append Pattern.entries, Env.ofEntries_flatMap_append Clause.entries,
    fun ps ps' => ?_⟩
  rw [List.map_append, Env.ofEntries_append]

end Scoping
