import Mathlib.Data.List.Dedup
import Mathlib.Data.List.Permutation
import Scoping.Library
import Scoping.Proofs.Contents

/-!
# What a module sees of its imports

The imports of a module are put side by side. On the way from the tables of an interface to the
scope of the importer, exports are listed kind by kind, filtered by their base, moved to new keys,
where exports of several owners may meet, and merged import by import. What comes out can be said
without following that way: under a name one finds the exports that the imports with the right
qualifier admit for its base, in the order of imports, of keys and of kinds.

Two rules decide on fixities. Exports filed under one key have a fixity only if they agree on it;
among keys and among imports the first that has one decides.

## Main definitions

* `Exports.keys`, `Exports.contents` — what exports say of each name, before they are imported
* `agreedFixity` — the fixity that several exports have in common
* `Import.keysFor`, `Library.exportsOf`, `Module.importsUnder` — which exports a name may come from
* `Library.imported` — what all imports of a module say

## Main results

* `Exports.holds_env`, `Import.holds_env`, `Library.holds_importsEnv` — environments have these
  contents
* `Library.importsEnv_tables` — the three tables of a module's imports, key by key
-/

namespace Scoping

/-! ### Exports under one key -/

/-- The fixity that every one of some exports records. There is none if there are no exports. -/
def agreedFixity (vs : List ValueExport) : Option Fixity :=
  (vs.head?.bind ValueExport.fixity).filter fun f => vs.all fun v => v.fixity = some f

theorem agreedFixity_eq_some_iff {vs : List ValueExport} {f : Fixity} :
    agreedFixity vs = some f ↔ vs ≠ [] ∧ ∀ v ∈ vs, v.fixity = some f := by
  cases vs with
  | nil => simp [agreedFixity]
  | cons v vs =>
    rw [agreedFixity, List.head?_cons, Option.bind_some, Option.filter_eq_some_iff]
    simp only [List.all_eq_true, decide_eq_true_eq, ne_eq, reduceCtorEq, not_false_eq_true,
      true_and]
    exact ⟨And.right, fun h => ⟨h v (List.mem_cons_self ..), h⟩⟩

theorem unanimousFixity_eq_some_iff {vs : List ValueExport} {f : Fixity} :
    unanimousFixity vs = some f ↔ vs ≠ [] ∧ ∀ v ∈ vs, v.fixity = some f := by
  cases vs with
  | nil => simp [unanimousFixity]
  | cons v vs =>
    rw [unanimousFixity]
    simp only [List.all_eq_true, decide_eq_true_eq, ne_eq, reduceCtorEq, not_false_eq_true,
      true_and, List.forall_mem_cons]
    constructor
    · intro h
      split at h
      · next hall => exact ⟨h, fun w hw => (hall w hw).trans h⟩
      · contradiction
    · rintro ⟨hv, hvs⟩
      rw [if_pos fun w hw => (hvs w hw).trans hv.symm, hv]

theorem unanimousFixity_eq_agreedFixity (vs : List ValueExport) :
    unanimousFixity vs = agreedFixity vs := by
  ext f
  rw [unanimousFixity_eq_some_iff, agreedFixity_eq_some_iff]

theorem gather_valueEntries (key : Name) (vs : List ValueExport) :
    Contents.gather (valueEntries key vs) Entry.contents =
      .only key (vs.map fun v => ⟨.imported, v.name⟩) [] (agreedFixity vs) := by
  rw [valueEntries, Contents.gather_append, Contents.gather_map, Contents.gather_map,
    unanimousFixity_eq_agreedFixity]
  have hnone : vs.findSome? (fun _ => (none : Option Fixity)) = none := by simp
  simp only [Entry.contents, Contents.gather_only, Contents.merge_only, hnone]
  congr 1
  · simp [List.map_eq_flatMap]
  · simp
  · cases agreedFixity vs <;> rfl

theorem gather_synonymEntries (key : Name) (ns : List Name) :
    Contents.gather (synonymEntries key ns) Entry.contents =
      .only key [] (ns.map fun n => ⟨.imported, n⟩) none := by
  rw [synonymEntries, Contents.gather_map]
  simp only [Entry.contents, Contents.gather_only]
  congr 1 <;> simp [List.map_eq_flatMap]

theorem gather_newtypeEntries (key : Name) (ns : List Name) :
    Contents.gather (newtypeEntries key ns) Entry.contents =
      .only key (ns.map fun n => ⟨.imported, n⟩) (ns.map fun n => ⟨.imported, n⟩) none := by
  rw [newtypeEntries, Contents.gather_flatMap]
  simp only [Contents.gather_cons, Contents.gather_nil, Contents.merge_empty, Entry.contents,
    Contents.merge_only, Contents.gather_only]
  congr 1 <;> simp [List.map_eq_flatMap]

/-! ### All exports of a module -/

namespace Exports

/-- The values filed under `q`. -/
def valuesAt (e : Exports) (q : Name) : List ValueExport := (e.values.get? q).getD []

/-- The synonyms filed under `q`. -/
def synonymsAt (e : Exports) (q : Name) : List Name := (e.synonyms.get? q).getD []

/-- The newtypes filed under `q`. -/
def newtypesAt (e : Exports) (q : Name) : List Name := (e.newtypes.get? q).getD []

/-- What the exports say of each name: values before newtypes, synonyms before newtypes. -/
def contents (e : Exports) : Contents where
  terms q := (e.valuesAt q).map (fun v => ⟨.imported, v.name⟩) ++
    (e.newtypesAt q).map fun n => ⟨.imported, n⟩
  types q := (e.synonymsAt q).map (fun n => ⟨.imported, n⟩) ++
    (e.newtypesAt q).map fun n => ⟨.imported, n⟩
  fixity q := agreedFixity (e.valuesAt q)

/-- Whatever is exported is imported. -/
theorem source_of_mem_contents {e : Exports} {s : Referent} {q : Name} {r : Record s.Source}
    (hr : r ∈ e.contents.records s q) : r.source = s.imported := by
  have hsource : ∀ {α β : Type} {as : List α} {bs : List β} {f : α → Name} {g : β → Name},
      r ∈ as.map (fun a => ⟨s.imported, f a⟩) ++ bs.map (fun b => ⟨s.imported, g b⟩) →
      r.source = s.imported := by
    intro α β as bs f g hmem
    rcases List.mem_append.mp hmem with hmem | hmem
    · obtain ⟨a, -, rfl⟩ := List.mem_map.mp hmem
      rfl
    · obtain ⟨b, -, rfl⟩ := List.mem_map.mp hmem
      rfl
  cases s with
  | term => exact hsource hr
  | type => exact hsource hr

theorem gather_entries (e : Exports) : Contents.gather e.entries Entry.contents = e.contents := by
  rw [entries, Contents.gather_append, Contents.gather_append, Contents.gather_flatMap,
    Contents.gather_flatMap, Contents.gather_flatMap]
  simp only [gather_valueEntries, gather_synonymEntries, gather_newtypeEntries]
  rw [Contents.gather_table e.values (fun vs => vs.map fun v => ⟨.imported, v.name⟩) (fun _ => [])
      agreedFixity,
    Contents.gather_table e.synonyms (fun _ => []) (fun ns => ns.map fun n => ⟨.imported, n⟩)
      fun _ => none,
    Contents.gather_table e.newtypes (fun ns => ns.map fun n => ⟨.imported, n⟩)
      (fun ns => ns.map fun n => ⟨.imported, n⟩) fun _ => none]
  ext1 <;> funext k
  · simp only [Contents.merge, contents, valuesAt, newtypesAt, elim_nil_map, elim_nil_nil,
      List.append_nil]
  · simp only [Contents.merge, contents, synonymsAt, newtypesAt, elim_nil_map, elim_nil_nil,
      List.nil_append]
  · simp only [Contents.merge, contents, valuesAt, Option.bind_fun_none, Option.or_none]
    cases e.values.get? k <;> rfl

theorem holds_env (e : Exports) : e.env.Holds e.contents := by
  rw [← e.gather_entries]
  exact Env.holds_ofEntries e.entries

/-- Every key under which something is filed, in ascending order. -/
def keys (e : Exports) : List Name :=
  Name.sort (e.values.keys ++ e.synonyms.keys ++ e.newtypes.keys).dedup

theorem mem_keys_iff {e : Exports} {q : Name} :
    q ∈ e.keys ↔ q ∈ e.values.keys ∨ q ∈ e.synonyms.keys ∨ q ∈ e.newtypes.keys := by
  rw [keys, (Name.sort_perm _).mem_iff, List.mem_dedup, List.mem_append, List.mem_append, or_assoc]

theorem pairwise_keys (e : Exports) : e.keys.Pairwise fun q q' => compare q q' = .lt := by
  have hnodup : e.keys.Nodup := (Name.sort_perm _).nodup_iff.mpr (List.nodup_dedup _)
  refine ((Name.pairwise_sort _).and hnodup).imp fun {q q'} h => ?_
  obtain ⟨hle, hne⟩ := h
  rw [Ordering.isLE_iff_eq_lt_or_eq_eq, Std.LawfulEqOrd.compare_eq_iff_eq] at hle
  exact hle.resolve_right hne

/-- Nothing is said of a name under which nothing is filed. -/
theorem contents_of_notMem_keys {e : Exports} {q : Name} (h : q ∉ e.keys) :
    e.contents.terms q = [] ∧ e.contents.types q = [] ∧ e.contents.fixity q = none := by
  rw [mem_keys_iff, Table.mem_keys_iff, Table.mem_keys_iff, Table.mem_keys_iff, not_or, not_or] at h
  simp only [Bool.not_eq_true, Option.isSome_eq_false_iff, Option.isNone_iff_eq_none] at h
  obtain ⟨hvalues, hsynonyms, hnewtypes⟩ := h
  simp [contents, valuesAt, synonymsAt, newtypesAt, agreedFixity, hvalues, hsynonyms, hnewtypes]

end Exports

/-! ### One import -/

namespace Import

/-- The keys of the exports that the import admits for the base `base`, in ascending order. -/
def keysFor (i : Import) (e : Exports) (base : Identifier) : List Name :=
  e.keys.filter fun q => q.base = base && i.selection.admits q.base

/-- What the import says of each name. Names with another owner than its qualifier it leaves
alone. -/
def contents (i : Import) (e : Exports) : Contents where
  terms k := if i.qualifier = k.owner then (i.keysFor e k.base).flatMap e.contents.terms else []
  types k := if i.qualifier = k.owner then (i.keysFor e k.base).flatMap e.contents.types else []
  fixity k :=
    if i.qualifier = k.owner then (i.keysFor e k.base).findSome? e.contents.fixity else none

theorem records_contents (i : Import) (e : Exports) (s : Referent) (k : Name) :
    (i.contents e).records s k =
      if i.qualifier = k.owner then (i.keysFor e k.base).flatMap (e.contents.records s)
      else [] := by
  cases s <;> rfl

theorem key_eq_iff {i : Import} {q k : Name} :
    i.key q = k ↔ i.qualifier = k.owner ∧ q.base = k.base := by
  obtain ⟨owner, base⟩ := k
  rw [key]
  cases i.qualifier <;> simp [Name.unqualified, Name.inModule, Name.bare, Name.qualified]

/-- An import does not look at owners, so dropping the exports that are not admitted and moving the
others leaves, under `k`, what is admitted for the base of `k`. -/
theorem filter_key (i : Import) (e : Exports) (k : Name) :
    (e.keys.filter fun q => i.key q = k).filter i.admits =
      if i.qualifier = k.owner then i.keysFor e k.base else [] := by
  rw [List.filter_filter]
  split
  · next h =>
    refine List.filter_congr fun q _ => ?_
    by_cases hbase : q.base = k.base <;> simp [key_eq_iff, h, hbase, admits]
  · next h => simp [key_eq_iff, h]

theorem holds_env (i : Import) (e : Exports) : (i.env e).Holds (i.contents e) := by
  have hmoved := (e.holds_env.filterKeys i.admits).mapKeys e.pairwise_keys
    (fun q hq => by_contra fun h => hq (by simp [(Exports.contents_of_notMem_keys h).1]))
    (fun q hq => by_contra fun h => hq (by simp [(Exports.contents_of_notMem_keys h).2.1]))
    (fun q hq => by_contra fun h => hq (by simp [(Exports.contents_of_notMem_keys h).2.2])) i.key
  simp only [flatMap_ite_nil, findSome?_ite_none, Bool.decide_eq_true, filter_key] at hmoved
  have hcontents : i.contents e =
      { terms := fun k =>
          (if i.qualifier = k.owner then i.keysFor e k.base else []).flatMap e.contents.terms
        types := fun k =>
          (if i.qualifier = k.owner then i.keysFor e k.base else []).flatMap e.contents.types
        fixity := fun k =>
          (if i.qualifier = k.owner then i.keysFor e k.base else []).findSome?
            e.contents.fixity } := by
    ext1 <;> funext k <;> simp only [contents] <;> split <;> rfl
  rw [hcontents]
  exact hmoved

end Import

/-! ### All imports of a module -/

/-- The imports of the module whose names are owned by `owner` in scope, or bare if there is no
owner. -/
def Module.importsUnder (m : Module) (owner : Option ModuleName) : List (Located Import) :=
  m.imports.filter fun i => i.value.qualifier = owner

namespace Library

/-- The exports of the module that is imported; none if its interface is not there. -/
def exportsOf (l : Library) (i : Import) : Exports :=
  ((l.find? i.source).map Interface.exports).getD ∅

/-- What the imports of a module say of each name. -/
def imported (l : Library) (m : Module) : Contents where
  terms k := (m.importsUnder k.owner).flatMap fun i =>
    (i.value.keysFor (l.exportsOf i.value) k.base).flatMap (l.exportsOf i.value).contents.terms
  types k := (m.importsUnder k.owner).flatMap fun i =>
    (i.value.keysFor (l.exportsOf i.value) k.base).flatMap (l.exportsOf i.value).contents.types
  fixity k := (m.importsUnder k.owner).findSome? fun i =>
    (i.value.keysFor (l.exportsOf i.value) k.base).findSome? (l.exportsOf i.value).contents.fixity

theorem records_imported (l : Library) (m : Module) (s : Referent) (k : Name) :
    (l.imported m).records s k = (m.importsUnder k.owner).flatMap fun i =>
      (i.value.keysFor (l.exportsOf i.value) k.base).flatMap
        ((l.exportsOf i.value).contents.records s) := by
  cases s <;> rfl

theorem gather_contents (l : Library) (m : Module) :
    Contents.gather m.imports (fun i => i.value.contents (l.exportsOf i.value)) = l.imported m := by
  ext1 <;> funext k
  · exact flatMap_ite_nil (fun i : Located Import => i.value.qualifier = k.owner) _ m.imports
  · exact flatMap_ite_nil (fun i : Located Import => i.value.qualifier = k.owner) _ m.imports
  · exact findSome?_ite_none (fun i : Located Import => i.value.qualifier = k.owner) _ m.imports

/-- An import succeeds exactly when there is an interface for it. -/
theorem importEnv_eq_ok {l : Library} {importer : ModuleName} {i : Located Import}
    (h : (l.find? i.value.source).isSome) :
    l.importEnv importer i = .ok (i.value.env (l.exportsOf i.value)) := by
  obtain ⟨interface, hi⟩ := Option.isSome_iff_exists.mp h
  simp [importEnv, exportsOf, hi]

theorem exists_of_importEnv {l : Library} {importer : ModuleName} {i : Located Import} {e : Env}
    (h : l.importEnv importer i = .ok e) :
    ∃ interface, l.find? i.value.source = some interface ∧ e = i.value.env interface.exports := by
  rw [importEnv] at h
  split at h
  · next interface hfind => exact ⟨interface, hfind, (Except.ok.inj h).symm⟩
  · contradiction

theorem holds_importsEnv {l : Library} {m : Module}
    (h : ∀ i ∈ m.imports, (l.find? i.value.source).isSome) :
    ∃ env, l.importsEnv m = .ok env ∧ env.Holds (l.imported m) := by
  refine ⟨Env.mergeAll (m.imports.map fun i => i.value.env (l.exportsOf i.value)), ?_, ?_⟩
  · rw [importsEnv, mapM_eq_ok fun i hi => importEnv_eq_ok (h i hi)]
    rfl
  · rw [← gather_contents]
    exact Env.holds_mergeAll fun i _ => i.value.holds_env _

/-- There is no way for imports to be resolved without all interfaces. -/
theorem isSome_find?_of_importsEnv {l : Library} {m : Module} {env : Env}
    (h : l.importsEnv m = .ok env) : ∀ i ∈ m.imports, (l.find? i.value.source).isSome := by
  intro i hi
  obtain ⟨envs, henvs, -⟩ := exists_of_map_eq_ok h
  obtain ⟨env', henv'⟩ := exists_ok_of_mapM henvs i hi
  rw [importEnv] at henv'
  cases hfind : l.find? i.value.source with
  | none => simp [hfind] at henv'
  | some interface => rfl

theorem holds_of_importsEnv {l : Library} {m : Module} {env : Env}
    (h : l.importsEnv m = .ok env) : env.Holds (l.imported m) := by
  obtain ⟨env', henv', hcontents⟩ := holds_importsEnv (isSome_find?_of_importsEnv h)
  rw [h, Except.ok.injEq] at henv'
  exact henv' ▸ hcontents

/-- **What a module sees of its imports**, key by key. If every imported module has an interface,
then the imports are resolved, and under `k` are the exports that the imports with the owner of `k`
as their qualifier admit for the base of `k`: import by import, key by key, values before newtypes
and synonyms before newtypes. The fixity is the first on which all values under one key agree.
Nothing is assumed of the interfaces; what is filed under a key may have any name. -/
theorem importsEnv_tables (l : Library) (m : Module)
    (h : ∀ i ∈ m.imports, (l.find? i.value.source).isSome) :
    ∃ env, l.importsEnv m = .ok env ∧ ∀ k : Name,
      env.terms.get? k =
        stored ((m.importsUnder k.owner).flatMap fun i =>
          (i.value.keysFor (l.exportsOf i.value) k.base).flatMap fun q =>
            ((l.exportsOf i.value).valuesAt q).map (fun v => ⟨.imported, v.name⟩) ++
              ((l.exportsOf i.value).newtypesAt q).map fun n => ⟨.imported, n⟩) ∧
      env.types.get? k =
        stored ((m.importsUnder k.owner).flatMap fun i =>
          (i.value.keysFor (l.exportsOf i.value) k.base).flatMap fun q =>
            ((l.exportsOf i.value).synonymsAt q).map (fun n => ⟨.imported, n⟩) ++
              ((l.exportsOf i.value).newtypesAt q).map fun n => ⟨.imported, n⟩) ∧
      env.fixities.get? k =
        stored ((m.importsUnder k.owner).findSome? fun i =>
          (i.value.keysFor (l.exportsOf i.value) k.base).findSome? fun q =>
            agreedFixity ((l.exportsOf i.value).valuesAt q)).toList := by
  obtain ⟨env, henv, hcontents⟩ := holds_importsEnv h
  exact ⟨env, henv, fun k => ⟨hcontents.terms k, hcontents.types k, hcontents.fixities k⟩⟩

/-- Exports of `+` filed under two owners, of which only the first agrees on a fixity, and a key
with nothing filed under it. -/
def plusExports : Exports where
  values := Table.empty.insertAll (· ++ ·)
    [(.qualified ⟨"Lib", []⟩ ⟨"+"⟩, [⟨.qualified ⟨"Core", []⟩ ⟨"+"⟩, some ⟨.left, 6⟩⟩]),
      (.qualified ⟨"Old", []⟩ ⟨"+"⟩,
        [⟨.qualified ⟨"Old", []⟩ ⟨"+"⟩, some ⟨.right, 5⟩⟩, ⟨.bare ⟨"+"⟩, none⟩])]
  synonyms := ∅
  newtypes := Table.empty.insertAll (· ++ ·)
    [(.qualified ⟨"Lib", []⟩ ⟨"+"⟩, [.qualified ⟨"Lib", []⟩ ⟨"+"⟩]), (.bare ⟨"+"⟩, [])]

/-- A module that imports `+` bare, and everything but `+` under the qualifier `L`. -/
def plusImporter : Module where
  name := ⟨.onRow 1 1 2, ⟨"M", []⟩⟩
  imports :=
    [⟨.onRow 2 1 9, ⟨⟨"Lib", []⟩, none, .only [⟨"+"⟩]⟩⟩,
      ⟨.onRow 3 1 9, ⟨⟨"Lib", []⟩, some ⟨"L", []⟩, .allExcept [⟨"+"⟩]⟩⟩]
  declarations := []

theorem importsEnv_tables_plus :
    let l := Library.empty.load ⟨⟨"Lib", []⟩, plusExports⟩
    (∀ i ∈ plusImporter.imports, (l.find? i.value.source).isSome) ∧
      ∃ env, l.importsEnv plusImporter = .ok env ∧
        env.terms.get? (.bare ⟨"+"⟩) =
          some [⟨.imported, .qualified ⟨"Core", []⟩ ⟨"+"⟩⟩,
            ⟨.imported, .qualified ⟨"Lib", []⟩ ⟨"+"⟩⟩, ⟨.imported, .qualified ⟨"Old", []⟩ ⟨"+"⟩⟩,
            ⟨.imported, .bare ⟨"+"⟩⟩] ∧
        env.fixities.get? (.bare ⟨"+"⟩) = some [⟨.left, 6⟩] ∧
        env.terms.get? (.qualified ⟨"L", []⟩ ⟨"+"⟩) = none := by
  intro l
  have hfound : ∀ i ∈ plusImporter.imports, (l.find? i.value.source).isSome := by decide
  obtain ⟨env, henv, htables⟩ := importsEnv_tables l plusImporter hfound
  refine ⟨hfound, env, henv, ?_, ?_, ?_⟩
  · rw [(htables _).1]
    cbv
  · rw [(htables _).2.2]
    cbv
  · rw [(htables _).1]
    cbv

end Library

end Scoping
