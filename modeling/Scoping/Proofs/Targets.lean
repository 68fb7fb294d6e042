import Scoping.Except
import Scoping.Proofs.Aspects

/-!
# Targets that are renamed

The names that records refer to can be renamed by a function that fails for some of them. Each
record is then looked at once, terms before types, and the first failure is the failure of the
whole. If there is none, the environment is the same but for the names: keys and fixities, how many
records there are and in which order, and the source of each record with its range.

So all that the function is asked for is in one list, `Env.targets`, and renaming the targets of an
environment fails as going through this list does. Nothing else that is done to environments looks
at targets, and it makes no difference whether they are renamed before or after.

## Main definitions

* `Table.candidates`, `Env.targets` — what records refer to, in the order in which it is looked at
* `Aspect.rename` — what renaming targets does to a list under a name

## Main results

* `Env.targets_of_tryMapTargets` — renaming an environment is going through its targets
* `Env.tryMapTargets_eq_ok`, `Env.tryMapTargets_eq_error_iff` — success and failure
* `Env.mapTargets_merge`, `Env.mapTargets_mapKeys` and their companions — renaming before or after
* `Env.renamed_record_by_record` — environments whose targets are renamed
-/

namespace Scoping

open Std (TransOrd LawfulEqOrd)

variable {κ α ε σ : Type}

/-! ### The targets of an environment -/

/-- All candidates in a table, key by key. -/
def Table.candidates [Ord κ] (t : Table κ (List α)) : List α := t.entries.flatMap Prod.snd

/-- What the records of an environment refer to, one name for each record: terms before types, the
keys of each table in ascending order, and the records under a key as they are listed there. -/
def Env.targets (e : Env) : List Name :=
  e.terms.candidates.map Record.target ++ e.types.candidates.map Record.target

theorem Table.candidates_map {β : Type} [Ord κ] (f : α → β) (t : Table κ (List α)) :
    (t.map (List.map f)).candidates = t.candidates.map f := by
  rw [candidates, candidates, map, List.flatMap_map, List.map_flatMap]

theorem Env.targets_mapTargets (f : Name → Name) (e : Env) :
    (e.mapTargets f).targets = e.targets.map f := by
  simp only [targets, mapTargets, Table.candidates_map, List.map_append, List.map_map]
  rfl

/-! ### Success and failure

Renaming goes through nested lists: the entries of a table and the records under a key. From the
inside outwards, each of these is going through the targets that it contains. -/

theorem mapM_tryMapTarget (f : Name → Except ε Name) (rs : List (Record σ)) :
    (rs.mapM (Record.tryMapTarget f)).map (List.map Record.target) =
      (rs.map Record.target).mapM f := by
  induction rs with
  | nil => rfl
  | cons r rs ih =>
    rw [List.map_cons, List.mapM_cons, List.mapM_cons, ← ih, Record.tryMapTarget]
    cases f r.target <;> cases rs.mapM (Record.tryMapTarget f) <;> rfl

theorem tryMapValues_tryMapTarget (f : Name → Except ε Name) (l : List (κ × List (Record σ))) :
    (Table.tryMapValues (List.mapM (Record.tryMapTarget f)) l).map
        (fun l' => (l'.flatMap Prod.snd).map Record.target) =
      ((l.flatMap Prod.snd).map Record.target).mapM f := by
  induction l with
  | nil => rfl
  | cons e l ih =>
    rw [List.flatMap_cons, List.map_append, List.mapM_append, ← ih, ← mapM_tryMapTarget,
      Table.tryMapValues]
    cases e.2.mapM (Record.tryMapTarget f) <;>
      cases Table.tryMapValues (List.mapM (Record.tryMapTarget f)) l <;>
        simp [Except.map, bind, Except.bind, pure, Except.pure]

theorem tryMap_tryMapTarget [Ord κ] (f : Name → Except ε Name) (t : Table κ (List (Record σ))) :
    (t.tryMap (List.mapM (Record.tryMapTarget f))).map
        (fun t' => t'.candidates.map Record.target) =
      (t.candidates.map Record.target).mapM f := by
  have hentries := tryMapValues_tryMapTarget f t.entries
  rw [← Table.map_entries_tryMap] at hentries
  rw [Table.candidates, ← hentries]
  cases t.tryMap (List.mapM (Record.tryMapTarget f)) <;> rfl

theorem Table.tryMap_tryMapTarget_eq_ok [Ord κ] {f : Name → Except ε Name} {g : Name → Name}
    {t : Table κ (List (Record σ))}
    (h : ∀ n ∈ t.candidates.map Record.target, f n = .ok (g n)) :
    t.tryMap (List.mapM (Record.tryMapTarget f)) =
      .ok (t.map (List.map (Record.mapTarget g))) := by
  refine tryMap_eq_ok fun x hx => mapM_eq_ok fun r hr => ?_
  have hmem : r ∈ t.candidates := List.mem_flatMap.mpr ⟨x, hx, hr⟩
  rw [Record.tryMapTarget, h r.target (List.mem_map_of_mem hmem)]
  rfl

namespace Env

variable {f f' : Name → Except ε Name} {g : Name → Name} {e : Env} {err : ε}

/-- **Renaming an environment is going through its targets.** -/
theorem targets_of_tryMapTargets (f : Name → Except ε Name) (e : Env) :
    (e.tryMapTargets f).map targets = e.targets.mapM f := by
  rw [targets, List.mapM_append, ← tryMap_tryMapTarget, ← tryMap_tryMapTarget, tryMapTargets]
  cases e.terms.tryMap (List.mapM (Record.tryMapTarget f)) <;>
    cases e.types.tryMap (List.mapM (Record.tryMapTarget f)) <;> rfl

/-- It fails with the first failure, and what comes after it is not looked at. -/
theorem tryMapTargets_eq_error_iff : e.tryMapTargets f = .error err ↔
    ∃ before n after, e.targets = before ++ n :: after ∧ (∀ n' ∈ before, ∃ m, f n' = .ok m) ∧
      f n = .error err := by
  rw [← map_eq_error_iff (f := targets), targets_of_tryMapTargets, mapM_eq_error_iff]

/-- Where there is no failure each target is replaced by its image and nothing else is changed. -/
theorem tryMapTargets_eq_ok (h : ∀ n ∈ e.targets, f n = .ok (g n)) :
    e.tryMapTargets f = .ok (e.mapTargets g) := by
  rw [targets, List.forall_mem_append] at h
  rw [tryMapTargets, Table.tryMap_tryMapTarget_eq_ok h.1, Table.tryMap_tryMapTarget_eq_ok h.2]
  rfl

theorem exists_images {l : List Name} (h : ∀ n ∈ l, ∃ n', f n = .ok n') :
    ∃ g : Name → Name, ∀ n ∈ l, f n = .ok (g n) := by
  -- Outside the list any name will do.
  refine ⟨fun n => (f n).toOption.getD n, fun n hn => ?_⟩
  obtain ⟨n', hn'⟩ := h n hn
  show f n = .ok ((f n).toOption.getD n)
  rw [hn']
  rfl

theorem exists_tryMapTargets_iff :
    (∃ e', e.tryMapTargets f = .ok e') ↔ ∀ n ∈ e.targets, ∃ n', f n = .ok n' := by
  constructor
  · rintro ⟨e', he'⟩
    have hmapM : e.targets.mapM f = .ok e'.targets := by
      rw [← targets_of_tryMapTargets, he']
      rfl
    exact exists_ok_of_mapM hmapM
  · intro h
    obtain ⟨g, hg⟩ := exists_images h
    exact ⟨e.mapTargets g, tryMapTargets_eq_ok hg⟩

/-- Nothing but the targets is asked for. -/
theorem tryMapTargets_congr (h : ∀ n ∈ e.targets, f n = f' n) :
    e.tryMapTargets f = e.tryMapTargets f' := by
  -- A failure is a failure of going through the targets. A success has nothing to do with `f` any
  -- more, once there is a function that has the images of all targets.
  cases hf : e.tryMapTargets f with
  | error err =>
    have hmapM : (e.tryMapTargets f').map targets = .error err := by
      rw [targets_of_tryMapTargets, ← mapM_congr h, ← targets_of_tryMapTargets, hf]
      rfl
    exact (map_eq_error_iff.mp hmapM).symm
  | ok e' =>
    obtain ⟨g, hg⟩ := exists_images (exists_tryMapTargets_iff.mp ⟨e', hf⟩)
    have hg' : ∀ n ∈ e.targets, f' n = .ok (g n) := fun n hn => (h n hn).symm.trans (hg n hn)
    rw [← hf, tryMapTargets_eq_ok hg, tryMapTargets_eq_ok hg']

end Env

/-! ### Renaming before or after -/

namespace Aspect

/-- What renaming targets does to a list under a name. A fixity refers to no name. -/
def rename (f : Name → Name) : (s : Aspect) → List s.Value → List s.Value
  | .term => List.map (Record.mapTarget f)
  | .type => List.map (Record.mapTarget f)
  | .fixity => id

theorem rename_id (s : Aspect) : s.rename id = id := by
  cases s with
  | term => exact List.map_id_fun
  | type => exact List.map_id_fun
  | fixity => rfl

theorem rename_comp (s : Aspect) (f g : Name → Name) :
    s.rename g ∘ s.rename f = s.rename (g ∘ f) := by
  cases s with
  | term => exact List.map_comp_map _ _
  | type => exact List.map_comp_map _ _
  | fixity => rfl

/-- Lists can be renamed before or after they meet. -/
theorem rename_combine (s : Aspect) (f : Name → Name) (l m : List s.Value) :
    s.rename f (s.combine l m) = s.combine (s.rename f l) (s.rename f m) := by
  cases s with
  | term => exact List.map_append
  | type => exact List.map_append
  | fixity => rfl

end Aspect

namespace Env

variable {f g : Name → Name}

theorem table_mapTargets (s : Aspect) (f : Name → Name) (e : Env) :
    (e.mapTargets f).table s = (e.table s).map (s.rename f) := by
  cases s with
  | term => rfl
  | type => rfl
  | fixity => exact (Table.map_id e.fixities).symm

theorem mapTargets_id (e : Env) : e.mapTargets id = e :=
  ext_table fun s => by rw [table_mapTargets, s.rename_id, Table.map_id]

theorem mapTargets_mapTargets (f g : Name → Name) (e : Env) :
    (e.mapTargets f).mapTargets g = e.mapTargets (g ∘ f) :=
  ext_table fun s => by
    rw [table_mapTargets, table_mapTargets, table_mapTargets, Table.map_map, s.rename_comp]

theorem mapTargets_merge (f : Name → Name) (a b : Env) :
    (a.merge b).mapTargets f = (a.mapTargets f).merge (b.mapTargets f) :=
  ext_table fun s => by
    rw [table_mapTargets, table_merge, table_merge, table_mapTargets, table_mapTargets,
      Table.map_mergeWith (s.rename_combine f)]

theorem mapTargets_shadow (f : Name → Name) (outer inner : Env) :
    (outer.shadow inner).mapTargets f = (outer.mapTargets f).shadow (inner.mapTargets f) :=
  ext_table fun s => by
    rw [table_mapTargets, table_shadow, table_shadow, table_mapTargets, table_mapTargets,
      Table.map_mergeWith (d := fun _ last => last) fun _ _ => rfl]

theorem mapTargets_mergeAll (f : Name → Name) (l : List Env) :
    (mergeAll l).mapTargets f = mergeAll (l.map (mapTargets f)) := by
  induction l with
  | nil => rfl
  | cons e l ih => rw [List.map_cons, mergeAll_cons, mergeAll_cons, mapTargets_merge, ih]

theorem mapTargets_mapKeys (f g : Name → Name) (e : Env) :
    (e.mapKeys g).mapTargets f = (e.mapTargets f).mapKeys g :=
  ext_table fun s => by
    rw [table_mapTargets, table_mapKeys, table_mapKeys, table_mapTargets,
      Table.map_mapKeys (s.rename_combine f)]

theorem mapTargets_filterKeys (f : Name → Name) (p : Name → Bool) (e : Env) :
    (e.filterKeys p).mapTargets f = (e.mapTargets f).filterKeys p :=
  ext_table fun s => by
    rw [table_mapTargets, table_filterKeys, table_filterKeys, table_mapTargets,
      Table.map_filterKeys]

/-- **Targets that are renamed.** Renaming targets by a function that may fail succeeds if it does
not fail for the target of any record. Then the keys, the sources and the number and the order of
the records stay as they are, just like the fixities, and each target is replaced by its image.
Otherwise the failure is that of the first target for which there is one, in the order of
`Env.targets`. Nothing is asked for but these targets, so functions that agree on them do the same.

A function that never fails can be applied before or after anything else that is done to
environments, and two of them one after the other are one. -/
theorem renamed_record_by_record :
    (∀ {ε : Type} (f : Name → Except ε Name) (e : Env),
      ((∃ e', e.tryMapTargets f = .ok e') ↔ ∀ n ∈ e.targets, ∃ n', f n = .ok n') ∧
      (∀ g, (∀ n ∈ e.targets, f n = .ok (g n)) → e.tryMapTargets f = .ok (e.mapTargets g)) ∧
      (∀ err, e.tryMapTargets f = .error err ↔
        ∃ before n after, e.targets = before ++ n :: after ∧
          (∀ n' ∈ before, ∃ m, f n' = .ok m) ∧ f n = .error err) ∧
      ∀ f', (∀ n ∈ e.targets, f n = f' n) → e.tryMapTargets f = e.tryMapTargets f') ∧
    (∀ (g : Name → Name) (e : Env),
      (e.mapTargets g).terms.entries =
        e.terms.entries.map (fun x => (x.1, x.2.map fun r => ⟨r.source, g r.target⟩)) ∧
      (e.mapTargets g).types.entries =
        e.types.entries.map (fun x => (x.1, x.2.map fun r => ⟨r.source, g r.target⟩)) ∧
      (e.mapTargets g).fixities = e.fixities) ∧
    (∀ e : Env, e.mapTargets id = e) ∧
    ∀ g : Name → Name,
      (∀ (h : Name → Name) (e : Env), (e.mapTargets g).mapTargets h = e.mapTargets (h ∘ g)) ∧
      (∀ a b : Env, (a.merge b).mapTargets g = (a.mapTargets g).merge (b.mapTargets g)) ∧
      (∀ outer inner : Env,
        (outer.shadow inner).mapTargets g = (outer.mapTargets g).shadow (inner.mapTargets g)) ∧
      (∀ l : List Env, (mergeAll l).mapTargets g = mergeAll (l.map (mapTargets g))) ∧
      (∀ (h : Name → Name) (e : Env),
        (e.mapKeys h).mapTargets g = (e.mapTargets g).mapKeys h) ∧
      ∀ (p : Name → Bool) (e : Env),
        (e.filterKeys p).mapTargets g = (e.mapTargets g).filterKeys p :=
  ⟨fun _ _ => ⟨exists_tryMapTargets_iff, fun _ => tryMapTargets_eq_ok,
      fun _ => tryMapTargets_eq_error_iff, fun _ => tryMapTargets_congr⟩,
    fun _ _ => ⟨rfl, rfl, rfl⟩, mapTargets_id,
    fun g => ⟨mapTargets_mapTargets g, mapTargets_merge g, mapTargets_shadow g,
      mapTargets_mergeAll g, mapTargets_mapKeys g, mapTargets_filterKeys g⟩⟩

/-- `+` from two modules, a term from one of them and a type from the other. -/
def importedPlus : Env := .ofEntries
  [.term (.bare ⟨"+"⟩) ⟨.imported, .qualified ⟨"A", []⟩ ⟨"+"⟩⟩,
    .type (.bare ⟨"+"⟩) ⟨.imported, .qualified ⟨"B", []⟩ ⟨"+"⟩⟩, .fixity (.bare ⟨"+"⟩) ⟨.left, 6⟩]

/-- A local term `+` and a type parameter of that name. -/
def localPlus : Env := .ofEntries
  [.term (.bare ⟨"+"⟩) ⟨.binding (.onRow 1 1 2), .bare ⟨"+"⟩⟩,
    .type (.bare ⟨"+"⟩) ⟨.parameter, .bare ⟨"p"⟩⟩]

/-- Gives a name to `m`, but only if it had an owner before. -/
def handOver (m : ModuleName) (n : Name) : Except Name Name :=
  if n.isQualified then .ok (n.inModule m) else .error n

/-- Of the two local names the term is looked at first, after the term that comes from `A`. -/
theorem renamed_record_by_record_plus :
    let f := handOver ⟨"C", []⟩
    let g := fun n : Name => n.inModule ⟨"C", []⟩
    (∀ n ∈ importedPlus.targets, f n = .ok (g n)) ∧
      importedPlus.tryMapTargets f = .ok (importedPlus.mapTargets g) ∧
      importedPlus.tryMapTargets (fun n => .ok (g n)) = importedPlus.tryMapTargets f ∧
      (importedPlus.merge localPlus).tryMapTargets f = .error (.bare ⟨"+"⟩) := by
  intro f g
  have htargets : importedPlus.targets =
      [.qualified ⟨"A", []⟩ ⟨"+"⟩, .qualified ⟨"B", []⟩ ⟨"+"⟩] := by decide
  have hok : ∀ n ∈ importedPlus.targets, f n = .ok (g n) := by
    rw [htargets, List.forall_mem_cons, List.forall_mem_singleton]
    exact ⟨rfl, rfl⟩
  obtain ⟨hrename, -⟩ := renamed_record_by_record
  obtain ⟨-, hsuccess, -, hcongr⟩ := hrename f importedPlus
  obtain ⟨-, -, hfailure, -⟩ := hrename f (importedPlus.merge localPlus)
  refine ⟨hok, hsuccess g hok, (hcongr _ hok).symm, (hfailure _).mpr ?_⟩
  refine ⟨[.qualified ⟨"A", []⟩ ⟨"+"⟩], .bare ⟨"+"⟩,
    [.qualified ⟨"B", []⟩ ⟨"+"⟩, .bare ⟨"p"⟩], by decide, ?_, rfl⟩
  rw [List.forall_mem_singleton]
  exact ⟨_, rfl⟩

end Env

end Scoping
