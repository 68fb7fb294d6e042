import Scoping.Proofs.DroppedKeys
import Scoping.Proofs.Rekeying
import Scoping.Proofs.Targets

/-!
# Giving an environment an owner

What is in scope inside a module is seen from outside under names that the module owns. All keys and
all targets are given to it, whoever owned them before, so what had several owners ends up under one
key for each base. The candidates of a base are then listed in the order of their old keys, the bare
one first, and no candidate is lost. Of several fixities that of the least key is kept.

Which owner there was before makes no difference afterwards. So if an environment is given to one
module and then to another one, only the last one counts.

## Main results

* `Table.candidates_mapKeys_perm` — renaming keys loses no candidate
* `Env.recordsAt_qualify`, `Env.get?_fixities_qualify` — base by base
* `Env.qualify_qualify` — the last owner counts
* `Env.qualify_base_by_base` — environments that are given an owner
-/

namespace Scoping

open Std (TransOrd LawfulEqOrd)

/-- No name comes before a bare one of the same base. -/
theorem Name.isLE_compare_bare (n : Name) : (compare (bare n.base) n).isLE := by
  obtain ⟨owner, base⟩ := n
  rw [compare_eq]
  cases owner with
  | none => simp [bare]
  | some m => rfl

/-! ### The number of candidates -/

namespace Table

variable {κ κ' α : Type} [Ord κ] [TransOrd κ] [LawfulEqOrd κ] [Ord κ'] [TransOrd κ']
  [LawfulEqOrd κ'] [DecidableEq κ']

theorem candidates_eq_flatMap (t : Table κ (List α)) :
    t.candidates = t.keys.flatMap fun q => (t.get? q).getD [] := by
  rw [candidates, keys, ← flatten_filterMap, List.filterMap_map, List.flatMap_def]
  exact congrArg List.flatten (filterMap_get?_of_subset fun _ he => he).symm

/-- **Renaming keys loses no candidate.** Each key is among those that are moved to its new name. -/
theorem candidates_mapKeys_perm (f : κ → κ') (t : Table κ (List α)) :
    (t.mapKeys (· ++ ·) f).candidates.Perm t.candidates := by
  have hkeys : ((t.mapKeys (· ++ ·) f).keys.flatMap fun k => t.keys.filter fun q => f q = k).Perm
      t.keys := by
    -- A second step that moves everything to one key gathers all keys.
    have hsteps := inTwoSteps_perm (g := fun _ => ()) (k := ()) t.nodup_keys (nodup_keys _)
      (t.mem_keys_of_mem (· ++ ·) f)
    simpa [inTwoSteps] using hsteps
  rw [candidates_eq_flatMap, candidates_eq_flatMap]
  simp only [getD_mapKeys_append]
  rw [← List.flatMap_assoc]
  exact hkeys.flatMap_right _

/-- Candidates may be replaced on the way. -/
theorem candidates_moved_perm {β : Type} (r : α → β) (f : κ → κ') (t : Table κ (List α)) :
    ((t.map (List.map r)).mapKeys (· ++ ·) f).candidates.Perm (t.candidates.map r) := by
  rw [← candidates_map]
  exact candidates_mapKeys_perm f _

end Table

/-! ### Owned environments -/

namespace Env

theorem targets_mapKeys_perm (f : Name → Name) (e : Env) : (e.mapKeys f).targets.Perm e.targets :=
  ((Table.candidates_mapKeys_perm f e.terms).map _).append
    ((Table.candidates_mapKeys_perm f e.types).map _)

variable {e : Env} {m : ModuleName} {s : Aspect} {k : Name}

theorem keys_table_mapTargets (f : Name → Name) (e : Env) (s : Aspect) :
    ((e.mapTargets f).table s).keys = (e.table s).keys := by
  rw [table_mapTargets, Table.keys_map]

/-- The module owns each base that has a key in the table. -/
theorem mem_keys_table_qualify : k ∈ ((e.qualify m).table s).keys ↔
    k.owner = some m ∧ ∃ q ∈ (e.table s).keys, q.base = k.base := by
  rw [qualify, mem_keys_table_mapKeys, keys_table_mapTargets]
  simp only [Name.inModule, Name.qualified_eq_iff, and_left_comm, exists_and_left]

theorem owner_of_mem_targets_qualify {n : Name} (h : n ∈ (e.qualify m).targets) :
    n.owner = some m := by
  rw [qualify, (targets_mapKeys_perm _ _).mem_iff, targets_mapTargets, List.mem_map] at h
  obtain ⟨n', -, rfl⟩ := h
  rfl

theorem recordsAt_qualify (s : Referent) (m : ModuleName) (e : Env) (b : Identifier) :
    (e.qualify m).recordsAt s (.qualified m b) =
      ((e.records s).keys.filter fun q => q.base = b).flatMap fun q =>
        (e.recordsAt s q).map fun r => ⟨r.source, r.target.inModule m⟩ := by
  rw [← Table.filter_inModule _ m b, recordsAt, qualify, records_mapKeys, records_mapTargets]
  exact Table.getD_mapKeys_map_append _ _ (e.records s) _

/-- The fixities are those of the least key of the base. -/
theorem get?_fixities_qualify {q : Name} (hq : q ∈ e.fixities.keys)
    (hleast : ∀ q' ∈ e.fixities.keys, q'.base = q.base → (compare q q').isLE) :
    (e.qualify m).fixities.get? (.qualified m q.base) = e.fixities.get? q :=
  get?_fixities_mapKeys_of_least (e := e.mapTargets (·.inModule m)) hq
    fun q' hq' hmoved => hleast q' hq' (Name.inModule_inj.mp hmoved)

/-- A base is given to the module with all that it has and nothing else. -/
theorem filterKeys_qualify (p : Identifier → Bool) (m : ModuleName) (e : Env) :
    (e.qualify m).filterKeys (fun k => p k.base) = (e.filterKeys fun k => p k.base).qualify m := by
  rw [qualify, qualify, filterKeys_mapKeys, mapTargets_filterKeys]
  rfl

/-- **The last owner counts.** -/
theorem qualify_qualify (m n : ModuleName) (e : Env) : (e.qualify m).qualify n = e.qualify n := by
  have happart : ∀ q q' : Name, (q.inModule m).inModule n = (q'.inModule m).inModule n →
      q.inModule m = q'.inModule m :=
    fun q q' h => Name.inModule_inj.mpr (Name.inModule_inj.mp h)
  rw [qualify, qualify, qualify, mapTargets_mapKeys, mapTargets_mapTargets,
    mapKeys_mapKeys_of_apart happart]
  rfl

theorem length_candidates_qualify (s : Referent) (m : ModuleName) (e : Env) :
    ((e.qualify m).records s).candidates.length = (e.records s).candidates.length := by
  rw [qualify, records_mapKeys, records_mapTargets,
    (Table.candidates_moved_perm _ _ (e.records s)).length_eq, List.length_map]

/-- The bare key comes before the others of its base. -/
theorem head?_keys_of_bare {b : Identifier} (hb : .bare b ∈ (e.table s).keys) :
    ((e.table s).keys.filter fun q => q.base = b).head? = some (.bare b) := by
  have hmem : .bare b ∈ (e.table s).keys.filter fun q => q.base = b :=
    List.mem_filter.mpr ⟨hb, decide_eq_true rfl⟩
  have hleast : ∀ q ∈ (e.table s).keys.filter fun q => q.base = b,
      (compare (Name.bare b) q).isLE := by
    intro q hq
    obtain rfl : q.base = b := of_decide_eq_true (List.mem_filter.mp hq).2
    exact q.isLE_compare_bare
  obtain ⟨qs, hqs⟩ :=
    Table.exists_eq_cons_of_least ((Table.pairwise_keys _).filter _) hmem hleast
  rw [hqs, List.head?_cons]

/-- **Giving an environment to a module.** Afterwards all keys and all targets are owned by the
module `m`, and a table has a key for each base that it had a key for. Under it are the candidates
of all keys of that base, in the order of these keys, with new targets but the same sources, and the
fixities of the least of these keys. The number of candidates stays the same, altogether and for
each base. If the environment is given to another module after that, this one counts for nothing. -/
theorem qualify_base_by_base (m : ModuleName) (e : Env) :
    (∀ s k, k ∈ ((e.qualify m).table s).keys ↔
      k.owner = some m ∧ ∃ q ∈ (e.table s).keys, q.base = k.base) ∧
    (∀ n ∈ (e.qualify m).targets, n.owner = some m) ∧
    (∀ b,
      (e.qualify m).termsAt (.qualified m b) = (e.terms.keys.filter fun q => q.base = b).flatMap
        (fun q => (e.termsAt q).map fun r => ⟨r.source, r.target.inModule m⟩) ∧
      (e.qualify m).typesAt (.qualified m b) = (e.types.keys.filter fun q => q.base = b).flatMap
        fun q => (e.typesAt q).map fun r => ⟨r.source, r.target.inModule m⟩) ∧
    (∀ s b, .bare b ∈ (e.table s).keys →
      ((e.table s).keys.filter fun q => q.base = b).head? = some (.bare b)) ∧
    ((e.qualify m).terms.candidates.length = e.terms.candidates.length ∧
      (e.qualify m).types.candidates.length = e.types.candidates.length) ∧
    (∀ b,
      ((e.qualify m).filterKeys fun k => k.base = b).terms.candidates.length =
        (e.filterKeys fun k => k.base = b).terms.candidates.length ∧
      ((e.qualify m).filterKeys fun k => k.base = b).types.candidates.length =
        (e.filterKeys fun k => k.base = b).types.candidates.length) ∧
    (∀ q ∈ e.fixities.keys,
      (∀ q' ∈ e.fixities.keys, q'.base = q.base → (compare q q').isLE) →
        (e.qualify m).fixities.get? (.qualified m q.base) = e.fixities.get? q) ∧
    (∀ n : ModuleName, (e.qualify m).qualify n = e.qualify n) := by
  refine ⟨fun s k => mem_keys_table_qualify, fun n => owner_of_mem_targets_qualify,
    fun b => ⟨recordsAt_qualify .term m e b, recordsAt_qualify .type m e b⟩,
    fun s b => head?_keys_of_bare,
    ⟨length_candidates_qualify .term m e, length_candidates_qualify .type m e⟩, fun b => ?_,
    fun q => get?_fixities_qualify, fun n => qualify_qualify m n e⟩
  rw [filterKeys_qualify fun b' => decide (b' = b)]
  exact ⟨length_candidates_qualify .term m _, length_candidates_qualify .type m _⟩

/-- `+` with two owners, of which the later one comes first, and bare. -/
def plusOfThree : Env := .ofEntries
  [.term (.qualified ⟨"B", []⟩ ⟨"+"⟩) ⟨.imported, .qualified ⟨"B", []⟩ ⟨"+"⟩⟩,
    .fixity (.qualified ⟨"B", []⟩ ⟨"+"⟩) ⟨.right, 5⟩,
    .term (.qualified ⟨"A", []⟩ ⟨"+"⟩) ⟨.constructor (.onRow 2 1 2), .bare ⟨"plus"⟩⟩,
    .fixity (.qualified ⟨"A", []⟩ ⟨"+"⟩) ⟨.left, 6⟩,
    .term (.bare ⟨"+"⟩) ⟨.binding (.onRow 1 1 2), .bare ⟨"+"⟩⟩]

theorem qualify_base_by_base_plus :
    let m : ModuleName := ⟨"M", []⟩
    let plus := Name.qualified m ⟨"+"⟩
    plus ∈ (plusOfThree.qualify m).terms.keys ∧
      (∀ n ∈ (plusOfThree.qualify m).targets, n.owner = some m) ∧
      (plusOfThree.qualify m).termsAt plus = [⟨.binding (.onRow 1 1 2), plus⟩,
        ⟨.constructor (.onRow 2 1 2), .qualified m ⟨"plus"⟩⟩, ⟨.imported, plus⟩] ∧
      .bare ⟨"+"⟩ ∈ plusOfThree.terms.keys ∧
      (plusOfThree.terms.keys.filter fun q => q.base = ⟨"+"⟩).head? = some (.bare ⟨"+"⟩) ∧
      (∀ q' ∈ plusOfThree.fixities.keys, q'.base = ⟨"+"⟩ →
        (compare (Name.qualified ⟨"A", []⟩ ⟨"+"⟩) q').isLE) ∧
      (plusOfThree.qualify m).fixities.get? plus = some [⟨.left, 6⟩] := by
  intro m plus
  obtain ⟨hkeys, htargets, hlists, hbare, -, -, hfixity, -⟩ := qualify_base_by_base m plusOfThree
  have hmem : .bare ⟨"+"⟩ ∈ plusOfThree.terms.keys := by decide
  have hleast : ∀ q' ∈ plusOfThree.fixities.keys, q'.base = ⟨"+"⟩ →
      (compare (Name.qualified ⟨"A", []⟩ ⟨"+"⟩) q').isLE := by decide
  refine ⟨(hkeys .term plus).mpr ⟨rfl, _, hmem, rfl⟩, htargets, ?_, hmem, hbare .term _ hmem,
    hleast, ?_⟩
  · exact (hlists ⟨"+"⟩).1.trans (by decide)
  · exact (hfixity (.qualified ⟨"A", []⟩ ⟨"+"⟩) (by decide) hleast).trans (by decide)

end Env

end Scoping
