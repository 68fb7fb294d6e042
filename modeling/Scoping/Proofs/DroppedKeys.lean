import Scoping.Proofs.Aspects

/-!
# Keys that are dropped

Dropping keys takes whole entries out of an environment and leaves the others as they are. Those
that satisfy a condition and those that do not make up the environment again, in either order and
also if one part is nested in the other, because they have no key in common.

Keys can be dropped before or after environments are put together. Nothing that was hidden comes to
light by that, because a key is dropped from the outer environment along with the inner one. They
can also be dropped before or after they are renamed. Before, it is the new name of a key that has
to satisfy the condition.

## Main results

* `Table.filterKeys_mergeWith`, `Env.filterKeys_merge`, `Env.filterKeys_shadow` — dropping before or
  after putting together
* `Table.filterKeys_mapKeys`, `Env.filterKeys_mapKeys` — dropping before or after renaming
* `Table.mergeWith_filterKeys` — the two parts of a table
* `Env.merge_filterKeys`, `Env.shadow_filterKeys` — the two parts of an environment
* `Env.dropping_anywhere` — environments some of whose keys are dropped
-/

namespace Scoping

open Std (TransOrd LawfulEqOrd)

/-! ### Single tables -/

namespace Table

variable {κ κ' α : Type} [Ord κ] [TransOrd κ] [LawfulEqOrd κ]

omit [TransOrd κ] [LawfulEqOrd κ] in
theorem notMem_keys_filterKeys {p q : κ → Bool} (hpq : ∀ k, q k = !p k) {t : Table κ α} {k : κ}
    (hk : k ∈ (t.filterKeys p).keys) : k ∉ (t.filterKeys q).keys := by
  rw [keys_filterKeys, List.mem_filter] at hk ⊢
  simp [hpq, hk.2]

/-- **The two parts of a table**, with and without the keys that satisfy `p`, have nothing to be
combined. -/
theorem mergeWith_filterKeys (c : α → α → α) {p q : κ → Bool} (hpq : ∀ k, q k = !p k)
    (t : Table κ α) : (t.filterKeys p).mergeWith c (t.filterKeys q) = t := by
  refine ext_get? fun k => ?_
  rw [get?_mergeWith, get?_filterKeys, get?_filterKeys, hpq]
  cases p k <;> cases t.get? k <;> rfl

/-- A key is dropped with all that there is under it, whatever would become of values that meet. -/
theorem filterKeys_mergeWith (c : α → α → α) (p : κ → Bool) (s t : Table κ α) :
    (s.mergeWith c t).filterKeys p = (s.filterKeys p).mergeWith c (t.filterKeys p) := by
  refine ext_get? fun k => ?_
  rw [get?_filterKeys, get?_mergeWith, get?_mergeWith, get?_filterKeys, get?_filterKeys]
  by_cases hp : p k
  · rw [if_pos hp, if_pos hp, if_pos hp]
  · rw [if_neg hp, if_neg hp, if_neg hp]
    rfl

theorem filterKeys_filterKeys (p q : κ → Bool) (t : Table κ α) :
    (t.filterKeys q).filterKeys p = t.filterKeys fun k => p k && q k := by
  refine ext_get? fun k => ?_
  rw [get?_filterKeys, get?_filterKeys, get?_filterKeys]
  cases p k <;> rfl

/-- A key that is dropped afterwards is not there if all that is moved to it is dropped before. -/
theorem filterKeys_mapKeys [Ord κ'] [TransOrd κ'] [LawfulEqOrd κ'] [DecidableEq κ']
    (c : α → α → α) (f : κ → κ') (p : κ' → Bool) (t : Table κ α) :
    (t.mapKeys c f).filterKeys p = (t.filterKeys fun q => p (f q)).mapKeys c f := by
  refine ext_get? fun k => ?_
  rw [get?_filterKeys, get?_mapKeys_eq_combineAll, get?_mapKeys_eq_combineAll, keys_filterKeys,
    List.filter_filter]
  by_cases hp : p k
  · have hkeys : (t.keys.filter fun q => decide (f q = k) && p (f q)) =
        t.keys.filter fun q => f q = k :=
      List.filter_congr fun q _ => by by_cases hq : f q = k <;> simp [hq, hp]
    have hget : ∀ q ∈ t.keys.filter fun q => f q = k,
        (t.filterKeys fun q => p (f q)).get? q = t.get? q := by
      intro q hq
      have hqk : f q = k := of_decide_eq_true (List.mem_filter.mp hq).2
      rw [get?_filterKeys, if_pos (by rw [hqk, hp])]
    rw [if_pos hp, hkeys, List.filterMap_congr hget]
  · have hkeys : (t.keys.filter fun q => decide (f q = k) && p (f q)) = [] := by
      rw [List.filter_eq_nil_iff]
      intro q _ hq
      rw [Bool.and_eq_true, decide_eq_true_eq] at hq
      exact hp (hq.1 ▸ hq.2)
    rw [if_neg hp, hkeys]
    rfl

end Table

/-! ### Environments -/

namespace Env

variable {p q : Name → Bool}

theorem filterKeys_merge (p : Name → Bool) (a b : Env) :
    (a.merge b).filterKeys p = (a.filterKeys p).merge (b.filterKeys p) :=
  ext_table fun s => by
    rw [table_filterKeys, table_merge, table_merge, table_filterKeys, table_filterKeys,
      Table.filterKeys_mergeWith]

theorem filterKeys_shadow (p : Name → Bool) (outer inner : Env) :
    (outer.shadow inner).filterKeys p = (outer.filterKeys p).shadow (inner.filterKeys p) :=
  ext_table fun s => by
    rw [table_filterKeys, table_shadow, table_shadow, table_filterKeys, table_filterKeys,
      Table.filterKeys_mergeWith]

theorem filterKeys_filterKeys (p q : Name → Bool) (e : Env) :
    (e.filterKeys q).filterKeys p = e.filterKeys fun n => p n && q n :=
  ext_table fun s => by
    rw [table_filterKeys, table_filterKeys, table_filterKeys, Table.filterKeys_filterKeys]

theorem filterKeys_mapKeys (f : Name → Name) (p : Name → Bool) (e : Env) :
    (e.mapKeys f).filterKeys p = (e.filterKeys fun n => p (f n)).mapKeys f :=
  ext_table fun s => by
    rw [table_filterKeys, table_mapKeys, table_mapKeys, table_filterKeys, Table.filterKeys_mapKeys]

theorem merge_filterKeys (hpq : ∀ n, q n = !p n) (e : Env) :
    (e.filterKeys p).merge (e.filterKeys q) = e :=
  ext_table fun s => by
    rw [table_merge, table_filterKeys, table_filterKeys, Table.mergeWith_filterKeys _ hpq]

theorem shadow_filterKeys (hpq : ∀ n, q n = !p n) (e : Env) :
    (e.filterKeys p).shadow (e.filterKeys q) = e :=
  ext_table fun s => by
    rw [table_shadow, table_filterKeys, table_filterKeys, Table.mergeWith_filterKeys _ hpq]

/-- **Keys can be dropped anywhere.** The keys that satisfy `p` are kept. It makes no difference
whether this is done before or after two environments are put side by side or nested in one another.
Dropping keys twice keeps those that satisfy both conditions. Before keys are renamed, those are
kept whose new name satisfies `p`. And what is kept and what is dropped, side by side in either
order, is what there was. -/
theorem dropping_anywhere (p q : Name → Bool) (f : Name → Name) (a b : Env) :
    (a.merge b).filterKeys p = (a.filterKeys p).merge (b.filterKeys p) ∧
    (a.shadow b).filterKeys p = (a.filterKeys p).shadow (b.filterKeys p) ∧
    (a.filterKeys q).filterKeys p = a.filterKeys (fun n => p n && q n) ∧
    (a.mapKeys f).filterKeys p = (a.filterKeys fun n => p (f n)).mapKeys f ∧
    (a.filterKeys p).merge (a.filterKeys fun n => !p n) = a ∧
    (a.filterKeys fun n => !p n).merge (a.filterKeys p) = a :=
  ⟨filterKeys_merge p a b, filterKeys_shadow p a b, filterKeys_filterKeys p q a,
    filterKeys_mapKeys f p a, merge_filterKeys (fun _ => rfl) a,
    merge_filterKeys (fun n => (Bool.not_not (p n)).symm) a⟩

end Env

end Scoping
