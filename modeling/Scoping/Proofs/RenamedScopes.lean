import Mathlib.Data.List.Perm.Basic
import Mathlib.Data.Set.Operations
import Scoping.Proofs.Aspects

/-!
# Renaming the keys of several scopes

Two environments are put together, and their keys are renamed. If the renaming comes last, then it
goes through the keys of both at once, in one order. If it comes first, then it goes through each of
them by itself, and what the first one has stays in front. So, where keys become one, the same
candidates may come in another order, an operator may get another fixity, and one environment may
hide candidates of the other that had a key of their own before.

Where no two keys become one, each key is moved by itself and nothing of this can happen.

## Main results

* `Table.keys_mapKeys_mergeWith`, `Table.getD_mapKeys_mergeWith_perm` — what is the same in any case
* `Table.mapKeys_mergeWith` — what is the same if no two keys become one
* `Env.mapKeys_of_two_scopes` — both for environments, side by side and nested
-/

namespace Scoping

open Std (TransOrd LawfulEqOrd)

/-! ### Single tables -/

namespace Table

variable {κ κ' α : Type} [Ord κ] [TransOrd κ] [LawfulEqOrd κ] [Ord κ'] [TransOrd κ']
  [LawfulEqOrd κ'] [DecidableEq κ']

theorem keys_mapKeys_mergeWith (c d : α → α → α) (f : κ → κ') (s t : Table κ α) :
    ((s.mergeWith d t).mapKeys c f).keys = ((s.mapKeys c f).mergeWith d (t.mapKeys c f)).keys := by
  refine eq_of_ascending (pairwise_keys _) (pairwise_keys _) fun k => ?_
  simp only [mem_keys_mapKeys, mem_keys_mergeWith, or_and_right, exists_or]

/-- **The same candidates, perhaps in another order.** Under each key that is moved to `k`, those of
both tables are next to each other if the renaming comes last. -/
theorem getD_mapKeys_mergeWith_perm (f : κ → κ') (s t : Table κ (List α)) (k : κ') :
    ((((s.mergeWith (· ++ ·) t).mapKeys (· ++ ·) f).get? k).getD []).Perm
      ((((s.mapKeys (· ++ ·) f).mergeWith (· ++ ·) (t.mapKeys (· ++ ·) f)).get? k).getD []) := by
  have hascending := pairwise_keys (s.mergeWith (· ++ ·) t)
  have hs : ∀ q ∈ s.keys, q ∈ (s.mergeWith (· ++ ·) t).keys :=
    fun q hq => mem_keys_mergeWith.mpr (.inl hq)
  have ht : ∀ q ∈ t.keys, q ∈ (s.mergeWith (· ++ ·) t).keys :=
    fun q hq => mem_keys_mergeWith.mpr (.inr hq)
  rw [getD_mergeWith_append, getD_mapKeys_append, getD_mapKeys_append, getD_mapKeys_append,
    s.flatMap_keys hascending hs, t.flatMap_keys hascending ht]
  simp only [getD_mergeWith_append]
  exact (List.flatMap_append_perm _ _ _).symm

omit [DecidableEq κ'] in
/-- **Where no two keys become one** it does not matter what becomes of values that meet. -/
theorem mapKeys_mergeWith {c d : α → α → α} {f : κ → κ'} {s t : Table κ α}
    (hf : Set.InjOn f {q | q ∈ s.keys ∨ q ∈ t.keys}) :
    (s.mergeWith d t).mapKeys c f = (s.mapKeys c f).mergeWith d (t.mapKeys c f) := by
  refine ext_get? fun k => ?_
  rw [get?_mergeWith]
  by_cases hk : ∃ q, (q ∈ s.keys ∨ q ∈ t.keys) ∧ f q = k
  · obtain ⟨q, hq, rfl⟩ := hk
    have hmoved : ∀ u : Table κ α, (∀ q' ∈ u.keys, q' ∈ s.keys ∨ q' ∈ t.keys) →
        (u.mapKeys c f).get? (f q) = u.get? q :=
      fun u hu => get?_mapKeys_of_unique rfl fun q' hq' heq => hf (hu q' hq') hq heq
    rw [hmoved _ fun _ => mem_keys_mergeWith.mp, hmoved s fun _ => .inl, hmoved t fun _ => .inr,
      get?_mergeWith]
  · have hnone : ∀ u : Table κ α, (∀ q' ∈ u.keys, q' ∈ s.keys ∨ q' ∈ t.keys) →
        (u.mapKeys c f).get? k = none :=
      fun u hu => get?_mapKeys_eq_none fun q hq heq => hk ⟨q, hu q hq, heq⟩
    rw [hnone _ fun _ => mem_keys_mergeWith.mp, hnone s fun _ => .inl, hnone t fun _ => .inr]
    rfl

end Table

/-! ### Environments -/

namespace Env

theorem keys_mapKeys_merge (f : Name → Name) (a b : Env) (s : Aspect) :
    (((a.merge b).mapKeys f).table s).keys =
      (((a.mapKeys f).merge (b.mapKeys f)).table s).keys := by
  rw [table_mapKeys, table_merge, table_merge, table_mapKeys, table_mapKeys,
    Table.keys_mapKeys_mergeWith]

/-- **Renaming the keys of two environments.** Whether two environments are put side by side before
their keys are renamed or after, the keys are the same in the end, and under each of them there are
the same candidates in some order. If no two keys of the two become one, then the environments are
equal, with the order of candidates and the fixities, and so they are if one is nested in the
other. -/
theorem mapKeys_of_two_scopes (f : Name → Name) (a b : Env) :
    (∀ s, (((a.merge b).mapKeys f).table s).keys =
      (((a.mapKeys f).merge (b.mapKeys f)).table s).keys) ∧
    (∀ k, (((a.merge b).mapKeys f).termsAt k).Perm
        (((a.mapKeys f).merge (b.mapKeys f)).termsAt k) ∧
      (((a.merge b).mapKeys f).typesAt k).Perm
        (((a.mapKeys f).merge (b.mapKeys f)).typesAt k)) ∧
    ((∀ s, Set.InjOn f {q | q ∈ (a.table s).keys ∨ q ∈ (b.table s).keys}) →
      (a.merge b).mapKeys f = (a.mapKeys f).merge (b.mapKeys f) ∧
      (a.shadow b).mapKeys f = (a.mapKeys f).shadow (b.mapKeys f)) := by
  refine ⟨keys_mapKeys_merge f a b, fun k => ⟨?_, ?_⟩, fun hf => ⟨?_, ?_⟩⟩
  · exact Table.getD_mapKeys_mergeWith_perm f a.terms b.terms k
  · exact Table.getD_mapKeys_mergeWith_perm f a.types b.types k
  · refine ext_table fun s => ?_
    rw [table_mapKeys, table_merge, table_merge, table_mapKeys, table_mapKeys,
      Table.mapKeys_mergeWith (hf s)]
  · refine ext_table fun s => ?_
    rw [table_mapKeys, table_shadow, table_shadow, table_mapKeys, table_mapKeys,
      Table.mapKeys_mergeWith (hf s)]

/-- `+` from the module `m`, with the fixity that it has there. -/
def plusFrom (m : ModuleName) (fixity : Fixity) : Env := .ofEntries
  [.term (.qualified m ⟨"+"⟩) ⟨.imported, .qualified m ⟨"+"⟩⟩, .fixity (.qualified m ⟨"+"⟩) fixity]

/-- Giving what is owned by `A` to `C` keeps it apart from what is owned by `B`. If both lose their
owner, then it depends on what is done first which fixity is kept and whether a candidate is
hidden. -/
theorem mapKeys_of_two_scopes_plus :
    let a := plusFrom ⟨"B", []⟩ ⟨.left, 6⟩
    let b := plusFrom ⟨"A", []⟩ ⟨.right, 5⟩
    let f := fun n : Name => if n.owner = some ⟨"A", []⟩ then n.inModule ⟨"C", []⟩ else n
    let plus := Name.bare ⟨"+"⟩
    (∀ s, Set.InjOn f {q | q ∈ (a.table s).keys ∨ q ∈ (b.table s).keys}) ∧
      (a.shadow b).mapKeys f = (a.mapKeys f).shadow (b.mapKeys f) ∧
      (((a.merge b).mapKeys Name.unqualified).termsAt plus).Perm
        (((a.mapKeys Name.unqualified).merge (b.mapKeys Name.unqualified)).termsAt plus) ∧
      ((a.merge b).mapKeys Name.unqualified).fixityAt plus = some ⟨.right, 5⟩ ∧
      ((a.mapKeys Name.unqualified).merge (b.mapKeys Name.unqualified)).fixityAt plus =
        some ⟨.left, 6⟩ ∧
      (((a.shadow b).mapKeys Name.unqualified).termsAt plus).length = 2 ∧
      (((a.mapKeys Name.unqualified).shadow (b.mapKeys Name.unqualified)).termsAt plus).length =
        1 := by
  intro a b f plus
  have hapart : ∀ s, ∀ q ∈ (a.table s).keys ++ (b.table s).keys,
      ∀ q' ∈ (a.table s).keys ++ (b.table s).keys, f q = f q' → q = q' := by
    intro s
    cases s <;> decide
  have hf : ∀ s, Set.InjOn f {q | q ∈ (a.table s).keys ∨ q ∈ (b.table s).keys} :=
    fun s q hq q' hq' => hapart s q (List.mem_append.mpr hq) q' (List.mem_append.mpr hq')
  obtain ⟨-, -, hexact⟩ := mapKeys_of_two_scopes f a b
  obtain ⟨-, hperm, -⟩ := mapKeys_of_two_scopes Name.unqualified a b
  exact ⟨hf, (hexact hf).2, (hperm plus).1, by decide, by decide, by decide, by decide⟩

end Env

end Scoping
