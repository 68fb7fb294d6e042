import Mathlib.Data.List.Basic
import Scoping.Name.Order
import Scoping.Table.Lemmas

/-!
# Tables of candidates

A table of an environment holds a list under each key, and a key that stands for nothing is not in
the table at all. So a table is a function from keys to lists, written down for the keys where the
list is not empty. `Table.Lists t f` says that `t` is the table of `f`; each operation on tables is
then one operation on functions.

Two ways of combining lists are in use. Appending keeps both. Keeping the first one is only used
where a list has at most one member, and is described by functions into `Option`.

## Main definitions

* `Scoping.stored` — a list as a table holds it
* `Scoping.combineAll` — values that meet under one key
* `Table.Lists` — the table of a function from keys to lists

## Main results

* `combineAll_append`, `combineAll_flatMap` — values combined in portions
* `Table.get?_mapKeys_eq_combineAll` — gathering under new keys
* `Table.Lists.append`, `Table.Lists.first` — merging
* `Table.Lists.mapKeys_append`, `Table.Lists.mapKeys_first` — the same for tables of functions
* `Table.get?_mapKeys_of_unique`, `Table.get?_mapKeys_inModule_of_bare` — keys that are moved by
  themselves
-/

namespace Scoping

open Std (TransOrd LawfulEqOrd)

variable {κ κ' α β : Type}

/-! ### Lists as a table holds them -/

/-- A list of candidates as a table holds it. Without candidates there is no entry. -/
def stored (l : List α) : Option (List α) := if l = [] then none else some l

@[simp] theorem stored_nil : stored ([] : List α) = none := rfl

@[simp] theorem stored_cons (a : α) (l : List α) : stored (a :: l) = some (a :: l) := rfl

@[simp] theorem getD_stored (l : List α) : (stored l).getD [] = l := by
  cases l <;> rfl

@[simp] theorem stored_eq_none_iff {l : List α} : stored l = none ↔ l = [] := by
  cases l <;> simp

theorem map_stored (f : α → β) (l : List α) : (stored l).map (List.map f) = stored (l.map f) := by
  cases l <;> rfl

theorem elim_nil_map (o : Option (List α)) (f : α → β) :
    (o.elim [] fun l => l.map f) = (o.getD []).map f := by
  cases o <;> rfl

theorem elim_nil_nil (o : Option α) : (o.elim [] fun _ => ([] : List β)) = [] := by
  cases o <;> rfl

theorem merge_append_stored (l m : List α) :
    (stored l).merge (· ++ ·) (stored m) = stored (l ++ m) := by
  cases l <;> cases m <;> simp

theorem merge_first_stored (o o' : Option α) :
    (stored o.toList).merge (fun first _ => first) (stored o'.toList) =
      stored (o.or o').toList := by
  cases o <;> cases o' <;> rfl

theorem toList_ite_none (p : Prop) [Decidable p] (o : Option α) :
    (if p then o else none).toList = if p then o.toList else [] := by
  split <;> rfl

theorem merge_last (o o' : Option α) : o.merge (fun _ last => last) o' = o'.or o := by
  cases o <;> cases o' <;> rfl

theorem merge_first (o o' : Option α) : o.merge (fun first _ => first) o' = o.or o' := by
  cases o <;> cases o' <;> rfl

theorem or_stored_of_ne_nil {l : List α} (h : l ≠ []) (o : Option (List α)) :
    (stored l).or o = stored l := by
  cases l with
  | nil => contradiction
  | cons a l => rfl

/-- Where two entries have nothing in common, a candidate of the outer one is lost exactly when
there is an inner one. -/
theorem notMem_or_stored_iff {inner outer : List α} {a : α} (ha : a ∈ outer)
    (hdisjoint : ∀ a ∈ inner, a ∉ outer) :
    a ∉ ((stored inner).or (stored outer)).getD [] ↔ inner ≠ [] := by
  cases inner with
  | nil => simp [ha]
  | cons b l =>
    have hnot : a ∉ b :: l := fun hmem => hdisjoint a hmem ha
    simpa using hnot

/-! ### Members that contribute nothing -/

theorem flatMap_ite_nil (p : α → Prop) [DecidablePred p] (f : α → List β) (l : List α) :
    l.flatMap (fun x => if p x then f x else []) = (l.filter fun x => p x).flatMap f := by
  induction l with
  | nil => rfl
  | cons x l ih => by_cases hp : p x <;> simp [hp, ih]

theorem findSome?_ite_none (p : α → Prop) [DecidablePred p] (f : α → Option β) (l : List α) :
    l.findSome? (fun x => if p x then f x else none) = (l.filter fun x => p x).findSome? f := by
  induction l with
  | nil => rfl
  | cons x l ih => by_cases hp : p x <;> simp [hp, ih, List.findSome?_cons]

theorem filterMap_cons_toList (g : α → Option β) (a : α) (l : List α) :
    (a :: l).filterMap g = (g a).toList ++ l.filterMap g := by
  rw [List.filterMap_cons]
  cases g a <;> rfl

theorem flatten_filterMap (g : α → Option (List β)) (l : List α) :
    (l.filterMap g).flatten = l.flatMap fun x => (g x).getD [] := by
  induction l with
  | nil => rfl
  | cons x l ih =>
    rw [filterMap_cons_toList, List.flatten_append, List.flatMap_cons, ih]
    cases g x <;> simp

/-! ### Values that meet under one key -/

/-- The values of a list combined by `f`, one after another. Of no values nothing is made. -/
def combineAll (f : α → α → α) (l : List α) : Option α :=
  l.foldl (fun old a => old.merge f (some a)) none

section CombineAll

variable {f : α → α → α}

theorem foldl_merge_eq_none_iff {l : List α} {o : Option α} :
    l.foldl (fun old a => old.merge f (some a)) o = none ↔ o = none ∧ l = [] := by
  induction l generalizing o with
  | nil => simp
  | cons a l ih =>
    rw [List.foldl_cons, ih]
    cases o <;> simp [Option.merge]

theorem combineAll_eq_none_iff {l : List α} : combineAll f l = none ↔ l = [] := by
  rw [combineAll, foldl_merge_eq_none_iff]
  exact and_iff_right rfl

theorem foldl_merge (hf : ∀ a b c, f (f a b) c = f a (f b c)) (l : List α) (o : Option α) :
    l.foldl (fun old a => old.merge f (some a)) o = o.merge f (combineAll f l) := by
  induction l generalizing o with
  | nil => cases o <;> rfl
  | cons a l ih =>
    have hcons : combineAll f (a :: l) = (some a).merge f (combineAll f l) := ih (some a)
    rw [List.foldl_cons, ih, hcons]
    cases o <;> cases combineAll f l <;> simp [Option.merge, hf]

/-- Portions can be combined first. -/
theorem combineAll_append (hf : ∀ a b c, f (f a b) c = f a (f b c)) (l l' : List α) :
    combineAll f (l ++ l') = (combineAll f l).merge f (combineAll f l') := by
  rw [combineAll, List.foldl_append, foldl_merge hf]
  rfl

theorem combineAll_toList (o : Option α) : combineAll f o.toList = o := by
  cases o <;> rfl

/-- **Combining in portions.** A portion without values contributes nothing. -/
theorem combineAll_flatMap (hf : ∀ a b c, f (f a b) c = f a (f b c)) (g : β → List α)
    (l : List β) :
    combineAll f (l.filterMap fun x => combineAll f (g x)) = combineAll f (l.flatMap g) := by
  induction l with
  | nil => rfl
  | cons x l ih =>
    rw [filterMap_cons_toList, combineAll_append hf, combineAll_toList, ih, List.flatMap_cons,
      combineAll_append hf]

theorem map_combineAll {g : β → β → β} {r : α → β} (hr : ∀ a b, r (f a b) = g (r a) (r b))
    (l : List α) : (combineAll f l).map r = combineAll g (l.map r) := by
  rw [combineAll, combineAll, List.foldl_map]
  refine (List.foldl_hom (Option.map r) fun o a => ?_).symm
  cases o <;> simp [Option.merge, hr]

/-- Lists that meet under one key follow one another. -/
theorem getD_combineAll_append (ls : List (List α)) :
    (combineAll (· ++ ·) ls).getD [] = ls.flatten := by
  induction ls with
  | nil => rfl
  | cons l ls ih =>
    rw [← List.singleton_append, combineAll_append List.append_assoc, List.flatten_append, ← ih]
    cases combineAll (· ++ ·) ls <;> simp [combineAll, Option.merge]

/-- Of values of which the first is kept only the first matters. -/
theorem combineAll_first (l : List α) : combineAll (fun first _ => first) l = l.head? := by
  cases l with
  | nil => rfl
  | cons a l =>
    rw [← List.singleton_append, combineAll_append fun _ _ _ => rfl]
    cases combineAll (fun first _ => first) l <;> rfl

end CombineAll

namespace Table

variable [Ord κ] [Ord κ']

/-! ### Keys in order -/

theorem nodup_of_ascending [TransOrd κ] {l : List κ}
    (h : l.Pairwise fun k k' => compare k k' = .lt) : l.Nodup := by
  refine h.imp fun {a b} hab heq => ?_
  subst heq
  simp at hab

/-- Ascending lists with the same members are equal. -/
theorem eq_of_ascending [TransOrd κ] {l l' : List κ}
    (h : l.Pairwise fun k k' => compare k k' = .lt)
    (h' : l'.Pairwise fun k k' => compare k k' = .lt) (hmem : ∀ k, k ∈ l ↔ k ∈ l') : l = l' := by
  have hperm : l.Perm l' :=
    (List.perm_ext_iff_of_nodup (nodup_of_ascending h) (nodup_of_ascending h')).mpr hmem
  refine hperm.eq_of_pairwise (fun a b _ _ hab hba => ?_) h h'
  exact absurd hba (Std.OrientedCmp.not_lt_of_lt hab)

/-- The least of ascending keys comes first. -/
theorem exists_eq_cons_of_least [TransOrd κ] {l : List κ} {k : κ}
    (h : l.Pairwise fun k k' => compare k k' = .lt) (hk : k ∈ l)
    (hleast : ∀ k' ∈ l, (compare k k').isLE) : ∃ l', l = k :: l' := by
  cases l with
  | nil => contradiction
  | cons x l =>
    rcases List.mem_cons.mp hk with rfl | hmem
    · exact ⟨l, rfl⟩
    · have hlt : compare x k = .lt := List.rel_of_pairwise_cons h hmem
      have hle := hleast x (List.mem_cons_self ..)
      rw [Std.OrientedCmp.gt_iff_lt.mpr hlt] at hle
      contradiction

theorem pairwise_keys (t : Table κ α) : t.keys.Pairwise fun k k' => compare k k' = .lt := t.sorted

theorem nodup_keys [TransOrd κ] (t : Table κ α) : t.keys.Nodup := nodup_of_ascending t.pairwise_keys

/-! ### Going through the entries

What only the entry under `k` contributes to is a lookup. -/

theorem flatMap_entries [TransOrd κ] [LawfulEqOrd κ] [DecidableEq κ] (t : Table κ α) (k : κ)
    (f : α → List β) :
    t.entries.flatMap (fun e => if k = e.1 then f e.2 else []) = (t.get? k).elim [] f := by
  have hvalues : ∀ l : List (κ × α),
      l.flatMap (fun e => if k = e.1 then f e.2 else []) = (valuesAt k l).flatMap f := by
    intro l
    induction l with
    | nil => rfl
    | cons e l ih =>
      rw [List.flatMap_cons, ih, valuesAt_cons]
      by_cases hk : k = e.1 <;> simp [hk]
  rw [hvalues, valuesAt_entries]
  cases t.get? k <;> simp

theorem findSome?_entries [TransOrd κ] [LawfulEqOrd κ] [DecidableEq κ] (t : Table κ α) (k : κ)
    (f : α → Option β) :
    t.entries.findSome? (fun e => if k = e.1 then f e.2 else none) = (t.get? k).bind f := by
  have hvalues : ∀ l : List (κ × α),
      l.findSome? (fun e => if k = e.1 then f e.2 else none) = (valuesAt k l).findSome? f := by
    intro l
    induction l with
    | nil => rfl
    | cons e l ih =>
      rw [List.findSome?_cons, ih, valuesAt_cons]
      by_cases hk : k = e.1 <;> simp [hk, List.findSome?_cons]
  rw [hvalues, valuesAt_entries]
  cases t.get? k <;> simp

/-! ### Hiding -/

/-- Keeping the last value means that the second table is looked into first. -/
theorem get?_mergeWith_last [TransOrd κ] [LawfulEqOrd κ] (s t : Table κ α) (k : κ) :
    (s.mergeWith (fun _ last => last) t).get? k = (t.get? k).or (s.get? k) := by
  rw [get?_mergeWith, merge_last]

theorem get?_of_mergeWith_last [TransOrd κ] [LawfulEqOrd κ] {s t : Table κ α} {k : κ} {a : α}
    (h : (s.mergeWith (fun _ last => last) t).get? k = some a) :
    t.get? k = some a ∨ s.get? k = some a := by
  rw [get?_mergeWith_last, Option.or_eq_some_iff] at h
  exact h.imp_right And.right

/-! ### Gathering under new keys -/

theorem filterMap_get?_of_subset [TransOrd κ] [LawfulEqOrd κ] {t : Table κ α} {l : List (κ × α)}
    (h : ∀ e ∈ l, e ∈ t.entries) : l.filterMap (fun e => t.get? e.1) = l.map Prod.snd := by
  induction l with
  | nil => rfl
  | cons e l ih =>
    rw [List.forall_mem_cons] at h
    have hget : t.get? e.1 = some e.2 := mem_entries_iff.mp h.1
    rw [List.filterMap_cons, hget, ih h.2, List.map_cons]

/-- The values that arrive under `k`, read off from the keys they come from. -/
theorem valuesAt_moved [TransOrd κ] [LawfulEqOrd κ] [TransOrd κ'] [LawfulEqOrd κ']
    [DecidableEq κ'] (g : κ → κ') (t : Table κ α) (k : κ') :
    valuesAt k (t.entries.map fun e => (g e.1, e.2)) =
      (t.keys.filter fun q => g q = k).filterMap t.get? := by
  have hkey : ∀ e : κ × α, decide (compare k (g e.1) = .eq) = decide (g e.1 = k) := fun e => by
    rw [decide_eq_decide, LawfulEqOrd.compare_eq_iff_eq, eq_comm]
  rw [keys, List.filter_map, List.filterMap_map, valuesAt, List.filter_map, List.map_map]
  simp only [Function.comp_def, hkey]
  exact (filterMap_get?_of_subset fun e he => (List.mem_filter.mp he).1).symm

theorem get?_mapKeys_eq_combineAll [TransOrd κ] [LawfulEqOrd κ] [TransOrd κ'] [LawfulEqOrd κ']
    [DecidableEq κ'] (f : α → α → α) (g : κ → κ') (t : Table κ α) (k : κ') :
    (t.mapKeys f g).get? k =
      combineAll f ((t.keys.filter fun q => g q = k).filterMap t.get?) := by
  rw [get?_mapKeys, valuesAt_moved, combineAll]

/-- Values can be replaced before or after they are moved. -/
theorem map_mapKeys [TransOrd κ] [LawfulEqOrd κ] [TransOrd κ'] [LawfulEqOrd κ'] [DecidableEq κ']
    {c : α → α → α} {d : β → β → β} {f : α → β} (hf : ∀ a b, f (c a b) = d (f a) (f b))
    (g : κ → κ') (t : Table κ α) : (t.mapKeys c g).map f = (t.map f).mapKeys d g := by
  refine ext_get? fun k => ?_
  rw [get?_map, get?_mapKeys_eq_combineAll, get?_mapKeys_eq_combineAll, map_combineAll hf,
    List.map_filterMap, keys_map]
  simp only [get?_map]

/-- **Where only one key is moved to `k`, its value is moved unchanged.** -/
theorem get?_mapKeys_of_unique [TransOrd κ] [LawfulEqOrd κ] [TransOrd κ'] [LawfulEqOrd κ']
    {f : α → α → α} {g : κ → κ'} {t : Table κ α} {q : κ} {k : κ'} (hq : g q = k)
    (hunique : ∀ q' ∈ t.keys, g q' = k → q' = q) : (t.mapKeys f g).get? k = t.get? q := by
  have hvalues : valuesAt k (t.entries.map fun e => (g e.1, e.2)) = valuesAt q t.entries := by
    rw [valuesAt, valuesAt, List.filter_map, List.map_map]
    refine congrArg (List.map Prod.snd) (List.filter_congr fun e he => ?_)
    have hmem : e.1 ∈ t.keys := List.mem_map_of_mem he
    simp only [Function.comp_apply, LawfulEqOrd.compare_eq_iff_eq, decide_eq_decide]
    exact ⟨fun h => (hunique e.1 hmem h.symm).symm, fun h => by rw [← hq, h]⟩
  rw [get?_mapKeys, hvalues, valuesAt_entries]
  cases t.get? q <;> rfl

theorem get?_mapKeys_eq_none [TransOrd κ] [LawfulEqOrd κ] [TransOrd κ'] [LawfulEqOrd κ']
    {f : α → α → α} {g : κ → κ'} {t : Table κ α} {k : κ'} (h : ∀ q ∈ t.keys, g q ≠ k) :
    (t.mapKeys f g).get? k = none := by
  have hvalues : valuesAt k (t.entries.map fun e => (g e.1, e.2)) = [] := by
    rw [valuesAt, List.filter_map, List.map_map, List.map_eq_nil_iff, List.filter_eq_nil_iff]
    intro e he
    have hmem : e.1 ∈ t.keys := List.mem_map_of_mem he
    simpa using fun heq => h e.1 hmem heq.symm
  rw [get?_mapKeys, hvalues]
  rfl

/-- A key is there if something is moved to it. -/
theorem mem_keys_mapKeys [TransOrd κ] [LawfulEqOrd κ] [TransOrd κ'] [LawfulEqOrd κ']
    [DecidableEq κ'] {f : α → α → α} {g : κ → κ'} {t : Table κ α} {k : κ'} :
    k ∈ (t.mapKeys f g).keys ↔ ∃ q ∈ t.keys, g q = k := by
  constructor
  · intro h
    by_contra hnone
    have hnot : (t.mapKeys f g).get? k = none :=
      get?_mapKeys_eq_none fun q hq hqk => hnone ⟨q, hq, hqk⟩
    simp [mem_keys_iff, hnot] at h
  · rintro ⟨q, hq, rfl⟩
    obtain ⟨a, ha⟩ := Option.isSome_iff_exists.mp (mem_keys_iff.mp hq)
    have hmem : a ∈ (t.keys.filter fun q' => g q' = g q).filterMap t.get? :=
      List.mem_filterMap.mpr ⟨q, by simp [hq], ha⟩
    rw [mem_keys_iff, get?_mapKeys_eq_combineAll, Option.isSome_iff_ne_none, ne_eq,
      combineAll_eq_none_iff]
    exact List.ne_nil_of_mem hmem

/-! ### Combined lists -/

theorem getD_mergeWith_append [TransOrd κ] [LawfulEqOrd κ] (s t : Table κ (List α)) (k : κ) :
    ((s.mergeWith (· ++ ·) t).get? k).getD [] = (s.get? k).getD [] ++ (t.get? k).getD [] := by
  rw [get?_mergeWith]
  cases s.get? k <;> cases t.get? k <;> simp [Option.merge]

theorem mem_getD_mergeWith_append [TransOrd κ] [LawfulEqOrd κ] {s t : Table κ (List α)} {k : κ}
    {a : α} : a ∈ ((s.mergeWith (· ++ ·) t).get? k).getD [] ↔
      a ∈ (s.get? k).getD [] ∨ a ∈ (t.get? k).getD [] := by
  rw [getD_mergeWith_append, List.mem_append]

/-- Under a new key there are the lists of the old keys, one after another. -/
theorem getD_mapKeys_append [TransOrd κ] [LawfulEqOrd κ] [TransOrd κ'] [LawfulEqOrd κ']
    [DecidableEq κ'] (g : κ → κ') (t : Table κ (List α)) (k : κ') :
    ((t.mapKeys (· ++ ·) g).get? k).getD [] =
      (t.keys.filter fun q => g q = k).flatMap fun q => (t.get? q).getD [] := by
  rw [get?_mapKeys_eq_combineAll, getD_combineAll_append, flatten_filterMap]

/-- Any ascending list that has all the keys is as good as the keys of the table, as there is
nothing under those it has in addition. -/
theorem flatMap_keys [TransOrd κ] [LawfulEqOrd κ] (t : Table κ (List α)) {qs : List κ}
    (hqs : qs.Pairwise fun k k' => compare k k' = .lt) (hall : ∀ q ∈ t.keys, q ∈ qs)
    (p : κ → Bool) :
    (t.keys.filter p).flatMap (fun q => (t.get? q).getD []) =
      (qs.filter p).flatMap fun q => (t.get? q).getD [] := by
  have hkeys : t.keys = qs.filter fun q => (t.get? q).isSome := by
    refine eq_of_ascending t.sorted (hqs.filter _) fun q => ?_
    rw [List.mem_filter, ← mem_keys_iff]
    exact ⟨fun hq => ⟨hall q hq, hq⟩, And.right⟩
  have hskip : ∀ l : List κ, ((l.filter fun q => (t.get? q).isSome).filter p).flatMap
      (fun q => (t.get? q).getD []) = (l.filter p).flatMap fun q => (t.get? q).getD [] := by
    intro l
    induction l with
    | nil => rfl
    | cons q l ih => cases hp : p q <;> cases hq : t.get? q <;> simpa [hp, hq] using ih
  rw [hkeys, hskip]

/-- A member of a list under a new key comes from a list under one of the old keys. -/
theorem mem_getD_mapKeys_append [TransOrd κ] [LawfulEqOrd κ] [TransOrd κ'] [LawfulEqOrd κ']
    [DecidableEq κ'] {g : κ → κ'} {t : Table κ (List α)} {k : κ'} {a : α} :
    a ∈ ((t.mapKeys (· ++ ·) g).get? k).getD [] ↔ ∃ q, g q = k ∧ a ∈ (t.get? q).getD [] := by
  rw [getD_mapKeys_append, List.mem_flatMap]
  constructor
  · rintro ⟨q, hq, ha⟩
    rw [List.mem_filter, decide_eq_true_eq] at hq
    exact ⟨q, hq.2, ha⟩
  · rintro ⟨q, hq, ha⟩
    have hkey : q ∈ t.keys := by
      rw [mem_keys_iff, Option.isSome_iff_ne_none]
      intro hget
      simp [hget] at ha
    exact ⟨q, by simp [hkey, hq], ha⟩

/-- Candidates may be replaced before they are gathered. -/
theorem getD_mapKeys_map_append [TransOrd κ] [LawfulEqOrd κ] [TransOrd κ'] [LawfulEqOrd κ']
    [DecidableEq κ'] (r : α → β) (g : κ → κ') (t : Table κ (List α)) (k : κ') :
    (((t.map (List.map r)).mapKeys (· ++ ·) g).get? k).getD [] =
      (t.keys.filter fun q => g q = k).flatMap fun q => ((t.get? q).getD []).map r := by
  have hmap : ∀ o : Option (List α), (o.map (List.map r)).getD [] = (o.getD []).map r := by
    intro o
    cases o <;> rfl
  rw [getD_mapKeys_append, keys_map]
  simp only [get?_map, hmap]

/-! ### Names that are given an owner -/

/-- What is given to `m` and is the name of `b` there had the base `b` before. -/
theorem filter_inModule (qs : List Name) (m : ModuleName) (b : Identifier) :
    (qs.filter fun q => q.inModule m = .qualified m b) = qs.filter fun q => q.base = b := by
  simp [Name.inModule, Name.qualified]

/-- Where all keys are bare each of them is moved by itself. -/
theorem get?_mapKeys_inModule_of_bare {t : Table Name α} (hbare : ∀ q ∈ t.keys, q.owner = none)
    (c : α → α → α) (m : ModuleName) (b : Identifier) :
    (t.mapKeys c (·.inModule m)).get? (.qualified m b) = t.get? (.bare b) := by
  refine get?_mapKeys_of_unique rfl fun q hq hqb => ?_
  have hbase : q.base = b := congrArg Name.base hqb
  rw [← hbase, Name.bare, ← hbare q hq]

/-! ### The table of a function -/

/-- `t` holds the list `f k` under each key `k`, and no entry where that list is empty. -/
def Lists (t : Table κ (List α)) (f : κ → List α) : Prop := ∀ k, t.get? k = stored (f k)

namespace Lists

variable {s t : Table κ (List α)} {f g : κ → List α} {o o' : κ → Option α}

theorem empty : (∅ : Table κ (List α)).Lists fun _ => [] := fun _ => rfl

/-- A function has only one table. -/
theorem unique [TransOrd κ] [LawfulEqOrd κ] (hs : s.Lists f) (ht : t.Lists f) : s = t :=
  ext_get? fun k => by rw [hs k, ht k]

theorem mem_keys_iff [TransOrd κ] [LawfulEqOrd κ] (h : t.Lists f) {k : κ} :
    k ∈ t.keys ↔ f k ≠ [] := by
  rw [Table.mem_keys_iff, h k, Option.isSome_iff_ne_none, ne_eq, stored_eq_none_iff]

theorem map (h : t.Lists f) (r : α → β) : (t.map (List.map r)).Lists fun k => (f k).map r :=
  fun k => by rw [get?_map, h k, map_stored]

theorem filterKeys [LawfulEqOrd κ] (h : t.Lists f) (p : κ → Bool) :
    (t.filterKeys p).Lists fun k => if p k then f k else [] := by
  intro k
  rw [get?_filterKeys, h k]
  by_cases hp : p k <;> simp [hp]

theorem append [TransOrd κ] [LawfulEqOrd κ] (hs : s.Lists f) (ht : t.Lists g) :
    (s.mergeWith (· ++ ·) t).Lists fun k => f k ++ g k := fun k => by
  rw [get?_mergeWith, hs k, ht k, merge_append_stored]

theorem first [TransOrd κ] [LawfulEqOrd κ] (hs : s.Lists fun k => (o k).toList)
    (ht : t.Lists fun k => (o' k).toList) :
    (s.mergeWith (fun first _ => first) t).Lists fun k => ((o k).or (o' k)).toList := fun k => by
  rw [get?_mergeWith, hs k, ht k, merge_first_stored]

theorem filterMap_get?_cons (h : t.Lists f) (q : κ) (l : List κ) :
    (q :: l).filterMap t.get? = (stored (f q)).toList ++ l.filterMap t.get? := by
  rw [List.filterMap_cons, h q]
  cases stored (f q) <;> rfl

theorem getD_eq (h : t.Lists f) (k : κ) : (t.get? k).getD [] = f k := by
  rw [h k, getD_stored]

theorem flatMap_keys [TransOrd κ] [LawfulEqOrd κ] (h : t.Lists f) {qs : List κ}
    (hqs : qs.Pairwise fun k k' => compare k k' = .lt) (hall : ∀ q, f q ≠ [] → q ∈ qs)
    (p : κ → Bool) : (t.keys.filter p).flatMap f = (qs.filter p).flatMap f := by
  have hkeys := t.flatMap_keys hqs (fun q hq => hall q (h.mem_keys_iff.mp hq)) p
  simpa only [h.getD_eq] using hkeys

theorem combineAll_append (h : t.Lists f) (l : List κ) :
    combineAll (· ++ ·) (l.filterMap t.get?) = stored (l.flatMap f) := by
  induction l with
  | nil => rfl
  | cons q l ih =>
    rw [h.filterMap_get?_cons, Scoping.combineAll_append List.append_assoc, combineAll_toList, ih,
      merge_append_stored, List.flatMap_cons]

theorem combineAll_first (h : t.Lists fun k => (o k).toList) (l : List κ) :
    combineAll (fun first _ => first) (l.filterMap t.get?) =
      stored (l.findSome? o).toList := by
  induction l with
  | nil => rfl
  | cons q l ih =>
    have hcons : (q :: l).findSome? o = (o q).or (l.findSome? o) := by
      rw [List.findSome?_cons]
      cases o q <;> rfl
    rw [h.filterMap_get?_cons, Scoping.combineAll_append fun _ _ _ => rfl, combineAll_toList, ih,
      merge_first_stored, hcons]

variable [TransOrd κ] [LawfulEqOrd κ] [TransOrd κ'] [LawfulEqOrd κ'] [DecidableEq κ']

/-- **Gathering appends the lists in the order of the old keys.** -/
theorem mapKeys_append (h : t.Lists f) {qs : List κ}
    (hqs : qs.Pairwise fun k k' => compare k k' = .lt) (hall : ∀ q, f q ≠ [] → q ∈ qs)
    (r : κ → κ') :
    (t.mapKeys (· ++ ·) r).Lists fun k => (qs.filter fun q => r q = k).flatMap f := by
  intro k
  show (t.mapKeys (· ++ ·) r).get? k = stored ((qs.filter fun q => r q = k).flatMap f)
  rw [get?_mapKeys_eq_combineAll, ← h.flatMap_keys hqs hall, h.combineAll_append]

/-- **Gathering keeps what the first of the old keys has.** -/
theorem mapKeys_first (h : t.Lists fun k => (o k).toList) {qs : List κ}
    (hqs : qs.Pairwise fun k k' => compare k k' = .lt) (hall : ∀ q, o q ≠ none → q ∈ qs)
    (r : κ → κ') :
    (t.mapKeys (fun first _ => first) r).Lists fun k =>
      ((qs.filter fun q => r q = k).findSome? o).toList := by
  intro k
  have hhead : ∀ l : List κ, l.findSome? o = (l.flatMap fun q => (o q).toList).head? := by
    intro l
    induction l with
    | nil => rfl
    | cons q l ih =>
      rw [List.findSome?_cons, List.flatMap_cons, ih]
      cases o q <;> rfl
  have hall' : ∀ q, (o q).toList ≠ [] → q ∈ qs := fun q hq => hall q (by simpa using hq)
  show (t.mapKeys (fun first _ => first) r).get? k =
    stored ((qs.filter fun q => r q = k).findSome? o).toList
  rw [get?_mapKeys_eq_combineAll, hhead, ← h.flatMap_keys hqs hall', ← hhead,
    h.combineAll_first]

end Lists

end Table

end Scoping
