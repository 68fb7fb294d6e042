import Scoping.Table.Basic

/-!
# Lookups in tables

A table is determined by what it answers to lookups, so each operation is described by what it
does to them. An operation that combines values is described by `Option.merge`: the combination
where both sides have a value, and the one that is there where only one side has one.

## Main results

* `Table.ext_get?` — tables with the same lookups are equal
* `Table.get?_update_self`, `Table.get?_update_of_ne` — read after write
* `Table.get?_mergeWith`, `Table.get?_insertAll`, `Table.get?_mapKeys` — combining
* `Table.mergeWith_assoc` — merging is associative if the combination is
* `Table.get?_filterKeys`, `Table.get?_map`, `Table.tryMap_eq_ok` — working on every entry
* `Table.map_mergeWith`, `Table.map_filterKeys` — working on every entry before or after
-/

namespace Scoping

open Std (TransOrd LawfulEqOrd)

namespace Table

variable {κ κ' α β γ ε : Type} [Ord κ] [Ord κ']

/-! ### Lists of pairs -/

/-- All values that a list of pairs has under `k`, in order. -/
def valuesAt (k : κ) (l : List (κ × α)) : List α :=
  (l.filter fun e => compare k e.1 = .eq).map Prod.snd

theorem valuesAt_cons (k : κ) (e : κ × α) (l : List (κ × α)) :
    valuesAt k (e :: l) = if compare k e.1 = .eq then e.2 :: valuesAt k l else valuesAt k l := by
  by_cases h : compare k e.1 = .eq <;> simp [valuesAt, h]

theorem find_eq_head?_valuesAt (k : κ) (l : List (κ × α)) : find k l = (valuesAt k l).head? := by
  induction l with
  | nil => rfl
  | cons e l ih =>
    rw [find, valuesAt_cons]
    split
    · rfl
    · exact ih

/-- A key that comes before all others is not among them. -/
theorem valuesAt_eq_nil_of_lt {k : κ} {l : List (κ × α)}
    (h : ∀ x ∈ l.map Prod.fst, compare k x = .lt) : valuesAt k l = [] := by
  induction l with
  | nil => rfl
  | cons e l ih =>
    rw [List.map_cons, List.forall_mem_cons] at h
    rw [valuesAt_cons, h.1, ih h.2]
    rfl

/-- Strictly ascending keys do not repeat. -/
theorem valuesAt_entries [TransOrd κ] (k : κ) (t : Table κ α) :
    valuesAt k t.entries = (t.get? k).toList := by
  obtain ⟨l, hl⟩ := t
  rw [get?]
  induction l with
  | nil => rfl
  | cons e l ih =>
    rw [List.map_cons, List.pairwise_cons] at hl
    rw [find, valuesAt_cons]
    by_cases h : compare k e.1 = .eq
    · have hlt : ∀ x ∈ l.map Prod.fst, compare k x = .lt := by
        intro x hx
        rw [Std.TransCmp.congr_left h]
        exact hl.1 x hx
      simp [h, valuesAt_eq_nil_of_lt hlt]
    · rw [if_neg h, if_neg h]
      exact ih hl.2

/-! ### Reading -/

@[simp] theorem get?_empty (k : κ) : (∅ : Table κ α).get? k = none := rfl

theorem isEmpty_iff {t : Table κ α} : t.isEmpty = true ↔ t = ∅ := by
  rw [isEmpty, List.isEmpty_iff, Table.ext_iff]
  rfl

theorem mem_entries_iff [TransOrd κ] [LawfulEqOrd κ] {t : Table κ α} {k : κ} {a : α} :
    (k, a) ∈ t.entries ↔ t.get? k = some a := by
  rw [← Option.mem_toList, ← valuesAt_entries, valuesAt, List.mem_map]
  constructor
  · intro h
    exact ⟨(k, a), by simpa using h, rfl⟩
  · intro h
    obtain ⟨⟨k', a'⟩, hmem, rfl⟩ := h
    rw [List.mem_filter, decide_eq_true_eq, LawfulEqOrd.compare_eq_iff_eq] at hmem
    obtain ⟨hmem, rfl⟩ := hmem
    exact hmem

theorem mem_keys_iff [TransOrd κ] [LawfulEqOrd κ] {t : Table κ α} {k : κ} :
    k ∈ t.keys ↔ (t.get? k).isSome := by
  rw [keys, List.mem_map, Option.isSome_iff_exists]
  constructor
  · intro h
    obtain ⟨⟨k, a⟩, hmem, rfl⟩ := h
    exact ⟨a, mem_entries_iff.mp hmem⟩
  · intro h
    obtain ⟨a, ha⟩ := h
    exact ⟨(k, a), mem_entries_iff.mpr ha, rfl⟩

/-- **Tables with the same lookups are equal.** -/
theorem ext_get? [TransOrd κ] [LawfulEqOrd κ] {s t : Table κ α} (h : ∀ k, s.get? k = t.get? k) :
    s = t := by
  have hmem : ∀ e, e ∈ s.entries ↔ e ∈ t.entries := by
    intro e
    rw [mem_entries_iff, mem_entries_iff, h]
  have hnodup : ∀ u : Table κ α, u.entries.Nodup := by
    intro u
    refine (List.pairwise_map.mp u.sorted).imp fun {a b} hab heq => ?_
    subst heq
    simp at hab
  have hperm : s.entries.Perm t.entries :=
    (List.perm_ext_iff_of_nodup (hnodup s) (hnodup t)).mpr hmem
  refine Table.ext (hperm.eq_of_pairwise (fun a b _ _ hab hba => ?_)
    (List.pairwise_map.mp s.sorted) (List.pairwise_map.mp t.sorted))
  exact absurd hba (Std.OrientedCmp.not_lt_of_lt hab)

/-! ### Writing -/

theorem find_updateSorted_self [TransOrd κ] (k : κ) (f : Option α → α) {l : List (κ × α)}
    (hl : (l.map Prod.fst).Pairwise fun k k' => compare k k' = .lt) :
    find k (updateSorted k f l) = some (f (find k l)) := by
  fun_induction updateSorted k f l with
  | case1 => simp [find]
  | case2 k' a l hk =>
    have hnone : find k ((k', a) :: l) = none := by
      have hlt : ∀ x ∈ ((k', a) :: l).map Prod.fst, compare k x = .lt := by
        intro x hx
        rw [List.map_cons, List.mem_cons] at hx
        rcases hx with rfl | hx
        · exact hk
        · exact Std.TransCmp.lt_trans hk (List.rel_of_pairwise_cons hl hx)
      rw [find_eq_head?_valuesAt, valuesAt_eq_nil_of_lt hlt]
      rfl
    rw [hnone, find, if_pos Std.ReflCmp.compare_self]
  | case3 k' a l hk => rw [find, find, if_pos hk, if_pos hk]
  | case4 k' a l hk ih =>
    rw [find, find, if_neg (by simp [hk]), if_neg (by simp [hk])]
    exact ih (List.pairwise_cons.mp hl).2

theorem find_updateSorted_of_ne [LawfulEqOrd κ] {k k' : κ} (hk' : k' ≠ k) (f : Option α → α)
    (l : List (κ × α)) : find k' (updateSorted k f l) = find k' l := by
  have hne : ¬compare k' k = .eq := fun h => hk' (LawfulEqOrd.eq_of_compare h)
  fun_induction updateSorted k f l with
  | case1 => simp [find, hne]
  | case2 x a l hk => rw [find, if_neg hne]
  | case3 x a l hk =>
    obtain rfl := LawfulEqOrd.eq_of_compare hk
    rw [find, find, if_neg hne, if_neg hne]
  | case4 x a l hk ih => rw [find, find, ih]

@[simp] theorem get?_update_self [TransOrd κ] (t : Table κ α) (k : κ) (f : Option α → α) :
    (t.update k f).get? k = some (f (t.get? k)) := find_updateSorted_self k f t.sorted

theorem get?_update_of_ne [TransOrd κ] [LawfulEqOrd κ] (t : Table κ α) {k k' : κ} (h : k' ≠ k)
    (f : Option α → α) : (t.update k f).get? k' = t.get? k' := find_updateSorted_of_ne h f t.entries

@[simp] theorem get?_insert_self [TransOrd κ] (t : Table κ α) (k : κ) (a : α) :
    (t.insert k a).get? k = some a := get?_update_self t k _

theorem get?_insert_of_ne [TransOrd κ] [LawfulEqOrd κ] (t : Table κ α) {k k' : κ} (h : k' ≠ k)
    (a : α) : (t.insert k a).get? k' = t.get? k' := get?_update_of_ne t h _

/-! ### Combining -/

/-- What was under a key is combined with the added values one after another. -/
theorem get?_insertAll [TransOrd κ] [LawfulEqOrd κ] (f : α → α → α) (t : Table κ α)
    (l : List (κ × α)) (k : κ) :
    (t.insertAll f l).get? k =
      (valuesAt k l).foldl (fun old a => old.merge f (some a)) (t.get? k) := by
  induction l generalizing t with
  | nil => rfl
  | cons e l ih =>
    rw [insertAll, List.foldl_cons, ← insertAll, ih, valuesAt_cons]
    by_cases hk : compare k e.1 = .eq
    · obtain rfl := LawfulEqOrd.eq_of_compare hk
      rw [if_pos hk, List.foldl_cons, get?_update_self]
      cases t.get? e.1 <;> rfl
    · have hne : k ≠ e.1 := fun h => hk (h ▸ Std.ReflCmp.compare_self)
      rw [if_neg hk, get?_update_of_ne t hne]

/-- **A merge combines lookups.** -/
theorem get?_mergeWith [TransOrd κ] [LawfulEqOrd κ] (f : α → α → α) (s t : Table κ α) (k : κ) :
    (s.mergeWith f t).get? k = (s.get? k).merge f (t.get? k) := by
  rw [mergeWith, get?_insertAll, valuesAt_entries]
  cases t.get? k with
  | none => cases s.get? k <;> rfl
  | some a => rfl

theorem mem_keys_mergeWith [TransOrd κ] [LawfulEqOrd κ] {f : α → α → α} {s t : Table κ α} {k : κ} :
    k ∈ (s.mergeWith f t).keys ↔ k ∈ s.keys ∨ k ∈ t.keys := by
  rw [mem_keys_iff, mem_keys_iff, mem_keys_iff, get?_mergeWith]
  cases s.get? k <;> cases t.get? k <;> simp [Option.merge]

theorem mergeWith_assoc [TransOrd κ] [LawfulEqOrd κ] {f : α → α → α}
    (hf : ∀ a b c, f (f a b) c = f a (f b c)) (s t u : Table κ α) :
    (s.mergeWith f t).mergeWith f u = s.mergeWith f (t.mergeWith f u) := by
  refine ext_get? fun k => ?_
  simp only [get?_mergeWith]
  cases s.get? k <;> cases t.get? k <;> cases u.get? k <;> simp [Option.merge, hf]

@[simp] theorem mergeWith_empty [TransOrd κ] (f : α → α → α) (t : Table κ α) :
    t.mergeWith f ∅ = t := rfl

@[simp] theorem empty_mergeWith [TransOrd κ] [LawfulEqOrd κ] (f : α → α → α) (t : Table κ α) :
    mergeWith f ∅ t = t := by
  refine ext_get? fun k => ?_
  rw [get?_mergeWith, get?_empty]
  cases t.get? k <;> rfl

/-- The values that arrive under a key are combined in the order of the keys they come from. -/
theorem get?_mapKeys [TransOrd κ'] [LawfulEqOrd κ'] (f : α → α → α) (g : κ → κ') (t : Table κ α)
    (k : κ') :
    (t.mapKeys f g).get? k =
      (valuesAt k (t.entries.map fun e => (g e.1, e.2))).foldl
        (fun old a => old.merge f (some a)) none := get?_insertAll f empty _ k

/-! ### Working on every entry -/

theorem find_filter [LawfulEqOrd κ] (p : κ → Bool) (k : κ) (l : List (κ × α)) :
    find k (l.filter (p ·.1)) = if p k then find k l else none := by
  induction l with
  | nil => simp [find]
  | cons e l ih =>
    by_cases hk : compare k e.1 = .eq
    · obtain rfl := LawfulEqOrd.eq_of_compare hk
      by_cases hp : p e.1
      · simp [find, hp]
      · simpa [find, hp] using ih
    · by_cases hp : p e.1
      · simpa [find, hk, hp] using ih
      · simpa [find, hk, hp] using ih

@[simp] theorem get?_filterKeys [LawfulEqOrd κ] (p : κ → Bool) (t : Table κ α) (k : κ) :
    (t.filterKeys p).get? k = if p k then t.get? k else none := find_filter p k t.entries

theorem keys_filterKeys (p : κ → Bool) (t : Table κ α) :
    (t.filterKeys p).keys = t.keys.filter p := by
  rw [keys, keys, List.filter_map]
  rfl

theorem find_map (f : α → β) (k : κ) (l : List (κ × α)) :
    find k (l.map fun e => (e.1, f e.2)) = (find k l).map f := by
  induction l with
  | nil => rfl
  | cons e l ih =>
    rw [List.map_cons, find, find]
    split
    · rfl
    · exact ih

@[simp] theorem get?_map (f : α → β) (t : Table κ α) (k : κ) :
    (t.map f).get? k = (t.get? k).map f := find_map f k t.entries

@[simp] theorem keys_map (f : α → β) (t : Table κ α) : (t.map f).keys = t.keys := by
  simp [keys, map, Function.comp_def]

theorem map_id (t : Table κ α) : t.map id = t := Table.ext (List.map_id' t.entries)

theorem map_map (g : β → γ) (f : α → β) (t : Table κ α) : (t.map f).map g = t.map (g ∘ f) :=
  Table.ext (by simp [map])

/-- Values can be replaced before or after a merge if that goes with the combination. -/
theorem map_mergeWith [TransOrd κ] [LawfulEqOrd κ] {c : α → α → α} {d : β → β → β} {f : α → β}
    (hf : ∀ a b, f (c a b) = d (f a) (f b)) (s t : Table κ α) :
    (s.mergeWith c t).map f = (s.map f).mergeWith d (t.map f) := by
  refine ext_get? fun k => ?_
  rw [get?_map, get?_mergeWith, get?_mergeWith, get?_map, get?_map]
  cases s.get? k <;> cases t.get? k <;> simp [Option.merge, hf]

theorem map_filterKeys [TransOrd κ] [LawfulEqOrd κ] (f : α → β) (p : κ → Bool) (t : Table κ α) :
    (t.filterKeys p).map f = (t.map f).filterKeys p := by
  refine ext_get? fun k => ?_
  rw [get?_map, get?_filterKeys, get?_filterKeys, get?_map]
  split <;> rfl

omit [Ord κ] in
/-- If every value has an image, the images are the result. -/
theorem tryMapValues_eq_ok {f : α → Except ε β} {g : α → β} {l : List (κ × α)}
    (h : ∀ e ∈ l, f e.2 = .ok (g e.2)) :
    tryMapValues f l = .ok (l.map fun e => (e.1, g e.2)) := by
  induction l with
  | nil => rfl
  | cons e l ih =>
    rw [List.forall_mem_cons] at h
    rw [tryMapValues, h.1, ih h.2]
    rfl

/-- If every value has an image, the table of images is the result. -/
theorem tryMap_eq_ok {f : α → Except ε β} {g : α → β} {t : Table κ α}
    (h : ∀ e ∈ t.entries, f e.2 = .ok (g e.2)) : t.tryMap f = .ok (t.map g) := by
  have hl := tryMapValues_eq_ok h
  rw [tryMap]
  split
  · next l hl' =>
    rw [hl, Except.ok.injEq] at hl'
    subst hl'
    rfl
  · next e he =>
    rw [hl] at he
    contradiction

theorem map_entries_tryMap (f : α → Except ε β) (t : Table κ α) :
    (t.tryMap f).map entries = tryMapValues f t.entries := by
  rw [tryMap]
  split
  · next l h => exact h.symm
  · next e h => exact h.symm

theorem find_of_tryMapValues {f : α → Except ε β} {l : List (κ × α)} {l' : List (κ × β)}
    (h : tryMapValues f l = .ok l') {k : κ} {b : β} (hb : find k l' = some b) :
    ∃ a, find k l = some a ∧ f a = .ok b := by
  induction l generalizing l' with
  | nil =>
    obtain rfl := Except.ok.inj h
    contradiction
  | cons e l ih =>
    obtain ⟨b', bs, hb', hbs, rfl⟩ := tryMapValues_cons_eq_ok h
    rw [find] at hb ⊢
    split at hb
    · next hk =>
      obtain rfl := Option.some.inj hb
      exact ⟨e.2, if_pos hk, hb'⟩
    · next hk =>
      rw [if_neg hk]
      exact ih hbs hb

/-- Every value of the result is the image of the value under the same key. -/
theorem get?_of_tryMap {f : α → Except ε β} {t : Table κ α} {t' : Table κ β}
    (h : t.tryMap f = .ok t') {k : κ} {b : β} (hb : t'.get? k = some b) :
    ∃ a, t.get? k = some a ∧ f a = .ok b := by
  rw [tryMap] at h
  split at h
  · next l hl =>
    obtain rfl := Except.ok.inj h
    exact find_of_tryMapValues hl hb
  · contradiction

end Table

end Scoping
