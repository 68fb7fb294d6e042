import Scoping.Except

/-!
# Sorted tables

A table is a finite map kept as a list of entries in strictly ascending key order. Each map then
has exactly one table, so tables that answer every lookup alike are *equal*, and going through the
entries of a table goes through its keys in order. That order is observable: it decides in which
order candidates gathered from several keys are listed.

Every operation that combines values takes the combination as an argument, earlier value first.
Appending, keeping the earlier value and keeping the later one are the three policies in use.

## Main definitions

* `Scoping.Table` — a finite map with ordered keys
* `Table.get?`, `Table.keys` — reading
* `Table.update`, `Table.insert` — writing under one key
* `Table.insertAll`, `Table.mergeWith`, `Table.mapKeys` — combining
* `Table.filterKeys`, `Table.map`, `Table.tryMap` — working on every entry

What each operation does to lookups is in `Scoping.Table.Lemmas`.
-/

namespace Scoping

open Std (TransOrd LawfulEqOrd)

/-- A finite map from `κ` to `α`, as its entries in strictly ascending key order. -/
@[ext] structure Table (κ : Type) [Ord κ] (α : Type) where
  entries : List (κ × α)
  sorted : (entries.map Prod.fst).Pairwise fun k k' => compare k k' = .lt

namespace Table

variable {κ κ' α β ε : Type} [Ord κ] [Ord κ']

instance [DecidableEq κ] [DecidableEq α] : DecidableEq (Table κ α) := fun s t =>
  decidable_of_iff (s.entries = t.entries) Table.ext_iff.symm

/-- The table without entries. -/
def empty : Table κ α := ⟨[], .nil⟩

instance : EmptyCollection (Table κ α) := ⟨empty⟩

instance : Inhabited (Table κ α) := ⟨empty⟩

/-- Whether the table has no entries. -/
def isEmpty (t : Table κ α) : Bool := t.entries.isEmpty

/-- The keys, in ascending order. -/
def keys (t : Table κ α) : List κ := t.entries.map Prod.fst

/-! ### Looking up a key -/

/-- The value of the first pair whose key is `k`. -/
def find (k : κ) : List (κ × α) → Option α
  | [] => none
  | (k', a) :: l => if compare k k' = .eq then some a else find k l

/-- The value under `k`, if there is one. -/
def get? (t : Table κ α) (k : κ) : Option α := find k t.entries

/-! ### Writing under a key -/

/-- Puts `f` of the value under `k` back under `k`, in the place the order asks for. -/
def updateSorted (k : κ) (f : Option α → α) : List (κ × α) → List (κ × α)
  | [] => [(k, f none)]
  | (k', a) :: l =>
    match compare k k' with
    | .lt => (k, f none) :: (k', a) :: l
    | .eq => (k', f (some a)) :: l
    | .gt => (k', a) :: updateSorted k f l

/-- A write brings in at most the key that is written. -/
theorem eq_or_mem_of_mem_updateSorted {k x : κ} {f : Option α → α} {l : List (κ × α)}
    (h : x ∈ (updateSorted k f l).map Prod.fst) : x = k ∨ x ∈ l.map Prod.fst := by
  fun_induction updateSorted k f l with
  | case1 => simpa using h
  | case2 k' a l hk => simpa using h
  | case3 k' a l hk => simp_all
  | case4 k' a l hk ih =>
    rcases List.mem_cons.mp h with rfl | h
    · simp
    · rcases ih h with h | h
      · exact .inl h
      · exact .inr (List.mem_cons_of_mem _ h)

theorem pairwise_updateSorted [TransOrd κ] (k : κ) (f : Option α → α) {l : List (κ × α)}
    (hl : (l.map Prod.fst).Pairwise fun k k' => compare k k' = .lt) :
    ((updateSorted k f l).map Prod.fst).Pairwise fun k k' => compare k k' = .lt := by
  fun_induction updateSorted k f l with
  | case1 => simp
  | case2 k' a l hk =>
    refine List.Pairwise.cons (fun x hx => ?_) hl
    rcases List.mem_cons.mp hx with rfl | hx
    · exact hk
    · exact Std.TransCmp.lt_trans hk (List.rel_of_pairwise_cons hl hx)
  | case3 k' a l hk => simpa using hl
  | case4 k' a l hk ih =>
    have hl' := List.pairwise_cons.mp hl
    refine List.Pairwise.cons (fun x hx => ?_) (ih hl'.2)
    rcases eq_or_mem_of_mem_updateSorted hx with rfl | hx
    · exact Std.OrientedCmp.gt_iff_lt.mp hk
    · exact hl'.1 x hx

/-- Puts `f` of the value under `k` back under `k`; `f` is given `none` if there is no value. -/
def update [TransOrd κ] (t : Table κ α) (k : κ) (f : Option α → α) : Table κ α where
  entries := updateSorted k f t.entries
  sorted := pairwise_updateSorted k f t.sorted

/-- Puts `a` under `k`, replacing what was there. -/
def insert [TransOrd κ] (t : Table κ α) (k : κ) (a : α) : Table κ α := t.update k fun _ => a

/-! ### Combining tables -/

/-- Adds the pairs of `l` one after another. Where a pair meets an earlier value under its key, the
earlier value and its own are combined by `f`. -/
def insertAll [TransOrd κ] (f : α → α → α) (t : Table κ α) (l : List (κ × α)) : Table κ α :=
  l.foldl (fun t e => t.update e.1 fun old => old.elim e.2 (f · e.2)) t

/-- The entries of both tables. Under a common key the values are combined by `f`, those of `s`
first. -/
def mergeWith [TransOrd κ] (f : α → α → α) (s t : Table κ α) : Table κ α := s.insertAll f t.entries

/-- Moves the entry under each key `k` to `g k`. Entries that arrive under one key are combined by
`f` in the order of the keys they come from. -/
def mapKeys [TransOrd κ'] (f : α → α → α) (g : κ → κ') (t : Table κ α) : Table κ' α :=
  empty.insertAll f (t.entries.map fun e => (g e.1, e.2))

/-! ### Working on every entry -/

/-- Keeps the entries whose key satisfies `p`. -/
def filterKeys (p : κ → Bool) (t : Table κ α) : Table κ α where
  entries := t.entries.filter (p ·.1)
  sorted := t.sorted.sublist (List.filter_sublist.map Prod.fst)

/-- Replaces every value by its image under `f`. -/
def map (f : α → β) (t : Table κ α) : Table κ β where
  entries := t.entries.map fun e => (e.1, f e.2)
  sorted := by simpa [Function.comp_def] using t.sorted

/-- The pairs of a list with every value replaced by its image under `f`, or the first failure. -/
def tryMapValues (f : α → Except ε β) : List (κ × α) → Except ε (List (κ × β))
  | [] => .ok []
  | (k, a) :: l => do
    let b ← f a
    let l' ← tryMapValues f l
    return (k, b) :: l'

omit [Ord κ] in
theorem tryMapValues_cons_eq_ok {f : α → Except ε β} {k : κ} {a : α} {l : List (κ × α)}
    {l' : List (κ × β)} (h : tryMapValues f ((k, a) :: l) = .ok l') :
    ∃ b bs, f a = .ok b ∧ tryMapValues f l = .ok bs ∧ l' = (k, b) :: bs := by
  obtain ⟨b, hb, h⟩ := exists_of_bind_eq_ok h
  obtain ⟨bs, hbs, h⟩ := exists_of_bind_eq_ok h
  exact ⟨b, bs, hb, hbs, (Except.ok.inj h).symm⟩

omit [Ord κ] in
theorem keys_of_tryMapValues {f : α → Except ε β} {l : List (κ × α)} {l' : List (κ × β)}
    (h : tryMapValues f l = .ok l') : l'.map Prod.fst = l.map Prod.fst := by
  induction l generalizing l' with
  | nil =>
    cases h
    rfl
  | cons e l ih =>
    obtain ⟨b, bs, -, hbs, rfl⟩ := tryMapValues_cons_eq_ok h
    rw [List.map_cons, List.map_cons, ih hbs]

/-- Replaces every value by its image under `f`, going through the keys in order; the first failure
stands for the whole. -/
def tryMap (f : α → Except ε β) (t : Table κ α) : Except ε (Table κ β) :=
  match h : tryMapValues f t.entries with
  | .ok l => .ok ⟨l, by rw [keys_of_tryMapValues h]; exact t.sorted⟩
  | .error e => .error e

end Table

end Scoping
