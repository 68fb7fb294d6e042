import Scoping.Proofs.Records

/-!
# The three tables of an environment

An environment has a table for each aspect of a name: which term it stands for, which type, and how
it groups as an operator. The rules of scoping go through the three tables alike. All that is
different is what becomes of two lists that meet under one key in one scope: candidates follow one
another, and of two fixities the first is kept.

So a rule is described once, for the table of an arbitrary aspect, and is then known for all three.
Nothing here depends on what the tables hold. They may have empty lists under a key, or several
fixities of one operator.

## Main definitions

* `Scoping.Aspect`, `Env.table` — the tables by name
* `Aspect.combine` — what becomes of lists that meet under one key

## Main results

* `Env.ext_table` — environments with the same tables are equal
* `Env.get?_table_mergeAll`, `Env.get?_table_shadow`, `Env.get?_table_mapKeys` — looking up what
  has been put together or moved
* `Env.get?_fixities_mergeAll`, `Env.get?_fixities_mapKeys` — the first fixity counts
-/

namespace Scoping

/-- What can be said of a name. -/
inductive Aspect where
  | term
  | type
  | fixity
deriving DecidableEq

namespace Aspect

/-- What is listed under a name. -/
def Value : Aspect → Type
  | .term => TermRecord
  | .type => TypeRecord
  | .fixity => Fixity

/-- What becomes of two lists that meet under one key. -/
def combine : (s : Aspect) → List s.Value → List s.Value → List s.Value
  | .term => (· ++ ·)
  | .type => (· ++ ·)
  | .fixity => fun first _ => first

theorem combine_assoc (s : Aspect) (l m n : List s.Value) :
    s.combine (s.combine l m) n = s.combine l (s.combine m n) := by
  cases s with
  | term => exact List.append_assoc l m n
  | type => exact List.append_assoc l m n
  | fixity => rfl

end Aspect

namespace Env

/-- The table that says of each name what there is to say in one aspect. -/
def table (e : Env) : (s : Aspect) → Table Name (List s.Value)
  | .term => e.terms
  | .type => e.types
  | .fixity => e.fixities

/-- **Environments with the same tables are equal.** -/
theorem ext_table {a b : Env} (h : ∀ s, a.table s = b.table s) : a = b := by
  obtain ⟨terms, types, fixities⟩ := a
  obtain ⟨terms', types', fixities'⟩ := b
  rw [Env.mk.injEq]
  exact ⟨h .term, h .type, h .fixity⟩

/-! ### What is done to each table -/

theorem table_empty (s : Aspect) : (∅ : Env).table s = ∅ := by
  cases s <;> rfl

theorem table_merge (s : Aspect) (a b : Env) :
    (a.merge b).table s = (a.table s).mergeWith s.combine (b.table s) := by
  cases s <;> rfl

theorem table_shadow (s : Aspect) (outer inner : Env) :
    (outer.shadow inner).table s =
      (outer.table s).mergeWith (fun _ last => last) (inner.table s) := by
  cases s <;> rfl

theorem table_mapKeys (s : Aspect) (f : Name → Name) (e : Env) :
    (e.mapKeys f).table s = (e.table s).mapKeys s.combine f := by
  cases s <;> rfl

theorem table_filterKeys (s : Aspect) (p : Name → Bool) (e : Env) :
    (e.filterKeys p).table s = (e.table s).filterKeys p := by
  cases s <;> rfl

/-! ### Looking up -/

theorem get?_table_shadow (s : Aspect) (outer inner : Env) (k : Name) :
    ((outer.shadow inner).table s).get? k =
      ((inner.table s).get? k).or ((outer.table s).get? k) := by
  rw [table_shadow, Table.get?_mergeWith_last]

theorem get?_table_mapKeys (s : Aspect) (f : Name → Name) (e : Env) (k : Name) :
    ((e.mapKeys f).table s).get? k =
      combineAll s.combine
        (((e.table s).keys.filter fun q => f q = k).filterMap (e.table s).get?) := by
  rw [table_mapKeys, Table.get?_mapKeys_eq_combineAll]

/-- **What the environments of a list have under a key is combined in their order.** -/
theorem get?_table_mergeAll (s : Aspect) (l : List Env) (k : Name) :
    ((mergeAll l).table s).get? k =
      combineAll s.combine (l.filterMap fun e => (e.table s).get? k) := by
  induction l with
  | nil =>
    rw [mergeAll_nil, table_empty]
    rfl
  | cons e l ih =>
    rw [mergeAll_cons, table_merge, Table.get?_mergeWith, ih, filterMap_cons_toList,
      combineAll_append s.combine_assoc, combineAll_toList]

theorem mem_keys_table_mergeAll {s : Aspect} {l : List Env} {k : Name} :
    k ∈ ((mergeAll l).table s).keys ↔ ∃ e ∈ l, k ∈ (e.table s).keys := by
  simp only [Table.mem_keys_iff, Option.isSome_iff_ne_none, get?_table_mergeAll, ne_eq,
    combineAll_eq_none_iff, List.filterMap_eq_nil_iff, not_forall, exists_prop]

theorem mem_keys_table_mapKeys {s : Aspect} {f : Name → Name} {e : Env} {k : Name} :
    k ∈ ((e.mapKeys f).table s).keys ↔ ∃ q ∈ (e.table s).keys, f q = k := by
  rw [table_mapKeys, Table.mem_keys_mapKeys]

/-! ### Fixities -/

theorem get?_fixities_mergeAll (l : List Env) (k : Name) :
    (mergeAll l).fixities.get? k = l.findSome? fun e => e.fixities.get? k := by
  show ((mergeAll l).table .fixity).get? k = _
  rw [get?_table_mergeAll]
  exact (combineAll_first _).trans List.head?_filterMap

theorem get?_fixities_mapKeys (f : Name → Name) (e : Env) (k : Name) :
    (e.mapKeys f).fixities.get? k =
      (e.fixities.keys.filter fun q => f q = k).findSome? e.fixities.get? := by
  show ((e.mapKeys f).table .fixity).get? k = _
  rw [get?_table_mapKeys]
  exact (combineAll_first _).trans List.head?_filterMap

end Env

end Scoping
