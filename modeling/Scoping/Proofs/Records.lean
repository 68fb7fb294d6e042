import Scoping.Env.Lemmas
import Scoping.Proofs.Candidates

/-!
# Terms and types alike

A record is of a term or of a type. The two have different sources and are kept in tables of their
own, and that is all the difference there is: no rule of scoping treats a candidate for a term in
another way than a candidate for a type. So what becomes of candidates is said once, of a record of
either, and is then known of both. Fixities are not records, and rules of their own combine them.

## Main definitions

* `Scoping.Referent`, `Referent.Source`, `Referent.imported` — what a record is of
* `Env.records`, `Env.recordsAt` — the table of all records of terms, or of types

## Main results

* `Env.get?_records_shadow`, `Env.recordsAt_mergeAll`, `Env.recordsAt_mapKeys` — looking up what has
  been nested, put together or moved
-/

namespace Scoping

/-- What a record is of. -/
inductive Referent where
  | term
  | type
deriving DecidableEq

namespace Referent

/-- How a name can get into scope. -/
@[reducible] def Source : Referent → Type
  | .term => TermSource
  | .type => TypeSource

/-- The source of what was imported. -/
def imported : (s : Referent) → s.Source
  | .term => TermSource.imported
  | .type => TypeSource.imported

end Referent

/-- The entry that puts a record into scope. -/
def Entry.record : (s : Referent) → Name → Record s.Source → Entry
  | .term => .term
  | .type => .type

namespace Env

/-- The table of the candidates for a term or for a type. -/
def records (e : Env) : (s : Referent) → Table Name (List (Record s.Source))
  | .term => e.terms
  | .type => e.types

/-- The candidates for the term or the type `n`. -/
def recordsAt (e : Env) (s : Referent) (n : Name) : List (Record s.Source) :=
  ((e.records s).get? n).getD []

variable (s : Referent)

theorem records_merge (a b : Env) :
    (a.merge b).records s = (a.records s).mergeWith (· ++ ·) (b.records s) := by
  cases s <;> rfl

theorem records_mapKeys (f : Name → Name) (e : Env) :
    (e.mapKeys f).records s = (e.records s).mapKeys (· ++ ·) f := by
  cases s <;> rfl

theorem records_mapTargets (f : Name → Name) (e : Env) :
    (e.mapTargets f).records s = (e.records s).map (List.map (Record.mapTarget f)) := by
  cases s <;> rfl

/-- What the outer environment has under a key is found where the inner one has no entry. -/
theorem get?_records_shadow (outer inner : Env) (k : Name) :
    ((outer.shadow inner).records s).get? k =
      ((inner.records s).get? k).or ((outer.records s).get? k) := by
  cases s with
  | term => exact Table.get?_mergeWith_last outer.terms inner.terms k
  | type => exact Table.get?_mergeWith_last outer.types inner.types k

theorem recordsAt_mergeAll (l : List Env) (k : Name) :
    (mergeAll l).recordsAt s k = l.flatMap fun e => e.recordsAt s k := by
  induction l with
  | nil => cases s <;> rfl
  | cons e l ih =>
    rw [mergeAll_cons, List.flatMap_cons, ← ih, recordsAt, records_merge,
      Table.getD_mergeWith_append]
    rfl

theorem recordsAt_mapKeys (f : Name → Name) (e : Env) (k : Name) :
    (e.mapKeys f).recordsAt s k =
      ((e.records s).keys.filter fun q => f q = k).flatMap (e.recordsAt s) := by
  rw [recordsAt, records_mapKeys, Table.getD_mapKeys_append]
  rfl

end Env

end Scoping
