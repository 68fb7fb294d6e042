import Scoping.Proofs.Records

/-!
# Contents of environments

Everything that the rules of scoping produce is an environment without empty entries in which an
operator has at most one fixity. Such an environment is three functions from names: the candidates
for a term, the candidates for a type, and the fixity. They are its contents.

`Env.Holds e c` says that `e` has the contents `c`. What the rules do is then said once, on
contents, and an environment is looked into no more than a table is: `Env.Holds.merge` and its
companions carry a description of the parts to a description of the whole.

## Main definitions

* `Scoping.Contents`, `Contents.records`, `Env.Holds`
* `Contents.merge`, `Contents.gather` — contents side by side
* `Entry.contents` — what a single entry says

## Main results

* `Env.Holds.unique` — contents determine the environment
* `Env.Holds.merge`, `Env.holds_mergeAll`, `Env.holds_ofEntries`, `Env.Holds.filterKeys`,
  `Env.Holds.mapKeys`
* `Contents.gather_table` — gathering over a table keyed by name is looking up in it
* `Env.get?_terms_shadow` and its companions — looking up in nested environments
-/

namespace Scoping

/-- What an environment says of each name. -/
@[ext] structure Contents where
  terms : Name → List TermRecord
  types : Name → List TypeRecord
  fixity : Name → Option Fixity

namespace Contents

variable {α β : Type}

/-- What is said of terms or of types. -/
def records (c : Contents) : (s : Referent) → Name → List (Record s.Source)
  | .term => c.terms
  | .type => c.types

/-- Nothing is said of any name. -/
def empty : Contents := ⟨fun _ => [], fun _ => [], fun _ => none⟩

/-- Something is said of `key` and nothing of other names. -/
def only (key : Name) (terms : List TermRecord) (types : List TypeRecord)
    (fixity : Option Fixity) : Contents where
  terms k := if k = key then terms else []
  types k := if k = key then types else []
  fixity k := if k = key then fixity else none

/-- Both contents in one scope: candidates of `c` before those of `d`, the fixity of `c` if it has
one. -/
def merge (c d : Contents) : Contents where
  terms k := c.terms k ++ d.terms k
  types k := c.types k ++ d.types k
  fixity k := (c.fixity k).or (d.fixity k)

/-- The contents of all members of a list in one scope. -/
def gather (l : List α) (c : α → Contents) : Contents where
  terms k := l.flatMap fun x => (c x).terms k
  types k := l.flatMap fun x => (c x).types k
  fixity k := l.findSome? fun x => (c x).fixity k

theorem ext_records {c d : Contents} (hrecords : ∀ s k, c.records s k = d.records s k)
    (hfixity : ∀ k, c.fixity k = d.fixity k) : c = d :=
  Contents.ext (funext (hrecords .term)) (funext (hrecords .type)) (funext hfixity)

theorem records_gather (s : Referent) (l : List α) (c : α → Contents) (k : Name) :
    (gather l c).records s k = l.flatMap fun x => (c x).records s k := by
  cases s <;> rfl

@[simp] theorem merge_empty (c : Contents) : c.merge empty = c := by
  ext1 <;> funext k <;> simp [merge, empty]

theorem gather_nil (c : α → Contents) : gather [] c = empty := rfl

theorem gather_cons (c : α → Contents) (x : α) (l : List α) :
    gather (x :: l) c = (c x).merge (gather l c) := by
  ext1
  · rfl
  · rfl
  · funext k
    show (x :: l).findSome? (fun x => (c x).fixity k) = ((c x).fixity k).or _
    rw [List.findSome?_cons]
    cases (c x).fixity k <;> rfl

theorem gather_append (c : α → Contents) (l m : List α) :
    gather (l ++ m) c = (gather l c).merge (gather m c) := by
  ext1 <;> funext k <;> simp [gather, merge]

theorem gather_flatMap (c : β → Contents) (f : α → List β) (l : List α) :
    gather (l.flatMap f) c = gather l fun x => gather (f x) c := by
  induction l with
  | nil => rfl
  | cons x l ih => rw [List.flatMap_cons, gather_append, ih, gather_cons]

theorem gather_congr {c d : α → Contents} {l : List α} (h : ∀ x ∈ l, c x = d x) :
    gather l c = gather l d := by
  induction l with
  | nil => rfl
  | cons x l ih =>
    rw [List.forall_mem_cons] at h
    rw [gather_cons, gather_cons, h.1, ih h.2]

theorem gather_map (c : β → Contents) (f : α → β) (l : List α) :
    gather (l.map f) c = gather l fun x => c (f x) := by
  induction l with
  | nil => rfl
  | cons x l ih => rw [List.map_cons, gather_cons, ih, gather_cons]

theorem merge_only (key : Name) (ts ts' : List TermRecord) (us us' : List TypeRecord)
    (f f' : Option Fixity) :
    (only key ts us f).merge (only key ts' us' f') =
      only key (ts ++ ts') (us ++ us') (f.or f') := by
  ext1 <;> funext k <;> by_cases hk : k = key <;> simp [merge, only, hk]

theorem gather_only (key : Name) (l : List α) (ts : α → List TermRecord)
    (us : α → List TypeRecord) (f : α → Option Fixity) :
    gather l (fun x => only key (ts x) (us x) (f x)) =
      only key (l.flatMap ts) (l.flatMap us) (l.findSome? f) := by
  ext1 <;> funext k <;> by_cases hk : k = key <;> simp [gather, only, hk]

/-- **Gathering over a table keyed by name is looking up in it.** -/
theorem gather_table (t : Table Name α) (terms : α → List TermRecord)
    (types : α → List TypeRecord) (fixity : α → Option Fixity) :
    gather t.entries (fun e => only e.1 (terms e.2) (types e.2) (fixity e.2)) =
      { terms := fun k => (t.get? k).elim [] terms
        types := fun k => (t.get? k).elim [] types
        fixity := fun k => (t.get? k).bind fixity } := by
  ext1
  · funext k
    exact t.flatMap_entries k terms
  · funext k
    exact t.flatMap_entries k types
  · funext k
    exact t.findSome?_entries k fixity

end Contents

/-! ### Environments with contents -/

/-- `e` says what `c` says, and has no empty entries. -/
structure Env.Holds (e : Env) (c : Contents) : Prop where
  terms : e.terms.Lists c.terms
  types : e.types.Lists c.types
  fixities : e.fixities.Lists fun k => (c.fixity k).toList

namespace Env

variable {α : Type} {a b e : Env} {c d : Contents}

theorem holds_empty : (∅ : Env).Holds .empty :=
  ⟨Table.Lists.empty, Table.Lists.empty, Table.Lists.empty⟩

namespace Holds

/-- **Contents determine the environment.** -/
theorem unique (ha : a.Holds c) (hb : b.Holds c) : a = b := by
  obtain ⟨terms, types, fixities⟩ := a
  obtain ⟨terms', types', fixities'⟩ := b
  rw [Env.mk.injEq]
  exact ⟨ha.terms.unique hb.terms, ha.types.unique hb.types, ha.fixities.unique hb.fixities⟩

theorem get?_fixities (h : e.Holds c) (k : Name) :
    e.fixities.get? k = stored (c.fixity k).toList := h.fixities k

theorem records (h : e.Holds c) (s : Referent) : (e.records s).Lists (c.records s) := by
  cases s with
  | term => exact h.terms
  | type => exact h.types

theorem recordsAt_eq (h : e.Holds c) (s : Referent) (k : Name) :
    e.recordsAt s k = c.records s k := by
  rw [recordsAt, h.records s, getD_stored]

theorem termsAt_eq (h : e.Holds c) (k : Name) : e.termsAt k = c.terms k := h.recordsAt_eq .term k

theorem typesAt_eq (h : e.Holds c) (k : Name) : e.typesAt k = c.types k := h.recordsAt_eq .type k

theorem fixityAt_eq (h : e.Holds c) (k : Name) : e.fixityAt k = c.fixity k := by
  rw [fixityAt, h.get?_fixities]
  cases c.fixity k <;> rfl

theorem mem_records_keys_iff (h : e.Holds c) {s : Referent} {k : Name} :
    k ∈ (e.records s).keys ↔ e.recordsAt s k ≠ [] := by
  rw [(h.records s).mem_keys_iff, h.recordsAt_eq]

theorem mem_terms_keys_iff (h : e.Holds c) {k : Name} : k ∈ e.terms.keys ↔ e.termsAt k ≠ [] :=
  h.mem_records_keys_iff (s := .term)

theorem mem_types_keys_iff (h : e.Holds c) {k : Name} : k ∈ e.types.keys ↔ e.typesAt k ≠ [] :=
  h.mem_records_keys_iff (s := .type)

theorem mem_fixities_keys_iff (h : e.Holds c) {k : Name} :
    k ∈ e.fixities.keys ↔ c.fixity k ≠ none := by
  rw [h.fixities.mem_keys_iff, ne_eq, Option.toList_eq_nil_iff]

theorem merge (ha : a.Holds c) (hb : b.Holds d) : (a.merge b).Holds (c.merge d) :=
  ⟨ha.terms.append hb.terms, ha.types.append hb.types, ha.fixities.first hb.fixities⟩

/-- Renaming targets leaves keys and fixities as they are. -/
theorem mapTargets (h : e.Holds c) (f : Name → Name) :
    (e.mapTargets f).Holds
      { terms := fun k => (c.terms k).map (Record.mapTarget f)
        types := fun k => (c.types k).map (Record.mapTarget f)
        fixity := c.fixity } :=
  ⟨h.terms.map _, h.types.map _, h.fixities⟩

theorem filterKeys (h : e.Holds c) (p : Name → Bool) :
    (e.filterKeys p).Holds
      { terms := fun k => if p k then c.terms k else []
        types := fun k => if p k then c.types k else []
        fixity := fun k => if p k then c.fixity k else none } := by
  refine ⟨h.terms.filterKeys p, h.types.filterKeys p, ?_⟩
  simp only [toList_ite_none]
  exact h.fixities.filterKeys p

/-- Re-keying gathers, under each new key, what the old keys have, in their order. Any ascending
list of names that has all the old keys will do. -/
theorem mapKeys (h : e.Holds c) {qs : List Name}
    (hqs : qs.Pairwise fun k k' => compare k k' = .lt) (hterms : ∀ q, c.terms q ≠ [] → q ∈ qs)
    (htypes : ∀ q, c.types q ≠ [] → q ∈ qs) (hfixities : ∀ q, c.fixity q ≠ none → q ∈ qs)
    (f : Name → Name) :
    (e.mapKeys f).Holds
      { terms := fun k => (qs.filter fun q => f q = k).flatMap c.terms
        types := fun k => (qs.filter fun q => f q = k).flatMap c.types
        fixity := fun k => (qs.filter fun q => f q = k).findSome? c.fixity } :=
  ⟨h.terms.mapKeys_append hqs hterms f, h.types.mapKeys_append hqs htypes f,
    h.fixities.mapKeys_first hqs hfixities f⟩

end Holds

theorem holds_mergeAll {f : α → Env} {g : α → Contents} {l : List α}
    (h : ∀ x ∈ l, (f x).Holds (g x)) : (mergeAll (l.map f)).Holds (.gather l g) := by
  induction l with
  | nil => exact holds_empty
  | cons x l ih =>
    rw [List.forall_mem_cons] at h
    rw [List.map_cons, mergeAll_cons, Contents.gather_cons]
    exact h.1.merge (ih h.2)

end Env

/-! ### Nested environments

What the outer environment has under a key is found where the inner one has no entry. Neither of
them needs to be made by the rules for that. -/

namespace Env

theorem get?_terms_shadow (outer inner : Env) (k : Name) :
    (outer.shadow inner).terms.get? k = (inner.terms.get? k).or (outer.terms.get? k) :=
  get?_records_shadow .term outer inner k

theorem get?_types_shadow (outer inner : Env) (k : Name) :
    (outer.shadow inner).types.get? k = (inner.types.get? k).or (outer.types.get? k) :=
  get?_records_shadow .type outer inner k

theorem get?_fixities_shadow (outer inner : Env) (k : Name) :
    (outer.shadow inner).fixities.get? k = (inner.fixities.get? k).or (outer.fixities.get? k) :=
  Table.get?_mergeWith_last outer.fixities inner.fixities k

theorem Holds.fixityAt_shadow {inner : Env} {c : Contents} (h : inner.Holds c) (outer : Env)
    (k : Name) : (outer.shadow inner).fixityAt k = (inner.fixityAt k).or (outer.fixityAt k) := by
  rw [h.fixityAt_eq, fixityAt, get?_fixities_shadow, h.get?_fixities]
  cases c.fixity k <;> rfl

end Env

/-! ### Single entries -/

/-- What a single entry says. -/
def Entry.contents : Entry → Contents
  | .term key record => .only key [record] [] none
  | .type key record => .only key [] [record] none
  | .fixity key f => .only key [] [] (some f)

/-- A record is said by its own entry only. -/
theorem Entry.mem_records_contents {x : Entry} {s : Referent} {k : Name} {r : Record s.Source} :
    r ∈ x.contents.records s k ↔ x = .record s k r := by
  cases s <;> cases x <;> simp [contents, Contents.records, Contents.only, record, eq_comm]

theorem Table.lists_insert_empty {α : Type} (key : Name) (a : α) :
    (Table.empty.insert key [a]).Lists fun k => if k = key then [a] else [] := by
  intro k
  show (Table.empty.insert key [a]).get? k = stored (if k = key then [a] else [])
  by_cases hk : k = key
  · subst hk
    simp
  · rw [Table.get?_insert_of_ne _ hk, if_neg hk]
    rfl

theorem Entry.holds_env (x : Entry) : x.env.Holds x.contents := by
  cases x with
  | term key record =>
    refine ⟨Table.lists_insert_empty key record, fun k => ?_, fun k => ?_⟩ <;>
      simp [Entry.env, Entry.contents, Contents.only]
  | type key record =>
    refine ⟨fun k => ?_, Table.lists_insert_empty key record, fun k => ?_⟩ <;>
      simp [Entry.env, Entry.contents, Contents.only]
  | fixity key f =>
    refine ⟨fun k => ?_, fun k => ?_, fun k => ?_⟩
    · simp [Entry.env, Entry.contents, Contents.only]
    · simp [Entry.env, Entry.contents, Contents.only]
    · show (Table.empty.insert key [f]).get? k = stored (if k = key then some f else none).toList
      rw [toList_ite_none, Table.lists_insert_empty key f k]
      rfl

theorem Env.holds_ofEntries (l : List Entry) : (ofEntries l).Holds (.gather l Entry.contents) :=
  holds_mergeAll fun x _ => x.holds_env

end Scoping
