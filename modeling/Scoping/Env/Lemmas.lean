import Scoping.Env.Basic
import Scoping.Table.Lemmas

/-!
# Composing environments

Environments are a monoid under `merge` and a monoid under `shadow`. So neither members of one
scope nor scopes nested in one another need brackets, and the environment of a list of entries can
be computed piece by piece.

## Main results

* `Env.merge_assoc`, `Env.shadow_assoc`, and `∅` as the unit of both
* `Env.mergeAll_append`, `Env.ofEntries_append`, `Env.ofEntries_flatMap` — composing piece by piece
-/

namespace Scoping

namespace Env

/-! ### Side by side -/

theorem merge_assoc (a b c : Env) : (a.merge b).merge c = a.merge (b.merge c) := by
  simp [merge, Table.mergeWith_assoc]

@[simp] theorem merge_empty (e : Env) : e.merge ∅ = e := rfl

@[simp] theorem empty_merge (e : Env) : merge ∅ e = e := by
  show Env.mk (Table.mergeWith _ ∅ _) (Table.mergeWith _ ∅ _) (Table.mergeWith _ ∅ _) = e
  simp

/-! ### Nested -/

theorem shadow_assoc (a b c : Env) : (a.shadow b).shadow c = a.shadow (b.shadow c) := by
  simp [shadow, Table.mergeWith_assoc]

@[simp] theorem shadow_empty (e : Env) : e.shadow ∅ = e := rfl

@[simp] theorem empty_shadow (e : Env) : shadow ∅ e = e := by
  show Env.mk (Table.mergeWith _ ∅ _) (Table.mergeWith _ ∅ _) (Table.mergeWith _ ∅ _) = e
  simp

/-! ### Lists -/

@[simp] theorem mergeAll_nil : mergeAll [] = ∅ := rfl

@[simp] theorem mergeAll_cons (e : Env) (l : List Env) :
    mergeAll (e :: l) = e.merge (mergeAll l) := by
  have hfold : ∀ (l : List Env) (a : Env), l.foldl merge a = a.merge (mergeAll l) := by
    intro l
    induction l with
    | nil => intro a; rfl
    | cons b l ih =>
      intro a
      rw [mergeAll, List.foldl_cons, List.foldl_cons, ih, ih, merge_assoc, empty_merge]
  rw [mergeAll, List.foldl_cons, empty_merge, hfold]

theorem mergeAll_append (l m : List Env) : mergeAll (l ++ m) = (mergeAll l).merge (mergeAll m) := by
  induction l with
  | nil => simp
  | cons e l ih => rw [List.cons_append, mergeAll_cons, mergeAll_cons, ih, merge_assoc]

@[simp] theorem ofEntries_nil : ofEntries [] = ∅ := rfl

theorem ofEntries_append (l m : List Entry) :
    ofEntries (l ++ m) = (ofEntries l).merge (ofEntries m) := by
  rw [ofEntries, List.map_append, mergeAll_append]
  rfl

/-- **A scope is its members side by side**, whether they are taken entry by entry or each as an
environment of its own. -/
theorem ofEntries_flatMap {α : Type} (f : α → List Entry) (l : List α) :
    ofEntries (l.flatMap f) = mergeAll (l.map fun x => ofEntries (f x)) := by
  induction l with
  | nil => rfl
  | cons x l ih => rw [List.flatMap_cons, ofEntries_append, List.map_cons, mergeAll_cons, ih]

end Env

end Scoping
