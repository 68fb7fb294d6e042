import Scoping.Proofs.Aspects
import Scoping.Proofs.Nesting
import Scoping.Proofs.Reachable

/-!
# Layers of nested scopes

Scopes are nested to any depth, and a name is looked for from the inside outwards. What is found is
the whole list of the innermost layer that has the name as a key; nothing is taken from the layers
around it. Each table is searched by itself, so a term may come from one layer and the fixity of
the operator of the same name from another.

As only the order of the layers counts, it does not matter which of them are nested in one another
first, and what a layer has is never found if the same layer comes again further in.

Shadowing and putting side by side agree on two environments if there is nothing to choose under a
common key. A key without candidates would be one, but there is none in what the library produces.

## Main definitions

* `Scoping.Bracketing` — a stack of layers with brackets
* `Env.shadowAll` — a stack of layers, each nested in the one before it

## Main results

* `Bracketing.get?_table_env`, `Env.get?_table_shadowAll` — the innermost layer with a key counts
* `Env.shadowAll_repeated` — the outer one of two occurrences of a layer
* `Env.shadow_eq_merge_iff` — when shadowing is putting side by side
* `Env.innermost_layer_counts` — the laws of nesting environments
-/

namespace Scoping

open Std (TransOrd LawfulEqOrd)

/-! ### Stacks of layers -/

/-- Layers from the outermost to the innermost, and brackets that say which of them are nested in
one another first. -/
inductive Bracketing where
  | layer (e : Env)
  | nest (outer inner : Bracketing)

namespace Bracketing

/-- The environment of the innermost scope. -/
def env : Bracketing → Env
  | .layer e => e
  | .nest outer inner => outer.env.shadow inner.env

/-- The layers without brackets, outermost first. -/
def layers : Bracketing → List Env
  | .layer e => [e]
  | .nest outer inner => outer.layers ++ inner.layers

/-- However layers are bracketed, the innermost one with a key counts. -/
theorem get?_table_env (s : Aspect) (b : Bracketing) (k : Name) :
    (b.env.table s).get? k = b.layers.reverse.findSome? fun e => (e.table s).get? k := by
  induction b with
  | layer e =>
    rw [env, layers, List.reverse_singleton, List.findSome?_singleton]
  | nest outer inner ihouter ihinner =>
    rw [env, layers, List.reverse_append, List.findSome?_append, Env.get?_table_shadow, ihouter,
      ihinner]

end Bracketing

namespace Env

/-- A stack of layers, outermost first, each nested in the one before it. -/
def shadowAll (l : List Env) : Env := l.foldl shadow ∅

/-- **The innermost layer with a key counts.** -/
theorem get?_table_shadowAll (s : Aspect) (l : List Env) (k : Name) :
    ((shadowAll l).table s).get? k = l.reverse.findSome? fun e => (e.table s).get? k := by
  have hfold : ∀ outer : Env, ((l.foldl shadow outer).table s).get? k =
      (l.reverse.findSome? fun e => (e.table s).get? k).or ((outer.table s).get? k) := by
    induction l with
    | nil => exact fun _ => rfl
    | cons e l ih =>
      intro outer
      rw [List.foldl_cons, ih, get?_table_shadow, List.reverse_cons, List.findSome?_append,
        List.findSome?_singleton, Option.or_assoc]
  rw [shadowAll, hfold, table_empty, Table.get?_empty, Option.or_none]

theorem env_eq_shadowAll (b : Bracketing) : b.env = shadowAll b.layers :=
  ext_table fun s => Table.ext_get? fun k => by
    rw [Bracketing.get?_table_env, get?_table_shadowAll]

/-- **A layer has no effect where it comes again further in.** Whatever it has under a key is found
there before the search gets to the outer occurrence. -/
theorem shadowAll_repeated (before between after : List Env) (e : Env) :
    shadowAll (before ++ e :: (between ++ e :: after)) =
      shadowAll (before ++ (between ++ e :: after)) := by
  refine ext_table fun s => Table.ext_get? fun k => ?_
  simp only [get?_table_shadowAll, List.reverse_append, List.reverse_cons, List.findSome?_append,
    List.findSome?_singleton, Option.or_assoc]
  cases (e.table s).get? k <;> simp

end Env

/-! ### Shadowing and putting side by side -/

namespace Table

variable {κ α : Type} [Ord κ] [TransOrd κ] [LawfulEqOrd κ]

/-- Side by side nothing is lost, so nothing may be there to be lost. -/
theorem mergeWith_last_eq_append_iff {s : Table κ (List α)} {g : κ → List α} (hs : s.Lists g)
    (t : Table κ (List α)) :
    s.mergeWith (fun _ last => last) t = s.mergeWith (· ++ ·) t ↔ ∀ k ∈ s.keys, k ∉ t.keys := by
  have h := sideBySide_append_eq_nested_iff hs ∅ t
  simp only [sideBySide, nested, empty_mergeWith, not_and] at h
  rw [eq_comm, h]

theorem mergeWith_last_eq_first_iff {s t : Table κ α} :
    s.mergeWith (fun _ last => last) t = s.mergeWith (fun first _ => first) t ↔
      ∀ k ∈ s.keys, k ∈ t.keys → s.get? k = t.get? k := by
  constructor
  · intro h k hs ht
    obtain ⟨a, ha⟩ := Option.isSome_iff_exists.mp (mem_keys_iff.mp hs)
    obtain ⟨b, hb⟩ := Option.isSome_iff_exists.mp (mem_keys_iff.mp ht)
    have hget : (s.mergeWith (fun _ last => last) t).get? k =
        (s.mergeWith (fun first _ => first) t).get? k := by rw [h]
    rw [get?_mergeWith, get?_mergeWith, ha, hb] at hget
    rw [ha, hb]
    exact hget.symm
  · intro h
    refine ext_get? fun k => ?_
    have hk := h k
    rw [mem_keys_iff, mem_keys_iff] at hk
    rw [get?_mergeWith, get?_mergeWith]
    cases hs : s.get? k <;> cases ht : t.get? k <;> simp_all [Option.merge]

end Table

namespace Env

theorem shadow_eq_merge_iff {outer : Env} (houter : outer.Tidy) (inner : Env) :
    outer.shadow inner = outer.merge inner ↔
      (∀ k ∈ outer.terms.keys, k ∉ inner.terms.keys) ∧
      (∀ k ∈ outer.types.keys, k ∉ inner.types.keys) ∧
      ∀ k ∈ outer.fixities.keys, k ∈ inner.fixities.keys →
        outer.fixities.get? k = inner.fixities.get? k := by
  rw [shadow, merge, Env.mk.injEq, Table.mergeWith_last_eq_append_iff houter.holds.terms,
    Table.mergeWith_last_eq_append_iff houter.holds.types, Table.mergeWith_last_eq_first_iff]

/-- **Nested.** However a stack of layers is bracketed, its environment is the same, and each of its
tables has under a key just what the innermost layer has there that has the key in this table. So
nesting is associative, nothing is changed by an empty layer, and a layer may be left out if it
comes again further in. In what the library produces, nesting an environment in another one is the
same as putting the two side by side if and only if they have no term and no type in common, and no
operator with different fixities. -/
theorem innermost_layer_counts :
    (∀ b : Bracketing, b.env = shadowAll b.layers) ∧
    (∀ (s : Aspect) (l : List Env) (k : Name),
      ((shadowAll l).table s).get? k = l.reverse.findSome? fun e => (e.table s).get? k) ∧
    (∀ a b c : Env, (a.shadow b).shadow c = a.shadow (b.shadow c)) ∧
    (∀ e : Env, e.shadow ∅ = e ∧ shadow ∅ e = e) ∧
    (∀ (before between after : List Env) (e : Env),
      shadowAll (before ++ e :: (between ++ e :: after)) =
        shadowAll (before ++ (between ++ e :: after))) ∧
    (∀ a b : Env, (a.shadow b).shadow a = b.shadow a ∧ a.shadow a = a) ∧
    ∀ outer inner : Env, outer.Reachable → inner.Reachable →
      (outer.shadow inner = outer.merge inner ↔
        (∀ k ∈ outer.terms.keys, k ∉ inner.terms.keys) ∧
        (∀ k ∈ outer.types.keys, k ∉ inner.types.keys) ∧
        ∀ k ∈ outer.fixities.keys, k ∈ inner.fixities.keys →
          outer.fixities.get? k = inner.fixities.get? k) := by
  refine ⟨env_eq_shadowAll, get?_table_shadowAll, shadow_assoc,
    fun e => ⟨shadow_empty e, empty_shadow e⟩, shadowAll_repeated, fun a b => ?_,
    fun outer inner houter _ => shadow_eq_merge_iff houter.tidy inner⟩
  have htwice := shadowAll_repeated [] [b] [] a
  have hagain := shadowAll_repeated [] [] [] a
  simp only [shadowAll, List.nil_append, List.cons_append, List.foldl_cons, List.foldl_nil,
    empty_shadow] at htwice hagain
  exact ⟨htwice, hagain⟩

/-- A term `+` that groups to the left. -/
def plusTerm : Env := .ofEntries
  [.term (.bare ⟨"+"⟩) ⟨.imported, .qualified ⟨"A", []⟩ ⟨"+"⟩⟩, .fixity (.bare ⟨"+"⟩) ⟨.left, 6⟩]

/-- A type `+` with the fixity that the term has. -/
def plusType : Env := .ofEntries
  [.type (.bare ⟨"+"⟩) ⟨.imported, .qualified ⟨"B", []⟩ ⟨"+"⟩⟩, .fixity (.bare ⟨"+"⟩) ⟨.left, 6⟩]

/-- Another fixity of `+` and nothing else. -/
def plusRegrouped : Env := .ofEntries [.fixity (.bare ⟨"+"⟩) ⟨.right, 5⟩]

theorem innermost_layer_counts_plus :
    plusTerm.Reachable ∧ plusType.Reachable ∧ plusRegrouped.Reachable ∧
      plusTerm.shadow plusType = plusTerm.merge plusType ∧
      plusTerm.shadow plusRegrouped ≠ plusTerm.merge plusRegrouped ∧
      (plusTerm.shadow plusRegrouped).shadow plusTerm = plusRegrouped.shadow plusTerm := by
  have hreachable : ∀ l : List Entry, (ofEntries l).Reachable := fun l =>
    .mergeAll (List.forall_mem_map.mpr fun x _ => .entry x)
  obtain ⟨-, -, -, -, -, htwice, hagree⟩ := innermost_layer_counts
  have hsame := hagree plusTerm plusType (hreachable _) (hreachable _)
  have hdifferent := hagree plusTerm plusRegrouped (hreachable _) (hreachable _)
  refine ⟨hreachable _, hreachable _, hreachable _, hsame.mpr (by decide), ?_, (htwice _ _).1⟩
  rw [ne_eq, hdifferent]
  decide

end Env

end Scoping
