import Mathlib.Data.List.Perm.Basic
import Mathlib.Logic.Relation
import Scoping.Proofs.Members
import Scoping.Proofs.Ownership

/-!
# The variables of a pattern

A pattern is a tree with variables at some of its leaves. Which leaf comes first is a matter of
places: a place inside a pattern is the list of turns that lead to it from the outside, and places
are ordered turn by turn. The variables of a pattern are what is found at its places in this order,
and each of them is a candidate of its own in the scope of the pattern, also if it is there several
times.

Labels of fields and annotations are not children of a pattern, so there is no place for them.
Ranges around a pattern and annotations of it can be taken away without any effect on the scope.

## Main definitions

* `Pattern.children`, `Pattern.leafAt?` — the tree and its places
* `Pattern.Unwraps` — taking one range or one annotation away
* `Pattern.env` — the scope of a pattern

## Main results

* `Pattern.exists_places` — the variables are listed by their places
* `Pattern.boundNames_of_unwraps` — what is taken away binds nothing
* `Pattern.holds_env`, `Pattern.length_candidates_env` — a candidate for each variable
* `Pattern.variables_left_to_right` — patterns and what they bring into scope
-/

namespace Scoping

open Std (TransOrd LawfulEqOrd)

namespace Pattern

/-! ### Places -/

/-- The patterns directly inside a pattern, left to right. -/
def children : Pattern → List Pattern
  | .bind _ | .wildcard => []
  | .tuple ps | .list ps => ps
  | .struct fs => fs.map Prod.snd
  | .typed p _ | .located _ p => [p]
  | .split l r => [l, r]

/-- The variable that a pattern is, if it is one. -/
def leaf? : Pattern → Option (Located Identifier)
  | .bind x => some x
  | _ => none

/-- The variable at a place inside a pattern, if there is one. The place says which child to go to,
one level after another. -/
def leafAt? : Pattern → List Nat → Option (Located Identifier)
  | p, [] => p.leaf?
  | p, i :: place => p.children[i]?.bind fun q => q.leafAt? place

theorem boundNames_eq_flatMap (p : Pattern) :
    p.boundNames = p.leaf?.toList ++ p.children.flatMap boundNames := by
  cases p <;> simp [boundNames, boundNamesAll_eq, boundNamesFields_eq, leaf?, children,
    List.flatMap_map]

theorem sizeOf_lt_of_mem_children {p q : Pattern} (h : q ∈ p.children) : sizeOf q < sizeOf p := by
  cases p with
  | bind x => contradiction
  | wildcard => contradiction
  | tuple ps =>
    have hlt : sizeOf q < sizeOf ps := List.sizeOf_lt_of_mem h
    rw [tuple.sizeOf_spec]
    omega
  | list ps =>
    have hlt : sizeOf q < sizeOf ps := List.sizeOf_lt_of_mem h
    rw [list.sizeOf_spec]
    omega
  | struct fs =>
    obtain ⟨⟨x, q⟩, hmem, rfl⟩ := List.mem_map.mp h
    have hlt : sizeOf (x, q) < sizeOf fs := List.sizeOf_lt_of_mem hmem
    rw [Prod.mk.sizeOf_spec] at hlt
    rw [struct.sizeOf_spec]
    show sizeOf q < 1 + sizeOf fs
    omega
  | typed p t =>
    obtain rfl := List.mem_singleton.mp h
    rw [typed.sizeOf_spec]
    omega
  | split l r =>
    rw [split.sizeOf_spec]
    rcases List.mem_pair.mp h with rfl | rfl
    · omega
    · omega
  | located range p =>
    obtain rfl := List.mem_singleton.mp h
    rw [located.sizeOf_spec]
    omega

/-- All places of variables in the patterns of a list, in order, if there are such places in each of
them. The first turn says which pattern to go to. -/
theorem exists_places_of_forall {qs : List Pattern}
    (h : ∀ q ∈ qs, ∃ places : List (List Nat), places.Pairwise (· < ·) ∧
      (∀ place, place ∈ places ↔ (q.leafAt? place).isSome) ∧
      places.filterMap q.leafAt? = q.boundNames) :
    ∃ turns : List (Nat × List Nat), (turns.Pairwise fun x y => x.1 :: x.2 < y.1 :: y.2) ∧
      (∀ i place, (i, place) ∈ turns ↔ (qs[i]?.bind fun q => q.leafAt? place).isSome) ∧
      turns.filterMap (fun x => qs[x.1]?.bind fun q => q.leafAt? x.2) =
        qs.flatMap boundNames := by
  induction qs with
  | nil => exact ⟨[], .nil, by simp, rfl⟩
  | cons q qs ih =>
    rw [List.forall_mem_cons] at h
    obtain ⟨places, hplaces, hmem, hvariables⟩ := h.1
    obtain ⟨turns, hturns, hmem', hvariables'⟩ := ih h.2
    refine ⟨places.map (0, ·) ++ turns.map fun x => (x.1 + 1, x.2), ?_, fun i place => ?_, ?_⟩
    · rw [List.pairwise_append, List.pairwise_map, List.pairwise_map]
      refine ⟨hplaces.imp fun hlt => ?_, hturns.imp fun {x y} hlt => ?_, ?_⟩
      · exact List.cons_lt_cons_iff.mpr (.inr ⟨rfl, hlt⟩)
      · rw [List.cons_lt_cons_iff] at hlt ⊢
        simpa using hlt
      · simp only [List.mem_map]
        rintro _ ⟨place, -, rfl⟩ _ ⟨x, -, rfl⟩
        exact List.cons_lt_cons_iff.mpr (.inl (Nat.succ_pos _))
    · cases i with
      | zero => simp [← hmem]
      | succ i => simp [← hmem']
    · rw [List.filterMap_append, List.filterMap_map, List.filterMap_map, List.flatMap_cons,
        ← hvariables, ← hvariables']
      rfl

/-- **The variables of a pattern are listed by their places.** -/
theorem exists_places (p : Pattern) : ∃ places : List (List Nat), places.Pairwise (· < ·) ∧
    (∀ place, place ∈ places ↔ (p.leafAt? place).isSome) ∧
    places.filterMap p.leafAt? = p.boundNames := by
  obtain ⟨turns, hturns, hmem, hvariables⟩ :=
    exists_places_of_forall fun q (_ : q ∈ p.children) => exists_places q
  -- A variable has no children, so its only place is the one where no turn is taken.
  refine ⟨p.leaf?.toList.map (fun _ => []) ++ turns.map fun x => x.1 :: x.2, ?_,
    fun place => ?_, ?_⟩
  · rw [List.pairwise_append, List.pairwise_map, List.pairwise_map]
    refine ⟨?_, hturns, ?_⟩
    · cases p.leaf? <;> simp
    · simp only [List.mem_map]
      rintro _ ⟨_, -, rfl⟩ _ ⟨x, -, rfl⟩
      exact List.nil_lt_cons x.1 x.2
  · cases place with
    | nil => cases hp : p.leaf? <;> simp [leafAt?, hp]
    | cons i place => simp [leafAt?, ← hmem]
  · have hhere : p.leaf?.toList.filterMap (p.leafAt? ∘ fun _ => []) = p.leaf?.toList := by
      cases hp : p.leaf? <;> simp [leafAt?, hp]
    rw [boundNames_eq_flatMap, ← hvariables, List.filterMap_append, List.filterMap_map,
      List.filterMap_map, hhere]
    rfl
termination_by p
decreasing_by exact sizeOf_lt_of_mem_children ‹_›

/-! ### Ranges and annotations -/

/-- Somewhere in the first pattern there is a range or an annotation, and the second one is the same
without it. -/
inductive Unwraps : Pattern → Pattern → Prop where
  | located (range : Range) (p : Pattern) : Unwraps (.located range p) p
  | typed (p : Pattern) (type : TypeExpr) : Unwraps (.typed p type) p
  | inLocated {p q : Pattern} (range : Range) (h : Unwraps p q) :
    Unwraps (.located range p) (.located range q)
  | inTyped {p q : Pattern} (type : TypeExpr) (h : Unwraps p q) :
    Unwraps (.typed p type) (.typed q type)
  | inTuple {p q : Pattern} (before after : List Pattern) (h : Unwraps p q) :
    Unwraps (.tuple (before ++ p :: after)) (.tuple (before ++ q :: after))
  | inList {p q : Pattern} (before after : List Pattern) (h : Unwraps p q) :
    Unwraps (.list (before ++ p :: after)) (.list (before ++ q :: after))
  | inStruct {p q : Pattern} (before after : List (Located Identifier × Pattern))
    (label : Located Identifier) (h : Unwraps p q) :
    Unwraps (.struct (before ++ (label, p) :: after)) (.struct (before ++ (label, q) :: after))
  | inLeft {l l' : Pattern} (r : Pattern) (h : Unwraps l l') : Unwraps (.split l r) (.split l' r)
  | inRight {r r' : Pattern} (l : Pattern) (h : Unwraps r r') : Unwraps (.split l r) (.split l r')

/-- **What is taken away binds nothing.** -/
theorem boundNames_of_unwraps {p q : Pattern} (h : Unwraps p q) : q.boundNames = p.boundNames := by
  induction h with
  | located range p => rfl
  | typed p type => rfl
  | inLocated range h ih => exact ih
  | inTyped type h ih => exact ih
  | inTuple before after h ih => simp [boundNames, boundNamesAll_eq, ih]
  | inList before after h ih => simp [boundNames, boundNamesAll_eq, ih]
  | inStruct before after label h ih => simp [boundNames, boundNamesFields_eq, ih]
  | inLeft r h ih => rw [boundNames, boundNames, ih]
  | inRight l h ih => rw [boundNames, boundNames, ih]

theorem boundNames_of_unwraps_repeatedly {p q : Pattern} (h : Relation.ReflTransGen Unwraps p q) :
    q.boundNames = p.boundNames := by
  induction h with
  | refl => rfl
  | tail _ h ih => rw [boundNames_of_unwraps h, ih]

end Pattern

/-! ### The number of candidates -/

/-- All candidates of both tables are there when they are put together. -/
theorem Table.candidates_mergeWith_perm {κ α : Type} [Ord κ] [TransOrd κ] [LawfulEqOrd κ]
    (s t : Table κ (List α)) :
    (s.mergeWith (· ++ ·) t).candidates.Perm (s.candidates ++ t.candidates) := by
  have hascending := pairwise_keys (s.mergeWith (· ++ ·) t)
  have hs := s.flatMap_keys hascending (fun q hq => mem_keys_mergeWith.mpr (.inl hq)) fun _ => true
  have ht := t.flatMap_keys hascending (fun q hq => mem_keys_mergeWith.mpr (.inr hq)) fun _ => true
  simp only [List.filter_true] at hs ht
  rw [candidates_eq_flatMap, candidates_eq_flatMap, candidates_eq_flatMap, hs, ht]
  simp only [getD_mergeWith_append]
  exact (List.flatMap_append_perm _ _ _).symm

theorem Env.length_candidates_bound (xs : List (Located Identifier)) :
    (ofEntries (xs.map Entry.bound)).terms.candidates.length = xs.length := by
  induction xs with
  | nil => rfl
  | cons x xs ih =>
    have hperm := Table.candidates_mergeWith_perm (Entry.bound x).env.terms
      (ofEntries (xs.map Entry.bound)).terms
    have hsplit : ofEntries ((x :: xs).map Entry.bound) =
        (Entry.bound x).env.merge (ofEntries (xs.map Entry.bound)) := mergeAll_cons _ _
    rw [hsplit]
    refine hperm.length_eq.trans ?_
    rw [List.length_append, ih, List.length_cons, Nat.add_comm]
    rfl

/-! ### The scope of a pattern -/

namespace Pattern

/-- The scope of a pattern. -/
def env (p : Pattern) : Env := Env.ofEntries p.entries

theorem holds_env (p : Pattern) : p.env.Holds (.bound p.boundNames) := by
  rw [env, entries, ← gather_bound]
  exact Env.holds_ofEntries _

theorem length_candidates_env (p : Pattern) :
    p.env.terms.candidates.length = p.boundNames.length := Env.length_candidates_bound p.boundNames

theorem env_congr {p q : Pattern} (h : q.boundNames = p.boundNames) : q.env = p.env := by
  rw [env, env, entries, entries, h]

/-- The scope of a pattern that has the variables of several others is theirs side by side. -/
theorem env_eq_mergeAll {p : Pattern} {qs : List Pattern}
    (h : p.boundNames = qs.flatMap boundNames) : p.env = Env.mergeAll (qs.map env) := by
  have hentries : p.entries = qs.flatMap entries := by
    rw [entries, h, List.map_flatMap]
    rfl
  rw [env, hentries, Env.ofEntries_flatMap]
  rfl

/-- **Patterns and what they bring into scope.** The variables of a pattern are those at its places,
place by place. In scope there are as many candidates as variables, under bare names, and under each
name there is one for each of its occurrences, in this order; there is no type and no fixity. Taking
ranges and annotations away, any number of them and anywhere in the pattern, makes no difference to
that. What a tuple, a list or a struct brings into scope is what its elements or the patterns of its
fields do, side by side, and so it is for the two sides of a split. -/
theorem variables_left_to_right (p : Pattern) :
    (∃ places : List (List Nat), places.Pairwise (· < ·) ∧
      (∀ place, place ∈ places ↔ (p.leafAt? place).isSome) ∧
      p.boundNames = places.filterMap p.leafAt? ∧
      p.boundNames.length = places.length ∧ p.env.terms.candidates.length = places.length) ∧
    (p.env.types = ∅ ∧ p.env.fixities = ∅ ∧
      (∀ x : Identifier, p.env.terms.get? (.bare x) =
        stored ((p.boundNames.filter fun y => y.value = x).map
          fun y => ⟨.binding y.range, .bare x⟩)) ∧
      ∀ k : Name, k.owner ≠ none → p.env.terms.get? k = none) ∧
    (∀ p' : Pattern, Relation.ReflTransGen Unwraps p p' →
      p'.boundNames = p.boundNames ∧ p'.env = p.env) ∧
    (∀ ps : List Pattern, (tuple ps).env = Env.mergeAll (ps.map env) ∧
      (list ps).env = Env.mergeAll (ps.map env)) ∧
    (∀ fs : List (Located Identifier × Pattern),
      (struct fs).env = Env.mergeAll (fs.map fun f => f.2.env)) ∧
    ∀ l r : Pattern, (split l r).env = l.env.merge r.env := by
  refine ⟨?_, ⟨?_, ?_, fun x => ?_, fun k hk => ?_⟩, fun p' h => ?_, fun ps => ⟨?_, ?_⟩,
    fun fs => ?_, fun l r => ?_⟩
  · obtain ⟨places, hascending, hmem, hvariables⟩ := p.exists_places
    have hall : ∀ place ∈ places, (p.leafAt? place).isSome :=
      fun place hplace => (hmem place).mp hplace
    have hlength : p.boundNames.length = places.length := by
      rw [← hvariables, List.length_filterMap_eq_countP, List.countP_eq_length.mpr hall]
    exact ⟨places, hascending, hmem, hvariables.symm, hlength, by
      rw [length_candidates_env, hlength]⟩
  · exact p.holds_env.types.unique Table.Lists.empty
  · exact p.holds_env.fixities.unique Table.Lists.empty
  · rw [p.holds_env.terms]
    simp [Contents.bound, Name.bare]
  · rw [p.holds_env.terms]
    simp [Contents.bound, hk]
  · have hnames := boundNames_of_unwraps_repeatedly h
    exact ⟨hnames, env_congr hnames⟩
  · exact env_eq_mergeAll (boundNamesAll_eq ps)
  · exact env_eq_mergeAll (boundNamesAll_eq ps)
  · have hnames : (struct fs).boundNames = (fs.map Prod.snd).flatMap boundNames := by
      rw [boundNames, boundNamesFields_eq, List.flatMap_map]
    have henv := env_eq_mergeAll hnames
    rwa [List.map_map] at henv
  · have hnames : (split l r).boundNames = [l, r].flatMap boundNames := by simp [boundNames]
    simpa using env_eq_mergeAll hnames

/-- The variable `a` with an annotation and in a range, beside a label and a type of this name. -/
def twiceA : Pattern :=
  .split
    (.struct [(⟨.onRow 1 1 2, ⟨"b"⟩⟩, .wildcard),
      (⟨.onRow 1 3 4, ⟨"a"⟩⟩, .typed (.bind ⟨.onRow 1 5 6, ⟨"a"⟩⟩) (.parameter ⟨"a"⟩))])
    (.list [.located (.onRow 1 7 9) (.bind ⟨.onRow 1 7 8, ⟨"a"⟩⟩)])

theorem variables_left_to_right_twiceA :
    let unwrapped : Pattern := .split
      (.struct [(⟨.onRow 1 1 2, ⟨"b"⟩⟩, .wildcard),
        (⟨.onRow 1 3 4, ⟨"a"⟩⟩, .bind ⟨.onRow 1 5 6, ⟨"a"⟩⟩)])
      (.list [.bind ⟨.onRow 1 7 8, ⟨"a"⟩⟩])
    Relation.ReflTransGen Unwraps twiceA unwrapped ∧ unwrapped.env = twiceA.env ∧
      twiceA.env.terms.get? (.bare ⟨"a"⟩) =
        some [⟨.binding (.onRow 1 5 6), .bare ⟨"a"⟩⟩, ⟨.binding (.onRow 1 7 8), .bare ⟨"a"⟩⟩] ∧
      (Name.qualified ⟨"M", []⟩ ⟨"a"⟩).owner ≠ none ∧
      twiceA.env.terms.get? (.qualified ⟨"M", []⟩ ⟨"a"⟩) = none ∧ twiceA.env.types = ∅ := by
  intro unwrapped
  have hannotation : Relation.ReflTransGen Unwraps twiceA _ :=
    .single (.inLeft _ (.inStruct [_] [] _ (.typed _ _)))
  have hunwrapped : Relation.ReflTransGen Unwraps twiceA unwrapped :=
    hannotation.tail (.inRight _ (.inList [] [] (.located _ _)))
  have howner : (Name.qualified ⟨"M", []⟩ ⟨"a"⟩).owner ≠ none := by decide
  obtain ⟨-, ⟨htypes, -, hbare, hqualified⟩, hwraps, -⟩ := variables_left_to_right twiceA
  exact ⟨hunwrapped, (hwraps _ hunwrapped).2, (hbare ⟨"a"⟩).trans (by decide), howner,
    hqualified _ howner, htypes⟩

end Pattern

end Scoping
