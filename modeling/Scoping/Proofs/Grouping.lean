import Scoping.Proofs.Aspects

/-!
# Members of a scope in groups

What is put side by side may come in groups, as the arms of a comprehension do or the members of a
declaration that introduces several names, and a group may again consist of groups. Collecting each
group by itself and then what has become of the groups gives the same environment as collecting all
members at once. Only their order counts, because a key of the whole has the lists of all members
that have it, one after another, and the fixity of the first of them.

Nothing is assumed of the environments that are collected. A key with an empty list is a key.

## Main definitions

* `Scoping.Grouping` — members in groups, these in further groups, and so on
* `Grouping.members`, `Grouping.collect` — all members at once, and group by group

## Main results

* `Grouping.collect_eq`, `Grouping.mergeAll_collectAll` — groups do not matter
* `Env.mergeAll_in_groups` — the laws of putting environments side by side
-/

namespace Scoping

/-- Members in groups, groups in further groups, and so on. A group may be empty. -/
inductive Grouping (α : Type) where
  | member (a : α)
  | group (parts : List (Grouping α))

namespace Grouping

variable {α : Type}

/-! ### All members at once -/

mutual

/-- The members in their order, with all groups taken apart. -/
def members : Grouping α → List α
  | .member a => [a]
  | .group parts => membersAll parts

/-- The members of several groupings, one after another. -/
def membersAll : List (Grouping α) → List α
  | [] => []
  | g :: gs => g.members ++ membersAll gs

end

/-! ### Group by group -/

mutual

/-- Everything side by side, each group collected before what it is a part of. -/
def collect : Grouping Env → Env
  | .member e => e
  | .group parts => .mergeAll (collectAll parts)

/-- What becomes of several groupings, each by itself. -/
def collectAll : List (Grouping Env) → List Env
  | [] => []
  | g :: gs => g.collect :: collectAll gs

end

mutual

/-- **Groups do not matter.** -/
theorem collect_eq : ∀ g : Grouping Env, g.collect = .mergeAll g.members
  | .member e => by
    rw [collect, members, Env.mergeAll_cons, Env.mergeAll_nil, Env.merge_empty]
  | .group parts => by
    rw [collect, members]
    exact mergeAll_collectAll parts

theorem mergeAll_collectAll :
    ∀ gs : List (Grouping Env), Env.mergeAll (collectAll gs) = .mergeAll (membersAll gs)
  | [] => rfl
  | g :: gs => by
    rw [collectAll, membersAll, Env.mergeAll_cons, Env.mergeAll_append, collect_eq g,
      mergeAll_collectAll gs]

end

end Grouping

/-- **Side by side.** Putting environments side by side is associative, and nothing is in scope
beside the empty environment. So a list of them can be collected in groups, groups of groups and so
on, as long as the order stays. A key is in a table of the whole if it is in that table of a member;
the candidates under it are those of all members in their order, and the fixities are those of the
first member that has the key. -/
theorem Env.mergeAll_in_groups :
    (∀ a b c : Env, (a.merge b).merge c = a.merge (b.merge c)) ∧
    (∀ e : Env, e.merge ∅ = e ∧ merge ∅ e = e) ∧
    (∀ g : Grouping Env, g.collect = mergeAll g.members) ∧
    (∀ (s : Aspect) (l : List Env) (k : Name),
      k ∈ ((mergeAll l).table s).keys ↔ ∃ e ∈ l, k ∈ (e.table s).keys) ∧
    ∀ (l : List Env) (k : Name),
      (mergeAll l).termsAt k = l.flatMap (fun e => e.termsAt k) ∧
      (mergeAll l).typesAt k = l.flatMap (fun e => e.typesAt k) ∧
      (mergeAll l).fixities.get? k = l.findSome? fun e => e.fixities.get? k :=
  ⟨merge_assoc, fun e => ⟨merge_empty e, empty_merge e⟩, Grouping.collect_eq,
    fun _ _ _ => mem_keys_table_mergeAll,
    fun l k => ⟨recordsAt_mergeAll .term l k, recordsAt_mergeAll .type l k,
      get?_fixities_mergeAll l k⟩⟩

/-- Three environments, of which the first and the last have a fixity of `+`, grouped in two ways
with an empty group in one of them. -/
example :
    let left : Env := .ofEntries [.term (.bare ⟨"+"⟩) ⟨.imported, .qualified ⟨"A", []⟩ ⟨"+"⟩⟩,
      .fixity (.bare ⟨"+"⟩) ⟨.left, 6⟩]
    let right : Env := .ofEntries [.term (.bare ⟨"+"⟩) ⟨.imported, .qualified ⟨"B", []⟩ ⟨"+"⟩⟩,
      .fixity (.bare ⟨"+"⟩) ⟨.right, 5⟩]
    let early : Grouping Env := .group [.group [.member left, .group []], .member ∅, .member right]
    let late : Grouping Env := .group [.member left, .group [.member ∅, .member right]]
    early.collect = late.collect ∧ early.collect.fixityAt (.bare ⟨"+"⟩) = some ⟨.left, 6⟩ := by
  decide

end Scoping
