import Scoping.Proofs.Coherence
import Scoping.Proofs.Pieces

/-!
# Side by side or nested

Two lists of constructs can be put into one scope, or the second into a scope inside that of the
first. Both come to the same except under names that both lists introduce. There the one scope has
the candidates of both and the nested one only those of the inner list. Of two fixities the one
scope has the first and the nested one the last.

So it depends on names alone whether it makes a difference to split an arm of a comprehension or a
`where` block in two. For fixities this takes that none of them comes without its term: two lists
that share no term do not share a fixity either.

## Main definitions

* `Table.sideBySide`, `Table.nested` — two tables within an outer one
* `Env.DifferWhereBoth` — what two environments have side by side and what they have nested
* `Clause.Binds` — the variables of a clause

## Main results

* `Table.get?_sideBySide_of_not_both`, `Table.sideBySide_append_eq_nested_iff` — single tables
* `Env.shadow_merge_eq_iff` — when it makes no difference to environments
* `sideBySide_or_nested` — arms of comprehensions and `where` blocks in one scope or in two
-/

namespace Scoping

open Std (TransOrd LawfulEqOrd)

/-! ### Tables side by side or nested -/

namespace Table

variable {κ α : Type} [Ord κ] [TransOrd κ]

/-- `s` and `t` combined by `f`, within `outer`. -/
def sideBySide (f : α → α → α) (outer s t : Table κ α) : Table κ α :=
  outer.mergeWith (fun _ last => last) (s.mergeWith f t)

/-- `t` within `s`, within `outer`. -/
def nested (outer s t : Table κ α) : Table κ α :=
  (outer.mergeWith (fun _ last => last) s).mergeWith (fun _ last => last) t

variable [LawfulEqOrd κ] {f : α → α → α} {outer s t : Table κ α} {k : κ}

theorem keys_sideBySide (f : α → α → α) (outer s t : Table κ α) :
    (sideBySide f outer s t).keys = (nested outer s t).keys := by
  refine eq_of_ascending (sorted _) (sorted _) fun k => ?_
  simp only [sideBySide, nested, mem_keys_mergeWith, or_assoc]

theorem get?_sideBySide (f : α → α → α) (outer s t : Table κ α) (k : κ) :
    (sideBySide f outer s t).get? k = ((s.get? k).merge f (t.get? k)).or (outer.get? k) := by
  rw [sideBySide, get?_mergeWith_last, get?_mergeWith]

theorem get?_nested (outer s t : Table κ α) (k : κ) :
    (nested outer s t).get? k = (t.get? k).or ((s.get? k).or (outer.get? k)) := by
  rw [nested, get?_mergeWith_last, get?_mergeWith_last]

theorem get?_sideBySide_of_not_both (h : ¬(k ∈ s.keys ∧ k ∈ t.keys)) :
    (sideBySide f outer s t).get? k = (nested outer s t).get? k := by
  rw [mem_keys_iff, mem_keys_iff] at h
  rw [get?_sideBySide, get?_nested]
  cases hs : s.get? k <;> cases ht : t.get? k <;> simp_all [Option.merge]

/-- Without a common key it makes no difference how values would be combined. -/
theorem sideBySide_eq_nested (h : ∀ k, ¬(k ∈ s.keys ∧ k ∈ t.keys)) :
    sideBySide f outer s t = nested outer s t :=
  ext_get? fun k => get?_sideBySide_of_not_both (h k)

section Candidates

variable {β : Type} {s t : Table κ (List β)}

theorem get?_sideBySide_of_both (outer : Table κ (List β)) (hs : k ∈ s.keys) (ht : k ∈ t.keys) :
    (sideBySide (· ++ ·) outer s t).get? k = some ((s.get? k).getD [] ++ (t.get? k).getD []) := by
  obtain ⟨as, has⟩ := Option.isSome_iff_exists.mp (mem_keys_iff.mp hs)
  obtain ⟨bs, hbs⟩ := Option.isSome_iff_exists.mp (mem_keys_iff.mp ht)
  rw [get?_sideBySide, has, hbs]
  rfl

theorem get?_nested_of_mem (outer s : Table κ (List β)) (ht : k ∈ t.keys) :
    (nested outer s t).get? k = some ((t.get? k).getD []) := by
  obtain ⟨bs, hbs⟩ := Option.isSome_iff_exists.mp (mem_keys_iff.mp ht)
  rw [get?_nested, hbs]
  rfl

/-- **Only a common key makes a difference**, and every one does, as candidates are never none. -/
theorem sideBySide_append_eq_nested_iff {g : κ → List β} (hs : s.Lists g)
    (outer t : Table κ (List β)) :
    sideBySide (· ++ ·) outer s t = nested outer s t ↔ ∀ k, ¬(k ∈ s.keys ∧ k ∈ t.keys) := by
  refine ⟨?_, sideBySide_eq_nested⟩
  rintro h k ⟨hks, hkt⟩
  -- Under a common key the candidates of `s` come on top of those that are there anyway.
  have hnil : (s.get? k).getD [] = [] := by
    have hget := get?_sideBySide_of_both outer hks hkt
    rw [h, get?_nested_of_mem outer s hkt] at hget
    simpa using hget
  rw [hs k, getD_stored] at hnil
  exact hs.mem_keys_iff.mp hks hnil

end Candidates

end Table

/-! ### Environments side by side or nested -/

namespace Env

/-- `side` has `a` and `b` side by side within `outer`, and `nested` has `b` within `a` within
`outer`. They have the same keys. Under a key that both `a` and `b` have, candidates of `a` are
in `side` only, and come first; under all other keys candidates are the same. Fixities are looked
for in another order. -/
structure DifferWhereBoth (outer a b side nested : Env) : Prop where
  keys : side.terms.keys = nested.terms.keys ∧ side.types.keys = nested.types.keys ∧
    side.fixities.keys = nested.fixities.keys
  termsOfBoth : ∀ k, k ∈ a.terms.keys → k ∈ b.terms.keys →
    side.terms.get? k = some (a.termsAt k ++ b.termsAt k) ∧
      nested.terms.get? k = some (b.termsAt k)
  otherTerms : ∀ k, ¬(k ∈ a.terms.keys ∧ k ∈ b.terms.keys) →
    side.terms.get? k = nested.terms.get? k
  typesOfBoth : ∀ k, k ∈ a.types.keys → k ∈ b.types.keys →
    side.types.get? k = some (a.typesAt k ++ b.typesAt k) ∧
      nested.types.get? k = some (b.typesAt k)
  otherTypes : ∀ k, ¬(k ∈ a.types.keys ∧ k ∈ b.types.keys) →
    side.types.get? k = nested.types.get? k
  fixities : ∀ k,
    side.fixities.get? k =
        (a.fixities.get? k).or ((b.fixities.get? k).or (outer.fixities.get? k)) ∧
      nested.fixities.get? k =
        (b.fixities.get? k).or ((a.fixities.get? k).or (outer.fixities.get? k))

variable {outer a b : Env}

theorem get?_fixities_merge (a b : Env) (k : Name) :
    (a.merge b).fixities.get? k = (a.fixities.get? k).or (b.fixities.get? k) := by
  rw [merge, Table.get?_mergeWith, merge_first]

theorem differWhereBoth (outer a b : Env) :
    DifferWhereBoth outer a b (outer.shadow (a.merge b)) ((outer.shadow a).shadow b) where
  keys := ⟨Table.keys_sideBySide _ _ _ _, Table.keys_sideBySide _ _ _ _,
    Table.keys_sideBySide _ _ _ _⟩
  termsOfBoth _ ha hb := ⟨Table.get?_sideBySide_of_both _ ha hb, Table.get?_nested_of_mem _ _ hb⟩
  otherTerms _ h := Table.get?_sideBySide_of_not_both h
  typesOfBoth _ ha hb := ⟨Table.get?_sideBySide_of_both _ ha hb, Table.get?_nested_of_mem _ _ hb⟩
  otherTypes _ h := Table.get?_sideBySide_of_not_both h
  fixities k := by
    rw [get?_fixities_shadow, get?_fixities_merge, Option.or_assoc, get?_fixities_shadow,
      get?_fixities_shadow]
    exact ⟨rfl, rfl⟩

/-- **When it makes no difference.** If terms are not in common then neither are fixities, as each
comes with its term. -/
theorem shadow_merge_eq_iff {c : Contents} (ha : a.Holds c)
    (haFixities : ∀ k ∈ a.fixities.keys, k ∈ a.terms.keys)
    (hbFixities : ∀ k ∈ b.fixities.keys, k ∈ b.terms.keys) :
    outer.shadow (a.merge b) = (outer.shadow a).shadow b ↔
      (∀ k, ¬(k ∈ a.terms.keys ∧ k ∈ b.terms.keys)) ∧
        ∀ k, ¬(k ∈ a.types.keys ∧ k ∈ b.types.keys) := by
  have hterms := Table.sideBySide_append_eq_nested_iff ha.terms outer.terms b.terms
  have htypes := Table.sideBySide_append_eq_nested_iff ha.types outer.types b.types
  rw [← hterms, ← htypes]
  constructor
  · intro h
    exact ⟨congrArg Env.terms h, congrArg Env.types h⟩
  · rintro ⟨hsameTerms, hsameTypes⟩
    have hfixities : ∀ k, ¬(k ∈ a.fixities.keys ∧ k ∈ b.fixities.keys) := fun k hk =>
      hterms.mp hsameTerms k ⟨haFixities k hk.1, hbFixities k hk.2⟩
    rw [Env.mk.injEq]
    exact ⟨hsameTerms, hsameTypes, Table.sideBySide_eq_nested hfixities⟩

end Env

/-- Where all keys are bare, common keys are common bases. -/
theorem forall_not_both_iff {ks ks' : List Name} {p p' : Identifier → Prop}
    (hks : ∀ k, k ∈ ks ↔ k.owner = none ∧ p k.base)
    (hks' : ∀ k, k ∈ ks' ↔ k.owner = none ∧ p' k.base) :
    (∀ k, ¬(k ∈ ks ∧ k ∈ ks')) ↔ ∀ x, ¬(p x ∧ p' x) := by
  simp only [hks, hks']
  constructor
  · intro h x hx
    exact h (.bare x) ⟨⟨rfl, hx.1⟩, rfl, hx.2⟩
  · rintro h k ⟨⟨-, hp⟩, -, hp'⟩
    exact h k.base ⟨hp, hp'⟩

/-! ### Arms of comprehensions -/

/-- The variables of a clause. -/
def Clause.boundNames : Clause → List (Located Identifier)
  | .generator binder _ => binder.boundNames
  | .binding b => [b.name]

/-- Whether the clause binds the variable `x`. -/
def Clause.Binds (c : Clause) (x : Identifier) : Prop := ∃ y ∈ c.boundNames, y.value = x

namespace Clause

instance (c : Clause) (x : Identifier) : Decidable (c.Binds x) :=
  inferInstanceAs (Decidable (∃ y ∈ c.boundNames, y.value = x))

/-- What clauses introduce side by side. -/
def envAll (cs : List Clause) : Env := Env.ofEntries (cs.flatMap entries)

theorem exists_term_mem_entries_iff (c : Clause) (k : Name) :
    (∃ r, .term k r ∈ c.entries) ↔ k.owner = none ∧ c.Binds k.base := by
  have hbound : ∀ x : Located Identifier, (∃ r, Entry.bound x = .term k r) ↔
      k.owner = none ∧ x.value = k.base := by
    intro x
    obtain ⟨owner, base⟩ := k
    simp [Entry.bound, Name.bare, eq_comm]
  cases c with
  | generator binder _ =>
    simp only [entries, Pattern.entries, List.mem_map, Binds, boundNames]
    rw [exists_comm]
    simp only [exists_and_left, hbound, and_left_comm]
  | binding b =>
    have hfirst : (∃ r, .term k r ∈ b.entries) ↔ ∃ r, Entry.bound b.name = .term k r := by
      simp [Binding.entries, eq_comm]
    rw [entries, hfirst, hbound]
    simp [Binds, boundNames]

theorem notMem_types_keys (cs : List Clause) (k : Name) : k ∉ (envAll cs).types.keys := by
  intro hk
  obtain ⟨r, hr⟩ := Env.mem_records_keys_ofEntries (s := .type).mp hk
  obtain ⟨c, -, hr⟩ := List.mem_flatMap.mp hr
  cases c <;> simp [entries, Pattern.entries, Binding.entries, Entry.bound, Entry.record] at hr

theorem mem_terms_keys_iff (cs : List Clause) (k : Name) :
    k ∈ (envAll cs).terms.keys ↔ k.owner = none ∧ ∃ c ∈ cs, c.Binds k.base := by
  refine (Env.mem_records_keys_ofEntries (s := .term)).trans ?_
  simp only [List.mem_flatMap]
  constructor
  · rintro ⟨r, c, hc, hr⟩
    obtain ⟨howner, hbinds⟩ := (c.exists_term_mem_entries_iff k).mp ⟨r, hr⟩
    exact ⟨howner, c, hc, hbinds⟩
  · rintro ⟨howner, c, hc, hbinds⟩
    obtain ⟨r, hr⟩ := (c.exists_term_mem_entries_iff k).mpr ⟨howner, hbinds⟩
    exact ⟨r, c, hc, hr⟩

theorem clauseScope_append (outer : Env) (xs ys : List Clause) :
    clauseScope outer (xs ++ ys) = outer.shadow ((envAll xs).merge (envAll ys)) := by
  rw [clauseScope, Env.ofEntries_flatMap_append]
  rfl

theorem clauseScope_append_eq_iff (outer : Env) (xs ys : List Clause) :
    clauseScope outer (xs ++ ys) = clauseScope (clauseScope outer xs) ys ↔
      ∀ x, ¬((∃ c ∈ xs, c.Binds x) ∧ ∃ c ∈ ys, c.Binds x) := by
  rw [clauseScope_append]
  refine (Env.shadow_merge_eq_iff (Env.holds_ofEntries _)
    (Env.local_ofClauses xs).coherent.fixities (Env.local_ofClauses ys).coherent.fixities).trans ?_
  rw [← forall_not_both_iff (mem_terms_keys_iff xs) (mem_terms_keys_iff ys)]
  exact and_iff_left fun k hk => notMem_types_keys xs k hk.1

end Clause

/-! ### `where` blocks -/

namespace Declaration

/-- Whether one of the declarations introduces the term `x`. -/
def IntroduceTerm (ds : List Declaration) (x : Identifier) : Prop :=
  ∃ d ∈ ds, d.outline.termSources x ≠ []

/-- Whether one of the declarations introduces the type `x`. -/
def IntroduceType (ds : List Declaration) (x : Identifier) : Prop :=
  ∃ d ∈ ds, d.outline.typeSources x ≠ []

instance (ds : List Declaration) (x : Identifier) : Decidable (IntroduceTerm ds x) :=
  inferInstanceAs (Decidable (∃ d ∈ ds, d.outline.termSources x ≠ []))

instance (ds : List Declaration) (x : Identifier) : Decidable (IntroduceType ds x) :=
  inferInstanceAs (Decidable (∃ d ∈ ds, d.outline.typeSources x ≠ []))

variable {outer a b : Env} {ds ds' : List Declaration}

theorem mem_records_keys_iff (h : envAll ds = .ok a) (s : Referent) (k : Name) :
    k ∈ (a.records s).keys ↔ k.owner = none ∧ ∃ d ∈ ds, d.outline.sources s k.base ≠ [] := by
  rw [((holds_of_envAll h).records s).mem_keys_iff, members_records_ne_nil_iff]
  simp

/-- One scope and two nested ones have the same failure. -/
theorem localScope_append_eq_error_iff (outer : Env) (ds ds' : List Declaration) (e : ScopeError) :
    localScope outer (ds ++ ds') = .error e ↔
      (localScope outer ds >>= (localScope · ds')) = .error e := by
  simp only [localScope, envAll_append]
  cases envAll ds with
  | error cause => rfl
  | ok a => cases envAll ds' <;> simp [Env.mergeInTurn, bind, Except.bind, pure, Except.pure]

theorem localScope_append_eq_ok (outer : Env) (ha : envAll ds = .ok a) (hb : envAll ds' = .ok b) :
    localScope outer (ds ++ ds') = .ok (outer.shadow (a.merge b)) ∧
      (localScope outer ds >>= (localScope · ds')) = .ok ((outer.shadow a).shadow b) := by
  simp [localScope, envAll_append, ha, hb, Env.mergeInTurn, bind, Except.bind, pure, Except.pure]

/-- Declarations of which one was left behind have no scope, in one piece or in two. -/
theorem localScope_append_of_leftBehind (outer : Env) {ds ds' : List Declaration}
    (h : ∃ d ∈ ds ++ ds', d.LeftBehind) :
    ∃ cause, FirstReported (ds ++ ds') cause ∧
      localScope outer (ds ++ ds') = .error (.undesugared cause) ∧
      (localScope outer ds >>= (localScope · ds')) = .error (.undesugared cause) := by
  obtain ⟨cause, hcause⟩ := exists_error_iff.mpr h
  have hscope : localScope outer (ds ++ ds') = .error (.undesugared cause) := by
    rw [localScope, hcause]
  exact ⟨cause, envAll_eq_error_iff.mp hcause, hscope,
    (localScope_append_eq_error_iff outer ds ds' _).mp hscope⟩

theorem shadow_merge_eq_iff (ha : envAll ds = .ok a) (hb : envAll ds' = .ok b) :
    outer.shadow (a.merge b) = (outer.shadow a).shadow b ↔
      (∀ x, ¬(IntroduceTerm ds x ∧ IntroduceTerm ds' x)) ∧
        ∀ x, ¬(IntroduceType ds x ∧ IntroduceType ds' x) := by
  have hterms : (∀ k, ¬(k ∈ a.terms.keys ∧ k ∈ b.terms.keys)) ↔
      ∀ x, ¬(IntroduceTerm ds x ∧ IntroduceTerm ds' x) :=
    forall_not_both_iff (mem_records_keys_iff ha .term) (mem_records_keys_iff hb .term)
  have htypes : (∀ k, ¬(k ∈ a.types.keys ∧ k ∈ b.types.keys)) ↔
      ∀ x, ¬(IntroduceType ds x ∧ IntroduceType ds' x) :=
    forall_not_both_iff (mem_records_keys_iff ha .type) (mem_records_keys_iff hb .type)
  rw [Env.shadow_merge_eq_iff (holds_of_envAll ha) (Env.local_of_envAll ha).coherent.fixities
    (Env.local_of_envAll hb).coherent.fixities, hterms, htypes]

end Declaration

/-! ### One scope or two -/

/-- **Side by side or nested.** Two lists of clauses in one scope and in two nested scopes have
the same keys, and differ just under the variables that both bind: there the one scope has the
candidates of both lists, and the nested scopes those of the inner list. Of two fixities the one
scope has that of the first list and the nested scopes that of the second. So they are equal if and
only if no variable is bound by both lists. It is the same for declarations, with types as well as
terms, unless one of them was left behind; then both fail in the same way. -/
theorem sideBySide_or_nested (outer : Env) :
    (∀ xs ys : List Clause,
      Env.DifferWhereBoth outer (Clause.envAll xs) (Clause.envAll ys)
        (clauseScope outer (xs ++ ys)) (clauseScope (clauseScope outer xs) ys) ∧
      (∀ k, k ∈ (Clause.envAll xs).terms.keys ↔ k.owner = none ∧ ∃ c ∈ xs, c.Binds k.base) ∧
      (clauseScope outer (xs ++ ys) = clauseScope (clauseScope outer xs) ys ↔
        ∀ x, ¬((∃ c ∈ xs, c.Binds x) ∧ ∃ c ∈ ys, c.Binds x))) ∧
    ∀ ds ds' : List Declaration,
      ((∃ d ∈ ds ++ ds', d.LeftBehind) → ∃ cause, Declaration.FirstReported (ds ++ ds') cause ∧
        localScope outer (ds ++ ds') = .error (.undesugared cause) ∧
        (localScope outer ds >>= (localScope · ds')) = .error (.undesugared cause)) ∧
      ((∀ d ∈ ds ++ ds', ¬d.LeftBehind) → ∃ a b side nested,
        Declaration.envAll ds = .ok a ∧ Declaration.envAll ds' = .ok b ∧
        localScope outer (ds ++ ds') = .ok side ∧
        (localScope outer ds >>= (localScope · ds')) = .ok nested ∧
        Env.DifferWhereBoth outer a b side nested ∧
        (∀ k,
          (k ∈ a.terms.keys ↔ k.owner = none ∧ Declaration.IntroduceTerm ds k.base) ∧
          (k ∈ a.types.keys ↔ k.owner = none ∧ Declaration.IntroduceType ds k.base) ∧
          (k ∈ b.terms.keys ↔ k.owner = none ∧ Declaration.IntroduceTerm ds' k.base) ∧
          (k ∈ b.types.keys ↔ k.owner = none ∧ Declaration.IntroduceType ds' k.base)) ∧
        (side = nested ↔
          (∀ x, ¬(Declaration.IntroduceTerm ds x ∧ Declaration.IntroduceTerm ds' x)) ∧
            ∀ x, ¬(Declaration.IntroduceType ds x ∧ Declaration.IntroduceType ds' x))) := by
  refine ⟨fun xs ys => ⟨?_, Clause.mem_terms_keys_iff xs,
    Clause.clauseScope_append_eq_iff outer xs ys⟩,
    fun ds ds' => ⟨Declaration.localScope_append_of_leftBehind outer, fun h => ?_⟩⟩
  · rw [Clause.clauseScope_append]
    exact Env.differWhereBoth outer _ _
  · rw [List.forall_mem_append] at h
    obtain ⟨a, ha⟩ := Declaration.exists_envAll_iff.mpr h.1
    obtain ⟨b, hb⟩ := Declaration.exists_envAll_iff.mpr h.2
    obtain ⟨hside, hnested⟩ := Declaration.localScope_append_eq_ok outer ha hb
    refine ⟨a, b, _, _, ha, hb, hside, hnested, Env.differWhereBoth outer a b, fun k => ?_,
      Declaration.shadow_merge_eq_iff ha hb⟩
    exact ⟨Declaration.mem_records_keys_iff ha .term k, Declaration.mem_records_keys_iff ha .type k,
      Declaration.mem_records_keys_iff hb .term k, Declaration.mem_records_keys_iff hb .type k⟩

/-- A generator of pairs, of which the first part is `x`. -/
def pairOfX : Clause := .generator (.tuple [.bind ⟨.onRow 3 1 2, ⟨"x"⟩⟩, .wildcard]) (.tuple [])

/-- A generator of lists of two elements, of which the first, within a range, is `x` again. -/
def listOfXAndY : Clause :=
  .generator (.list [.located (.onRow 3 5 6) (.bind ⟨.onRow 3 5 6, ⟨"x"⟩⟩),
    .bind ⟨.onRow 3 7 8, ⟨"y"⟩⟩]) (.name ⟨.onRow 3 9 10, .bare ⟨"+"⟩⟩)

/-- A binding of `+` that makes it bind to the left. -/
def leftPlus : Declaration :=
  .binding ⟨⟨.onRow 1 1 2, ⟨"+"⟩⟩, [], none, none, [], some ⟨.left, 7⟩, true⟩

/-- A binding of `+`, within a range, that makes it bind to the right. -/
def rightPlus : Declaration :=
  .located (.onRow 2 1 9) (.binding
    ⟨⟨.onRow 2 1 2, ⟨"+"⟩⟩, [], none, none, [], some ⟨.right, 5⟩, true⟩)

/-- Both generators bind `x` and one of them binds `y`, which is imported as well; both bindings are
of `+`. -/
theorem sideBySide_or_nested_plus :
    (let side := clauseScope plusOuter ([pairOfX] ++ [listOfXAndY])
      let nested := clauseScope (clauseScope plusOuter [pairOfX]) [listOfXAndY]
      side.terms.get? (.bare ⟨"x"⟩) =
          some [⟨.binding (.onRow 3 1 2), .bare ⟨"x"⟩⟩, ⟨.binding (.onRow 3 5 6), .bare ⟨"x"⟩⟩] ∧
        nested.terms.get? (.bare ⟨"x"⟩) = some [⟨.binding (.onRow 3 5 6), .bare ⟨"x"⟩⟩] ∧
        side.terms.get? (.bare ⟨"y"⟩) = nested.terms.get? (.bare ⟨"y"⟩) ∧ side ≠ nested) ∧
    (∀ d ∈ [leftPlus] ++ [rightPlus], ¬d.LeftBehind) ∧
      ∃ side nested, localScope plusOuter ([leftPlus] ++ [rightPlus]) = .ok side ∧
        (localScope plusOuter [leftPlus] >>= (localScope · [rightPlus])) = .ok nested ∧
        side.terms.get? (.bare ⟨"+"⟩) =
          some [⟨.binding (.onRow 1 1 2), .bare ⟨"+"⟩⟩, ⟨.binding (.onRow 2 1 2), .bare ⟨"+"⟩⟩] ∧
        nested.terms.get? (.bare ⟨"+"⟩) = some [⟨.binding (.onRow 2 1 2), .bare ⟨"+"⟩⟩] ∧
        side.fixities.get? (.bare ⟨"+"⟩) = some [⟨.left, 7⟩] ∧
        nested.fixities.get? (.bare ⟨"+"⟩) = some [⟨.right, 5⟩] ∧
        side.terms.get? (.bare ⟨"y"⟩) = nested.terms.get? (.bare ⟨"y"⟩) ∧ side ≠ nested := by
  have hnone : ∀ d ∈ [leftPlus] ++ [rightPlus], ¬d.LeftBehind := by
    simp only [← Declaration.undesugared_eq_none_iff]
    decide
  refine ⟨?arms, hnone, ?blocks⟩
  case arms =>
    obtain ⟨hdiffer, hbinds, heq⟩ := (sideBySide_or_nested plusOuter).1 [pairOfX] [listOfXAndY]
    obtain ⟨hsideTerms, hnestedTerms⟩ := hdiffer.termsOfBoth (.bare ⟨"x"⟩)
      ((hbinds _).mpr (by decide)) ((Clause.mem_terms_keys_iff _ _).mpr (by decide))
    have hholds : ∀ cs, (Clause.envAll cs).Holds
        (.gather (cs.flatMap Clause.entries) Entry.contents) := fun _ => Env.holds_ofEntries _
    refine ⟨?_, ?_, ?_, ?_⟩
    · rw [hsideTerms, (hholds _).termsAt_eq, (hholds _).termsAt_eq]
      decide
    · rw [hnestedTerms, (hholds _).termsAt_eq]
      decide
    · refine hdiffer.otherTerms _ fun hboth => ?_
      exact absurd ((hbinds _).mp hboth.1) (by decide)
    · exact fun hsame => heq.mp hsame ⟨"x"⟩ (by decide)
  case blocks =>
    obtain ⟨a, b, side, nested, ha, hb, hside, hnested, hdiffer, hkeys, heq⟩ :=
      ((sideBySide_or_nested plusOuter).2 [leftPlus] [rightPlus]).2 hnone
    have ha' := Declaration.holds_of_envAll ha
    have hb' := Declaration.holds_of_envAll hb
    obtain ⟨hsideTerms, hnestedTerms⟩ := hdiffer.termsOfBoth (.bare ⟨"+"⟩)
      ((hkeys _).1.mpr (by decide)) ((hkeys _).2.2.1.mpr (by decide))
    refine ⟨side, nested, hside, hnested, ?_, ?_, ?_, ?_, ?_, ?_⟩
    · rw [hsideTerms, ha'.termsAt_eq, hb'.termsAt_eq]
      decide
    · rw [hnestedTerms, hb'.termsAt_eq]
      decide
    · rw [(hdiffer.fixities _).1, ha'.get?_fixities]
      rfl
    · rw [(hdiffer.fixities _).2, hb'.get?_fixities]
      rfl
    · refine hdiffer.otherTerms _ fun hboth => ?_
      exact absurd ((hkeys _).1.mp hboth.1) (by decide)
    · exact fun hsame => (heq.mp hsame).1 ⟨"+"⟩ (by decide)

end Scoping
