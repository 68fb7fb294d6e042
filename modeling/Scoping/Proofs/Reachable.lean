import Scoping.Proofs.Failures
import Scoping.Proofs.LocalScopes
import Scoping.Proofs.ModuleScope

/-!
# What lookups tell of an environment

The tables of an environment could hold empty lists, and several fixities of one operator. A lookup
would not notice: it finds no candidates for a key with an empty list, and only ever the first of
several fixities. But no environment that the library produces is like that, whatever the interfaces
it starts from, and whatever names are renamed to. So all there is to know of such an environment
can be had by looking up names, and two of them that answer alike are equal.

## Main definitions

* `Env.Tidy` — candidates under every key, and one fixity of each operator
* `Env.Reachable` — the environments that can be produced, operation by operation

## Main results

* `Env.Tidy.holds` — a tidy environment is what lookups say of it
* `Env.Tidy.shadow`, `Env.Tidy.mapKeys`, `Env.Tidy.tryMapTargets` — the operations keep this up
* `Env.Reachable.tidy` — whatever can be produced is tidy
* `Env.Reachable.determined_by_lookups` — what this means for lookups
-/

namespace Scoping

/-! ### Tidy environments -/

theorem stored_of_ne_nil {α : Type} {l : List α} (h : l ≠ []) : stored l = some l := if_neg h

/-- A table without empty entries is the table of its lookups. -/
theorem Table.lists_of_ne_nil {κ α : Type} [Ord κ] {t : Table κ (List α)}
    (h : ∀ k l, t.get? k = some l → l ≠ []) : t.Lists fun k => (t.get? k).getD [] := by
  intro k
  show t.get? k = stored ((t.get? k).getD [])
  cases hget : t.get? k with
  | none => rfl
  | some l => exact (stored_of_ne_nil (h k l hget)).symm

theorem Table.Lists.ne_nil {κ α : Type} [Ord κ] {t : Table κ (List α)} {f : κ → List α}
    (h : t.Lists f) {k : κ} {l : List α} (hl : t.get? k = some l) : l ≠ [] := by
  rintro rfl
  rw [h k, stored, ite_eq_iff] at hl
  rcases hl with ⟨-, hnone⟩ | ⟨hne, hsome⟩
  · contradiction
  · exact hne (Option.some.inj hsome)

/-- Replacing the members of lists one by one makes no list empty. -/
theorem Table.ne_nil_of_tryMap {κ α β ε : Type} [Ord κ] {g : α → Except ε β}
    {t : Table κ (List α)} {t' : Table κ (List β)} (h : t.tryMap (List.mapM g) = .ok t')
    (hne : ∀ k l, t.get? k = some l → l ≠ []) (k : κ) (l : List β) (hl : t'.get? k = some l) :
    l ≠ [] := by
  obtain ⟨l', hl', hmap⟩ := get?_of_tryMap h hl
  exact ne_nil_of_mapM hmap (hne k l' hl')

namespace Env

/-- Under every key there is a candidate, and an operator has one fixity. -/
structure Tidy (e : Env) : Prop where
  terms : ∀ k l, e.terms.get? k = some l → l ≠ []
  types : ∀ k l, e.types.get? k = some l → l ≠ []
  fixities : ∀ k l, e.fixities.get? k = some l → ∃ f, l = [f]

/-- What lookups say of each name. -/
def contents (e : Env) : Contents := ⟨e.termsAt, e.typesAt, e.fixityAt⟩

theorem Holds.tidy {e : Env} {c : Contents} (h : e.Holds c) : e.Tidy where
  terms _ _ hl := h.terms.ne_nil hl
  types _ _ hl := h.types.ne_nil hl
  fixities k l hl := by
    rw [h.get?_fixities] at hl
    cases hf : c.fixity k with
    | none => simp [hf] at hl
    | some f =>
      have hsingle : [f] = l := by simpa [hf] using hl
      exact ⟨f, hsingle.symm⟩

/-- **A tidy environment is what lookups say of it.** -/
theorem Tidy.holds {e : Env} (h : e.Tidy) : e.Holds e.contents where
  terms := Table.lists_of_ne_nil h.terms
  types := Table.lists_of_ne_nil h.types
  fixities k := by
    show e.fixities.get? k = stored (e.fixityAt k).toList
    rw [fixityAt]
    cases hget : e.fixities.get? k with
    | none => rfl
    | some l =>
      obtain ⟨f, rfl⟩ := h.fixities k l hget
      rfl

/-! ### What lookups tell of a tidy environment -/

theorem isEmpty_iff {e : Env} : e.isEmpty = true ↔ e = ∅ := by
  obtain ⟨terms, types, fixities⟩ := e
  rw [isEmpty, Bool.and_eq_true, Bool.and_eq_true, Table.isEmpty_iff, Table.isEmpty_iff,
    Table.isEmpty_iff, and_assoc]
  exact (Env.mk.injEq ..).symm.to_iff

namespace Tidy

variable {e a b : Env}

theorem termsAt_ne_nil_iff (h : e.Tidy) {k : Name} : e.termsAt k ≠ [] ↔ k ∈ e.terms.keys :=
  h.holds.mem_terms_keys_iff.symm

theorem typesAt_ne_nil_iff (h : e.Tidy) {k : Name} : e.typesAt k ≠ [] ↔ k ∈ e.types.keys :=
  h.holds.mem_types_keys_iff.symm

theorem fixityAt_ne_none_iff (h : e.Tidy) {k : Name} :
    e.fixityAt k ≠ none ↔ k ∈ e.fixities.keys := h.holds.mem_fixities_keys_iff.symm

/-- **Tidy environments that answer alike are equal.** -/
theorem eq_iff (ha : a.Tidy) (hb : b.Tidy) : a = b ↔
    ∀ k, a.termsAt k = b.termsAt k ∧ a.typesAt k = b.typesAt k ∧ a.fixityAt k = b.fixityAt k := by
  constructor
  · rintro rfl k
    exact ⟨rfl, rfl, rfl⟩
  · intro h
    have hcontents : a.contents = b.contents := by
      ext1 <;> funext k
      · exact (h k).1
      · exact (h k).2.1
      · exact (h k).2.2
    refine ha.holds.unique ?_
    rw [hcontents]
    exact hb.holds

end Tidy

/-! ### Operations on tidy environments -/

theorem tidy_empty : (∅ : Env).Tidy := holds_empty.tidy

theorem tidy_ofEntries (l : List Entry) : (ofEntries l).Tidy := (holds_ofEntries l).tidy

theorem tidy_mergeAll {l : List Env} (h : ∀ e ∈ l, e.Tidy) : (mergeAll l).Tidy := by
  have hholds := holds_mergeAll (f := id) fun e he => (h e he).holds
  rw [List.map_id] at hholds
  exact hholds.tidy

namespace Tidy

variable {e e' a b outer inner : Env}

theorem merge (ha : a.Tidy) (hb : b.Tidy) : (a.merge b).Tidy := (ha.holds.merge hb.holds).tidy

/-- Each entry is one of the inner or one of the outer environment as it stands. -/
theorem shadow (houter : outer.Tidy) (hinner : inner.Tidy) : (outer.shadow inner).Tidy where
  terms k l hl := (Table.get?_of_mergeWith_last hl).elim (hinner.terms k l) (houter.terms k l)
  types k l hl := (Table.get?_of_mergeWith_last hl).elim (hinner.types k l) (houter.types k l)
  fixities k l hl :=
    (Table.get?_of_mergeWith_last hl).elim (hinner.fixities k l) (houter.fixities k l)

theorem mapTargets (h : e.Tidy) (f : Name → Name) : (e.mapTargets f).Tidy :=
  (h.holds.mapTargets f).tidy

theorem filterKeys (h : e.Tidy) (p : Name → Bool) : (e.filterKeys p).Tidy :=
  (h.holds.filterKeys p).tidy

/-- However keys collide, a key to which something is moved gets its candidates. -/
theorem mapKeys (h : e.Tidy) (f : Name → Name) : (e.mapKeys f).Tidy := by
  -- Each table goes by its own keys, so there is no need for a list of the keys of all three.
  have hrecords := fun s => (h.holds.records s).mapKeys_append (e.records s).sorted
    (fun q => (h.holds.records s).mem_keys_iff.mpr) f
  have hfixities := h.holds.fixities.mapKeys_first e.fixities.sorted
    (fun q hq => h.fixityAt_ne_none_iff.mp hq) f
  have hholds : (e.mapKeys f).Holds ⟨_, _, _⟩ := ⟨hrecords .term, hrecords .type, hfixities⟩
  exact hholds.tidy

theorem qualify (h : e.Tidy) (m : ModuleName) : (e.qualify m).Tidy := (h.mapTargets _).mapKeys _

theorem tryMapTargets {ε : Type} {f : Name → Except ε Name} (h : e.Tidy)
    (hok : e.tryMapTargets f = .ok e') : e'.Tidy := by
  obtain ⟨terms, hterms, hok⟩ := exists_of_bind_eq_ok hok
  obtain ⟨types, htypes, hok⟩ := exists_of_bind_eq_ok hok
  obtain rfl : ⟨terms, types, e.fixities⟩ = e' := Except.ok.inj hok
  exact ⟨Table.ne_nil_of_tryMap hterms h.terms, Table.ne_nil_of_tryMap htypes h.types, h.fixities⟩

end Tidy

end Env

/-! ### Rules that make tidy environments -/

section Rules

variable {e outer : Env} {m : Module} {l : Library}

theorem Declaration.tidy_of_envAll {ds : List Declaration} (h : envAll ds = .ok e) : e.Tidy :=
  (holds_of_envAll h).tidy

theorem Declaration.tidy_of_env {d : Declaration} (h : d.env = .ok e) : e.Tidy := by
  rw [eq_ofEntries_of_env h]
  exact Env.tidy_ofEntries _

/-- It makes no difference whether all declarations of a module are its members or some of them. -/
theorem Declaration.tidy_of_map_qualify {ds : List Declaration} {n : ModuleName}
    (h : (envAll ds).map (Env.qualify n) = .ok e) : e.Tidy := (holds_of_map_qualify h).tidy

theorem Module.tidy_of_envAll {ms : List Module} (h : envAll ms = .ok e) : e.Tidy := by
  obtain ⟨envs, henvs, rfl⟩ := exists_of_map_eq_ok h
  refine Env.tidy_mergeAll fun own hown => ?_
  obtain ⟨m, -, hm⟩ := exists_of_mem_of_mapM henvs hown
  exact Declaration.tidy_of_map_qualify hm

theorem Library.tidy_of_importsEnv (h : l.importsEnv m = .ok e) : e.Tidy :=
  (holds_of_importsEnv h).tidy

theorem Library.tidy_of_moduleScope (h : l.moduleScope m = .ok e) : e.Tidy := by
  obtain ⟨imports, own, himports, hown, rfl⟩ := exists_of_moduleScope h
  exact (tidy_of_importsEnv himports).shadow (Declaration.tidy_of_map_qualify hown)

theorem Env.Tidy.localScope (houter : outer.Tidy) {ds : List Declaration}
    (h : localScope outer ds = .ok e) : e.Tidy := by
  obtain ⟨inner, hinner, rfl⟩ := exists_of_localScope h
  exact houter.shadow (Declaration.tidy_of_envAll hinner)

end Rules

/-! ### All that can be produced -/

namespace Env

/-- The environments that can be produced by finitely many operations of the library. Names may be
renamed and dropped in any way, and interfaces may have anything filed under any key. -/
inductive Reachable : Env → Prop where
  -- Operations on environments.
  | empty : Reachable ∅
  | entry (x : Entry) : Reachable x.env
  | merge {a b : Env} : Reachable a → Reachable b → Reachable (a.merge b)
  | shadow {outer inner : Env} : Reachable outer → Reachable inner →
      Reachable (outer.shadow inner)
  | mergeAll {l : List Env} : (∀ e ∈ l, Reachable e) → Reachable (mergeAll l)
  | mapTargets {e : Env} (f : Name → Name) : Reachable e → Reachable (e.mapTargets f)
  | tryMapTargets {ε : Type} {e e' : Env} (f : Name → Except ε Name) : Reachable e →
      e.tryMapTargets f = .ok e' → Reachable e'
  | mapKeys {e : Env} (f : Name → Name) : Reachable e → Reachable (e.mapKeys f)
  | qualify {e : Env} (m : ModuleName) : Reachable e → Reachable (e.qualify m)
  | filterKeys {e : Env} (p : Name → Bool) : Reachable e → Reachable (e.filterKeys p)
  -- What syntax brings into scope.
  | binding (b : Binding) : Reachable (ofEntries b.entries)
  | pattern (p : Pattern) : Reachable (ofEntries p.entries)
  | clause (c : Clause) : Reachable (ofEntries c.entries)
  | typeParam (p : TypeParam) : Reachable (ofEntries [p.entry])
  | signature (s : Signature) : Reachable (ofEntries s.entries)
  | synonym (s : Synonym) : Reachable (ofEntries [s.entry])
  | newtype (n : Newtype) : Reachable (ofEntries n.entries)
  | declaration {d : Declaration} {e : Env} : d.env = .ok e → Reachable e
  | declarations {ds : List Declaration} {e : Env} : Declaration.envAll ds = .ok e → Reachable e
  | members {m : Module} {e : Env} : m.env = .ok e → Reachable e
  | exportedMembers {m : Module} {e : Env} : m.exportedEnv = .ok e → Reachable e
  | allMembers {ms : List Module} {e : Env} : Module.envAll ms = .ok e → Reachable e
  -- What interfaces bring into scope.
  | exports (x : Exports) : Reachable x.env
  | imported (i : Import) (x : Exports) : Reachable (i.env x)
  | imports {l : Library} {m : Module} {e : Env} : l.importsEnv m = .ok e → Reachable e
  -- Scopes.
  | moduleScope {l : Library} {m : Module} {e : Env} : l.moduleScope m = .ok e → Reachable e
  | localScope {outer e : Env} {ds : List Declaration} : Reachable outer →
      localScope outer ds = .ok e → Reachable e
  | clauseScope {outer : Env} (cs : List Clause) : Reachable outer →
      Reachable (clauseScope outer cs)
  | bindingScope {outer e : Env} {b : Binding} : Reachable outer →
      bindingScope outer b = .ok e → Reachable e

/-- **Whatever can be produced is tidy.** -/
theorem Reachable.tidy {e : Env} (h : e.Reachable) : e.Tidy := by
  induction h with
  | empty => exact tidy_empty
  | entry x => exact x.holds_env.tidy
  | merge _ _ iha ihb => exact iha.merge ihb
  | shadow _ _ ihouter ihinner => exact ihouter.shadow ihinner
  | mergeAll _ ih => exact tidy_mergeAll ih
  | mapTargets f _ ih => exact ih.mapTargets f
  | tryMapTargets f _ hok ih => exact ih.tryMapTargets hok
  | mapKeys f _ ih => exact ih.mapKeys f
  | qualify m _ ih => exact ih.qualify m
  | filterKeys p _ ih => exact ih.filterKeys p
  | binding | pattern | clause | typeParam | signature | synonym | newtype =>
    exact tidy_ofEntries _
  | declaration h => exact Declaration.tidy_of_env h
  | declarations h => exact Declaration.tidy_of_envAll h
  | members h | exportedMembers h => exact Declaration.tidy_of_map_qualify h
  | allMembers h => exact Module.tidy_of_envAll h
  | exports x => exact x.holds_env.tidy
  | imported i x => exact (i.holds_env x).tidy
  | imports h => exact Library.tidy_of_importsEnv h
  | moduleScope h => exact Library.tidy_of_moduleScope h
  | localScope _ h ih => exact ih.localScope h
  | clauseScope cs _ ih => exact ih.shadow (tidy_ofEntries _)
  | bindingScope _ h ih => exact (ih.shadow (tidy_ofEntries _)).localScope h

/-- **Lookups determine what can be produced.** No key of a reachable environment is without a
candidate and no operator has several fixities. So a lookup finds something under the keys that are
there and nowhere else, an environment in which nothing is found is empty, and two of them in which
the same is found are equal. -/
theorem Reachable.determined_by_lookups {e : Env} (h : e.Reachable) :
    (∀ k l, e.terms.get? k = some l → l ≠ []) ∧ (∀ k l, e.types.get? k = some l → l ≠ []) ∧
    (∀ k l, e.fixities.get? k = some l → ∃ f, l = [f]) ∧
    (∀ k, (e.termsAt k ≠ [] ↔ k ∈ e.terms.keys) ∧ (e.typesAt k ≠ [] ↔ k ∈ e.types.keys) ∧
      (e.fixityAt k ≠ none ↔ k ∈ e.fixities.keys)) ∧
    (e.isEmpty = true ↔ ∀ k, e.termsAt k = [] ∧ e.typesAt k = [] ∧ e.fixityAt k = none) ∧
    ∀ e' : Env, e'.Reachable → (e = e' ↔ ∀ k, e.termsAt k = e'.termsAt k ∧
      e.typesAt k = e'.typesAt k ∧ e.fixityAt k = e'.fixityAt k) := by
  have htidy := h.tidy
  refine ⟨htidy.terms, htidy.types, htidy.fixities, fun k => ?_, ?_, fun e' he' => ?_⟩
  · exact ⟨htidy.termsAt_ne_nil_iff, htidy.typesAt_ne_nil_iff, htidy.fixityAt_ne_none_iff⟩
  · rw [isEmpty_iff]
    exact htidy.eq_iff tidy_empty
  · exact htidy.eq_iff he'.tidy

/-- Exports under three keys, one of which has nothing filed under it, moved to a single key. -/
def plusMoved : Env := Library.plusExports.env.mapKeys fun _ => .bare ⟨"+"⟩

theorem determined_by_lookups_plusMoved :
    plusMoved.Reachable ∧ .bare ⟨"+"⟩ ∈ plusMoved.terms.keys ∧ plusMoved.isEmpty = false ∧
      plusMoved ≠ Library.plusExports.env := by
  have hreachable : plusMoved.Reachable := .mapKeys _ (.exports _)
  obtain ⟨-, -, -, hkeys, hempty, hequal⟩ := hreachable.determined_by_lookups
  refine ⟨hreachable, (hkeys _).1.mp (by decide), ?_, ?_⟩
  · rw [← Bool.not_eq_true, hempty]
    intro hnothing
    exact absurd (hnothing (.bare ⟨"+"⟩)).1 (by decide)
  · rw [ne_eq, hequal _ (.exports _)]
    intro hsame
    exact absurd (hsame (.bare ⟨"+"⟩)).1 (by decide)

end Env

end Scoping
