import Scoping.Proofs.BuiltInterfaces
import Scoping.Proofs.Failures
import Scoping.Proofs.LoadOrder
import Scoping.Proofs.LocalScopes
import Scoping.Proofs.ModuleScope

/-!
# What names in scope refer to

A key is how a name is written in a scope, and a target is what it stands for. Only imports take the
two apart, by giving an exported name another owner or none, and even they leave the base alone. A
name that was declared where it is in scope stands for itself: bare in a local scope, and owned by
the module at the top level, where keys and targets get their owner together.

Fixities live in a table of their own and are combined by rules of their own, so it is not clear
from the outset that there is a term for every fixity. But a fixity is only ever introduced together
with its term, and no rule drops or moves the one without the other.

All this holds of whatever is compiled from syntax and from interfaces that are built export by
export, however deep scopes are nested. A table of exports that comes from elsewhere may have
anything filed under a key, and then nothing of the kind can be said.

## Main definitions

* `Table.Resolves`, `Env.Coherent` — targets go with their keys, and fixities with their terms
* `Env.Local` — a coherent environment in which all names are bare
* `Env.Nested`, `Env.Compiled` — scopes in a scope, and all environments that compiling brings up

## Main results

* `Env.Coherent.merge`, `Env.Coherent.shadow`, `Env.Coherent.mapKeys`, `Env.Coherent.qualify` — what
  each operation preserves
* `Env.Nested.exists_local` — what a local scope puts into the scope around it
* `Env.Compiled.coherent` — whatever is compiled is coherent
* `Env.Compiled.resolves` — what this means for keys and records
-/

namespace Scoping

variable {owners : List (Option ModuleName)}

/-! ### Records and their keys -/

namespace Table

variable {σ : Type} {imported : σ} {s t : Table Name (List (Record σ))}

/-- Every record refers to a name with the base of its key, and to the key itself unless it was
imported. Then the key is owned by one of `owners`, or bare if `none` is among them. -/
def Resolves (imported : σ) (owners : List (Option ModuleName))
    (t : Table Name (List (Record σ))) : Prop :=
  ∀ k, ∀ r ∈ (t.get? k).getD [], r.target.base = k.base ∧
    (r.source ≠ imported → r.target = k ∧ k.owner ∈ owners)

theorem resolves_empty : (∅ : Table Name (List (Record σ))).Resolves imported owners :=
  fun _ _ hr => nomatch hr

namespace Resolves

theorem mono {owners' : List (Option ModuleName)} (h : t.Resolves imported owners)
    (howners : owners ⊆ owners') : t.Resolves imported owners' := by
  intro k r hr
  obtain ⟨hbase, hlocal⟩ := h k r hr
  exact ⟨hbase, fun hsource => (hlocal hsource).imp_right fun howner => howners howner⟩

theorem append (hs : s.Resolves imported owners) (ht : t.Resolves imported owners) :
    (s.mergeWith (· ++ ·) t).Resolves imported owners :=
  fun k r hr => (mem_getD_mergeWith_append.mp hr).elim (hs k r) (ht k r)

theorem last (hs : s.Resolves imported owners) (ht : t.Resolves imported owners) :
    (s.mergeWith (fun _ last => last) t).Resolves imported owners := by
  intro k r hr
  rw [get?_mergeWith_last] at hr
  cases hget : t.get? k with
  | none => exact hs k r (by simpa [hget] using hr)
  | some l => exact ht k r (by simpa [hget] using hr)

theorem filterKeys (h : t.Resolves imported owners) (p : Name → Bool) :
    (t.filterKeys p).Resolves imported owners := by
  intro k r hr
  rw [get?_filterKeys] at hr
  split at hr
  · exact h k r hr
  · contradiction

/-- Where there are only imported names, keys can be moved as long as they keep their base. -/
theorem mapKeys (h : t.Resolves imported []) {f : Name → Name} (hf : ∀ q, (f q).base = q.base) :
    (t.mapKeys (· ++ ·) f).Resolves imported [] := by
  intro k r hr
  obtain ⟨q, rfl, hq⟩ := mem_getD_mapKeys_append.mp hr
  obtain ⟨hbase, hlocal⟩ := h q r hq
  exact ⟨hbase.trans (hf q).symm, fun hsource => nomatch (hlocal hsource).2⟩

/-- Keys and targets that get the same owner agree if they agreed on the base before. -/
theorem qualify (h : t.Resolves imported owners) (n : ModuleName) :
    ((t.map (List.map (Record.mapTarget (·.inModule n)))).mapKeys (· ++ ·)
      (·.inModule n)).Resolves imported [some n] := by
  intro k r hr
  obtain ⟨q, rfl, hq⟩ := mem_getD_mapKeys_append.mp hr
  have hmapped : r ∈ ((t.get? q).getD []).map (Record.mapTarget (·.inModule n)) := by
    rw [get?_map] at hq
    cases hget : t.get? q with
    | none => simp [hget] at hq
    | some l => simpa [hget] using hq
  obtain ⟨r', hr', rfl⟩ := List.mem_map.mp hmapped
  have hbase : r'.target.base = q.base := (h q r' hr').1
  exact ⟨hbase, fun _ => ⟨congrArg (Name.qualified n) hbase, List.mem_singleton_self _⟩⟩

end Resolves

end Table

/-! ### Coherent environments -/

namespace Env

/-- Targets go with their keys, and for every fixity there is a term. -/
structure Coherent (owners : List (Option ModuleName)) (e : Env) : Prop where
  terms : e.terms.Resolves .imported owners
  types : e.types.Resolves .imported owners
  fixities : ∀ k ∈ e.fixities.keys, k ∈ e.terms.keys

theorem coherent_empty : (∅ : Env).Coherent owners :=
  ⟨Table.resolves_empty, Table.resolves_empty, fun _ hk => nomatch hk⟩

namespace Coherent

variable {a b e outer inner : Env}

theorem mono {owners' : List (Option ModuleName)} (h : e.Coherent owners)
    (howners : owners ⊆ owners') : e.Coherent owners' :=
  ⟨h.terms.mono howners, h.types.mono howners, h.fixities⟩

theorem merge (ha : a.Coherent owners) (hb : b.Coherent owners) : (a.merge b).Coherent owners where
  terms := ha.terms.append hb.terms
  types := ha.types.append hb.types
  fixities _ hk := Table.mem_keys_mergeWith.mpr <|
    (Table.mem_keys_mergeWith.mp hk).imp (ha.fixities _) (hb.fixities _)

theorem mergeAll {l : List Env} (h : ∀ e ∈ l, e.Coherent owners) :
    (mergeAll l).Coherent owners := by
  induction l with
  | nil => exact coherent_empty
  | cons e l ih =>
    rw [List.forall_mem_cons] at h
    rw [mergeAll_cons]
    exact h.1.merge (ih h.2)

theorem shadow (houter : outer.Coherent owners) (hinner : inner.Coherent owners) :
    (outer.shadow inner).Coherent owners where
  terms := houter.terms.last hinner.terms
  types := houter.types.last hinner.types
  fixities _ hk := Table.mem_keys_mergeWith.mpr <|
    (Table.mem_keys_mergeWith.mp hk).imp (houter.fixities _) (hinner.fixities _)

theorem filterKeys (h : e.Coherent owners) (p : Name → Bool) :
    (e.filterKeys p).Coherent owners where
  terms := h.terms.filterKeys p
  types := h.types.filterKeys p
  fixities k hk := by
    have hkept : k ∈ (e.fixities.filterKeys p).keys := hk
    rw [Table.keys_filterKeys, List.mem_filter] at hkept
    show k ∈ (e.terms.filterKeys p).keys
    rw [Table.keys_filterKeys, List.mem_filter]
    exact hkept.imp_left (h.fixities k)

/-- However keys are moved, a fixity is moved to where its term is moved. -/
theorem mapKeys (h : e.Coherent []) {f : Name → Name} (hf : ∀ q, (f q).base = q.base) :
    (e.mapKeys f).Coherent [] where
  terms := h.terms.mapKeys hf
  types := h.types.mapKeys hf
  fixities k hk := by
    obtain ⟨q, hq, hmoved⟩ := Table.mem_keys_mapKeys.mp hk
    exact Table.mem_keys_mapKeys.mpr ⟨q, h.fixities q hq, hmoved⟩

theorem qualify (h : e.Coherent owners) (n : ModuleName) : (e.qualify n).Coherent [some n] where
  terms := h.terms.qualify n
  types := h.types.qualify n
  fixities k hk := by
    obtain ⟨q, hq, hmoved⟩ := Table.mem_keys_mapKeys.mp hk
    refine Table.mem_keys_mapKeys.mpr ⟨q, ?_, hmoved⟩
    show q ∈ (e.terms.map _).keys
    rw [Table.keys_map]
    exact h.fixities q hq

end Coherent

/-! ### Environments of entries -/

section Entries

variable {l : List Entry} {k : Name}

theorem mem_recordsAt_ofEntries {s : Referent} {r : Record s.Source} :
    r ∈ (ofEntries l).recordsAt s k ↔ .record s k r ∈ l := by
  rw [(holds_ofEntries l).recordsAt_eq, Contents.records_gather, List.mem_flatMap]
  simp only [Entry.mem_records_contents, exists_eq_right]

theorem exists_of_mem_fixities_ofEntries (h : k ∈ (ofEntries l).fixities.keys) :
    ∃ f, .fixity k f ∈ l := by
  rw [(holds_ofEntries l).mem_fixities_keys_iff] at h
  obtain ⟨f, hf⟩ := Option.ne_none_iff_exists'.mp h
  obtain ⟨x, hx, hxf⟩ := List.exists_of_findSome?_eq_some hf
  cases x with
  | fixity key f' =>
    obtain ⟨rfl, -⟩ := Option.ite_none_right_eq_some.mp hxf
    exact ⟨f', hx⟩
  | term key record | type key record => simp [Entry.contents, Contents.only] at hxf

theorem mem_records_keys_ofEntries {s : Referent} :
    k ∈ ((ofEntries l).records s).keys ↔ ∃ r, .record s k r ∈ l := by
  rw [(holds_ofEntries l).mem_records_keys_iff]
  simp only [← mem_recordsAt_ofEntries, ne_eq, List.eq_nil_iff_forall_not_mem, not_forall, not_not]

end Entries

end Env

/-! ### What constructs introduce -/

/-- Terms and types under bare keys that stand for themselves, and fixities of such terms. -/
structure LocalEntries (l : List Entry) : Prop where
  terms : ∀ k r, .term k r ∈ l → k.owner = none ∧ r.target = k
  types : ∀ k r, .type k r ∈ l → k.owner = none ∧ r.target = k
  fixities : ∀ k f, .fixity k f ∈ l → ∃ r, .term k r ∈ l

theorem LocalEntries.records {l : List Entry} (h : LocalEntries l) {s : Referent} {k : Name}
    {r : Record s.Source} (hr : .record s k r ∈ l) : k.owner = none ∧ r.target = k := by
  cases s with
  | term => exact h.terms k r hr
  | type => exact h.types k r hr

theorem LocalEntries.flatMap {α : Type} {f : α → List Entry} {l : List α}
    (h : ∀ x ∈ l, LocalEntries (f x)) : LocalEntries (l.flatMap f) := by
  refine ⟨fun k r hr => ?_, fun k r hr => ?_, fun k g hg => ?_⟩
  · obtain ⟨x, hx, hr⟩ := List.mem_flatMap.mp hr
    exact (h x hx).terms k r hr
  · obtain ⟨x, hx, hr⟩ := List.mem_flatMap.mp hr
    exact (h x hx).types k r hr
  · obtain ⟨x, hx, hg⟩ := List.mem_flatMap.mp hg
    obtain ⟨r, hr⟩ := (h x hx).fixities k g hg
    exact ⟨r, List.mem_flatMap.mpr ⟨x, hx, hr⟩⟩

theorem localEntries_bound (xs : List (Located Identifier)) :
    LocalEntries (xs.map Entry.bound) := by
  constructor <;> simp +contextual [Entry.bound, Name.bare, eq_comm]

theorem Binding.local_entries (b : Binding) : LocalEntries b.entries := by
  constructor <;> simp +contextual [entries, Entry.bound, Name.bare]

theorem Clause.local_entries : ∀ c : Clause, LocalEntries c.entries
  | .generator binder _ => localEntries_bound binder.boundNames
  | .binding b => b.local_entries

theorem TypeParam.local_entry (p : TypeParam) : LocalEntries [p.entry] := by
  constructor <;> simp +contextual [entry, Name.bare]

theorem Signature.local_entries (s : Signature) : LocalEntries s.entries := by
  rw [entries, List.map_eq_flatMap]
  exact .flatMap fun p _ => p.local_entry

theorem Synonym.local_entry (s : Synonym) : LocalEntries [s.entry] := by
  constructor <;> simp +contextual [entry, Name.bare]

theorem Newtype.local_entries (n : Newtype) : LocalEntries n.entries := by
  constructor <;> simp +contextual [entries, Name.bare]

theorem Declaration.local_entries : ∀ d : Declaration, LocalEntries d.entries
  | .signature names _ | .pragma names _ => localEntries_bound names
  | .binding b => b.local_entries
  | .patternBinding _ _ | .fixity _ _ => by constructor <;> simp [entries]
  | .synonym s => s.local_entry
  | .newtype n => n.local_entries
  | .located _ d => d.local_entries

/-! ### Local environments -/

namespace Env

/-- A coherent environment in which all names are bare. -/
structure Local (e : Env) : Prop where
  coherent : e.Coherent [none]
  terms : ∀ k ∈ e.terms.keys, k.owner = none
  types : ∀ k ∈ e.types.keys, k.owner = none

theorem resolves_ofEntries {l : List Entry} (h : LocalEntries l) (s : Referent) :
    ((ofEntries l).records s).Resolves s.imported [none] := by
  intro k r hr
  obtain ⟨howner, htarget⟩ := h.records (mem_recordsAt_ofEntries.mp hr)
  exact ⟨congrArg Name.base htarget, fun _ => ⟨htarget, List.mem_singleton.mpr howner⟩⟩

theorem owner_eq_none_of_mem_keys {l : List Entry} (h : LocalEntries l) {s : Referent} {k : Name}
    (hk : k ∈ ((ofEntries l).records s).keys) : k.owner = none := by
  obtain ⟨r, hr⟩ := mem_records_keys_ofEntries.mp hk
  exact (h.records hr).1

theorem local_ofEntries {l : List Entry} (h : LocalEntries l) : (ofEntries l).Local where
  coherent :=
    { terms := resolves_ofEntries h .term
      types := resolves_ofEntries h .type
      fixities := by
        intro k hk
        obtain ⟨f, hf⟩ := exists_of_mem_fixities_ofEntries hk
        exact (mem_records_keys_ofEntries (s := .term)).mpr (h.fixities k f hf) }
  terms _ hk := owner_eq_none_of_mem_keys h (s := .term) hk
  types _ hk := owner_eq_none_of_mem_keys h (s := .type) hk

theorem local_ofClauses (cs : List Clause) : (ofEntries (cs.flatMap Clause.entries)).Local :=
  local_ofEntries (.flatMap fun c _ => c.local_entries)

theorem local_of_envAll {ds : List Declaration} {e : Env} (h : Declaration.envAll ds = .ok e) :
    e.Local := by
  rw [Declaration.eq_ofEntries_of_envAll h]
  exact local_ofEntries (.flatMap fun d _ => d.local_entries)

namespace Local

variable {e outer inner : Env}

theorem shadow (houter : outer.Local) (hinner : inner.Local) : (outer.shadow inner).Local where
  coherent := houter.coherent.shadow hinner.coherent
  terms k hk := (Table.mem_keys_mergeWith.mp hk).elim (houter.terms k) (hinner.terms k)
  types k hk := (Table.mem_keys_mergeWith.mp hk).elim (houter.types k) (hinner.types k)

theorem get?_eq_none (h : e.Local) {k : Name} (hk : k.owner ≠ none) :
    e.terms.get? k = none ∧ e.types.get? k = none ∧ e.fixities.get? k = none := by
  have hterm : k ∉ e.terms.keys := fun hmem => hk (h.terms k hmem)
  have htype : k ∉ e.types.keys := fun hmem => hk (h.types k hmem)
  have hfixity : k ∉ e.fixities.keys := fun hmem => hterm (h.coherent.fixities k hmem)
  rw [Table.mem_keys_iff] at hterm htype hfixity
  simpa using And.intro hterm (And.intro htype hfixity)

end Local

/-- The scopes that are put into a scope: that of a `where` block, of an arm of a comprehension, and
of the body of a binding. -/
inductive Nested (outer : Env) : Env → Prop where
  | block {ds : List Declaration} {e : Env} : localScope outer ds = .ok e → Nested outer e
  | arm (cs : List Clause) : Nested outer (clauseScope outer cs)
  | body {b : Binding} {e : Env} : bindingScope outer b = .ok e → Nested outer e

/-- **A scope in another one is a local environment that shadows it.** -/
theorem Nested.exists_local {outer e : Env} (h : outer.Nested e) :
    ∃ inner : Env, inner.Local ∧ e = outer.shadow inner := by
  cases h with
  | block h =>
    obtain ⟨inner, hinner, rfl⟩ := exists_of_localScope h
    exact ⟨inner, local_of_envAll hinner, rfl⟩
  | arm cs => exact ⟨_, local_ofClauses cs, rfl⟩
  | @body b _ h =>
    obtain ⟨inner, hinner, rfl⟩ := exists_of_localScope h
    have hparameters : (ofEntries (b.parameters.flatMap Pattern.entries)).Local :=
      local_ofEntries (.flatMap fun p _ => localEntries_bound p.boundNames)
    exact ⟨_, hparameters.shadow (local_of_envAll hinner), shadow_assoc ..⟩

end Env

/-! ### What interfaces bring into scope -/

/-- Exports that are built one by one are filed under the names that they stand for. -/
theorem Exports.resolves_ofList (xs : List (Export Name)) (s : Referent) :
    ((ofList xs).env.records s).Resolves s.imported [] := by
  intro k r hr
  change r ∈ (ofList xs).env.recordsAt s k at hr
  rw [(holds_ofList xs).recordsAt_eq, Contents.records_exported] at hr
  obtain rfl := List.eq_of_mem_replicate hr
  exact ⟨rfl, fun hsource => absurd rfl hsource⟩

theorem Exports.coherent_ofList (xs : List (Export Name)) : (ofList xs).env.Coherent [] where
  terms := resolves_ofList xs .term
  types := resolves_ofList xs .type
  fixities k hk := by
    rw [(holds_ofList xs).fixities.mem_keys_iff, ne_eq, Option.toList_eq_nil_iff] at hk
    obtain ⟨f, hf⟩ := Option.ne_none_iff_exists'.mp hk
    have hvalues : xs.flatMap (Export.valuesOf k) ≠ [] := (agreedFixity_eq_some_iff.mp hf).1
    have hcount : xs.countP (Export.isTerm k) ≠ 0 := by
      have hlength := List.length_pos_iff.mpr hvalues
      rw [Export.countP_isTerm]
      omega
    rw [(holds_ofList xs).terms.mem_keys_iff]
    exact fun hnil => hcount (List.replicate_eq_nil_iff _ |>.mp hnil)

theorem Import.coherent_env {i : Import} {x : Exports} (h : x.env.Coherent []) :
    (i.env x).Coherent [] := (h.filterKeys i.admits).mapKeys i.base_key

/-- Whether every interface of the library has been built export by export. -/
def Library.Built (l : Library) : Prop :=
  ∀ n i, l.find? n = some i → ∃ owner steps, i = .build owner steps

theorem Library.built_empty : empty.Built := fun _ _ h => nomatch h

theorem Library.Built.load {l : Library} (hl : l.Built) (owner : ModuleName)
    (steps : List Interface.Step) : (l.load (.build owner steps)).Built := by
  intro n i hi
  rw [find?_load] at hi
  split at hi
  · exact ⟨owner, steps, (Option.some.inj hi).symm⟩
  · exact hl n i hi

theorem Library.coherent_of_importsEnv {l : Library} {m : Module} {e : Env} (hl : l.Built)
    (h : l.importsEnv m = .ok e) : e.Coherent [] := by
  obtain ⟨envs, henvs, rfl⟩ := exists_of_map_eq_ok h
  refine Env.Coherent.mergeAll fun own hown => ?_
  obtain ⟨i, -, hi⟩ := exists_of_mem_of_mapM henvs hown
  obtain ⟨interface, hfind, rfl⟩ := exists_of_importEnv hi
  obtain ⟨owner, steps, rfl⟩ := hl _ _ hfind
  rw [Interface.build_eq]
  exact Import.coherent_env (Exports.coherent_ofList _)

/-! ### All that is compiled -/

/-- It makes no difference whether all declarations of a module are its members or some of them. -/
theorem Declaration.coherent_of_map_qualify {ds : List Declaration} {n : ModuleName} {e : Env}
    (h : (envAll ds).map (Env.qualify n) = .ok e) : e.Coherent [some n] := by
  obtain ⟨inner, hinner, rfl⟩ := exists_of_map_eq_ok h
  exact (Env.local_of_envAll hinner).coherent.qualify n

namespace Env

/-- The environments that compiling brings up, if its interfaces are built export by export. Names
that are not imported are owned by one of `owners` in them, or bare if `none` is among them. -/
inductive Compiled (owners : List (Option ModuleName)) : Env → Prop where
  -- What syntax brings into scope.
  | binding (b : Binding) : none ∈ owners → Compiled owners (ofEntries b.entries)
  | pattern (p : Pattern) : none ∈ owners → Compiled owners (ofEntries p.entries)
  | clause (c : Clause) : none ∈ owners → Compiled owners (ofEntries c.entries)
  | typeParam (p : TypeParam) : none ∈ owners → Compiled owners (ofEntries [p.entry])
  | signature (s : Signature) : none ∈ owners → Compiled owners (ofEntries s.entries)
  | synonym (s : Synonym) : none ∈ owners → Compiled owners (ofEntries [s.entry])
  | newtype (n : Newtype) : none ∈ owners → Compiled owners (ofEntries n.entries)
  | declaration {d : Declaration} {e : Env} : none ∈ owners → d.env = .ok e → Compiled owners e
  | declarations {ds : List Declaration} {e : Env} : none ∈ owners →
      Declaration.envAll ds = .ok e → Compiled owners e
  | members {m : Module} {e : Env} : some m.name.value ∈ owners → m.env = .ok e →
      Compiled owners e
  | exportedMembers {m : Module} {e : Env} : some m.name.value ∈ owners →
      m.exportedEnv = .ok e → Compiled owners e
  -- What interfaces bring into scope.
  | exports (xs : List (Export Name)) : Compiled owners (Exports.ofList xs).env
  | imported (i : Import) (xs : List (Export Name)) : Compiled owners (i.env (Exports.ofList xs))
  | imports {l : Library} {m : Module} {e : Env} : l.Built → l.importsEnv m = .ok e →
      Compiled owners e
  -- Several constructs side by side, and scopes.
  | sideBySide {l : List Env} : (∀ e ∈ l, Compiled owners e) → Compiled owners (mergeAll l)
  | moduleScope {l : Library} {m : Module} {e : Env} : l.Built → some m.name.value ∈ owners →
      l.moduleScope m = .ok e → Compiled owners e
  | nested {outer e : Env} : none ∈ owners → Compiled owners outer → outer.Nested e →
      Compiled owners e

/-- **Whatever is compiled is coherent.** -/
theorem Compiled.coherent {e : Env} (h : e.Compiled owners) : e.Coherent owners := by
  have hlocal : ∀ {l}, none ∈ owners → LocalEntries l → (ofEntries l).Coherent owners := by
    intro l hbare hl
    exact (local_ofEntries hl).coherent.mono (by simpa using hbare)
  induction h with
  | binding b hbare => exact hlocal hbare b.local_entries
  | pattern p hbare => exact hlocal hbare (localEntries_bound p.boundNames)
  | clause c hbare => exact hlocal hbare c.local_entries
  | typeParam p hbare => exact hlocal hbare p.local_entry
  | signature s hbare => exact hlocal hbare s.local_entries
  | synonym s hbare => exact hlocal hbare s.local_entry
  | newtype n hbare => exact hlocal hbare n.local_entries
  | declaration hbare h =>
    rw [Declaration.eq_ofEntries_of_env h]
    exact hlocal hbare (Declaration.local_entries _)
  | declarations hbare h => exact (local_of_envAll h).coherent.mono (by simpa using hbare)
  | members howner h | exportedMembers howner h =>
    exact (Declaration.coherent_of_map_qualify h).mono (by simpa using howner)
  | exports xs => exact (Exports.coherent_ofList xs).mono (List.nil_subset _)
  | imported i xs =>
    exact (Import.coherent_env (Exports.coherent_ofList xs)).mono (List.nil_subset _)
  | imports hl h => exact (Library.coherent_of_importsEnv hl h).mono (List.nil_subset _)
  | sideBySide _ ih => exact Coherent.mergeAll ih
  | moduleScope hl howner h =>
    obtain ⟨imports, own, himports, hown, rfl⟩ := Library.exists_of_moduleScope h
    have hmembers : own.Coherent [some _] := Declaration.coherent_of_map_qualify hown
    exact ((Library.coherent_of_importsEnv hl himports).mono (List.nil_subset _)).shadow
      (hmembers.mono (by simpa using howner))
  | nested hbare _ h ih =>
    obtain ⟨inner, hinner, rfl⟩ := h.exists_local
    exact ih.shadow (hinner.coherent.mono (by simpa using hbare))

/-- **What names in scope refer to.** In whatever is compiled, an operator that has a fixity is a
term that is in scope, and what is found under a key has the base of this key. What was not imported
refers to the very key that it is found under. Such a key is bare if it comes from a local scope,
since a local scope leaves all names with an owner as they are, and if it comes from the top level
of a module, then that module owns it. -/
theorem Compiled.resolves {e : Env} (h : e.Compiled owners) :
    (∀ k ∈ e.fixities.keys, k ∈ e.terms.keys) ∧
    (∀ k, (∀ r ∈ e.termsAt k, r.target.base = k.base) ∧
      ∀ r ∈ e.typesAt k, r.target.base = k.base) ∧
    (∀ k, (∀ r ∈ e.termsAt k, r.source ≠ .imported → r.target = k ∧ k.owner ∈ owners) ∧
      ∀ r ∈ e.typesAt k, r.source ≠ .imported → r.target = k ∧ k.owner ∈ owners) ∧
    ∀ e' : Env, e.Nested e' → ∀ k : Name, k.owner ≠ none →
      e'.terms.get? k = e.terms.get? k ∧ e'.types.get? k = e.types.get? k ∧
        e'.fixities.get? k = e.fixities.get? k := by
  obtain ⟨hterms, htypes, hfixities⟩ := h.coherent
  refine ⟨hfixities, fun k => ?_, fun k => ?_, fun e' he' k hk => ?_⟩
  · exact ⟨fun r hr => (hterms k r hr).1, fun r hr => (htypes k r hr).1⟩
  · exact ⟨fun r hr => (hterms k r hr).2, fun r hr => (htypes k r hr).2⟩
  · obtain ⟨inner, hinner, rfl⟩ := he'.exists_local
    obtain ⟨hnoTerm, hnoType, hnoFixity⟩ := hinner.get?_eq_none hk
    rw [get?_terms_shadow, get?_types_shadow, get?_fixities_shadow, hnoTerm, hnoType, hnoFixity]
    exact ⟨rfl, rfl, rfl⟩

/-- A library in which `+` is exported with a fixity, beside a newtype `+` of another module. -/
def plusLibrary : Library := Library.empty.load <| .build ⟨"Lib", []⟩
  [.own (.value ⟨"+"⟩ (some ⟨.left, 6⟩)), .any (.newtype (.qualified ⟨"Core", []⟩ ⟨"+"⟩))]

/-- The body of a binding in a module that imports `+` from this library, twice, and declares it.
The fixity of the member is the imported one. -/
theorem resolves_plusBody : ∃ scope body,
    plusLibrary.moduleScope Library.plusHider = .ok scope ∧
    bindingScope scope plusBinding = .ok body ∧ body.Compiled [none, some ⟨"M", []⟩] ∧
    ⟨.imported, .qualified ⟨"Core", []⟩ ⟨"+"⟩⟩ ∈ scope.termsAt (.bare ⟨"+"⟩) ∧
    .qualified ⟨"M", []⟩ ⟨"+"⟩ ∈ body.fixities.keys ∧
    .qualified ⟨"M", []⟩ ⟨"+"⟩ ∈ body.terms.keys ∧
    ∀ r ∈ body.termsAt (.bare ⟨"+"⟩), r.source ≠ .imported → r.target = .bare ⟨"+"⟩ := by
  have hbuilt : plusLibrary.Built := Library.built_empty.load _ _
  have hcompiled : ∀ {scope body}, plusLibrary.moduleScope Library.plusHider = .ok scope →
      bindingScope scope plusBinding = .ok body → body.Compiled [none, some ⟨"M", []⟩] :=
    fun hscope hbody =>
      .nested (by decide) (.moduleScope hbuilt (by decide) hscope) (.body hbody)
  obtain ⟨hfixities, -, hlocal, -⟩ := (hcompiled rfl rfl).resolves
  refine ⟨_, _, rfl, rfl, hcompiled rfl rfl, by decide, by decide, hfixities _ (by decide), ?_⟩
  exact fun r hr hsource => ((hlocal _).1 r hr hsource).1

end Env

end Scoping
