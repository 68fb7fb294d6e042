import Scoping.Entries
import Scoping.Proofs.Contents

/-!
# What declarations bring into scope

Of a declaration only its outline matters to the scope around it: what kind of declaration it is,
which names it introduces and where, and the fixity of a binding. What its types, patterns and
expressions say stays inside.

`members owner os` is what declarations with the outlines `os` bring into a scope whose members
belong to `owner`, or are bare if there is no owner. Everything in it is under a name of that
owner, and refers to that name.

## Main definitions

* `Scoping.Outline`, `Declaration.outline`
* `Outline.termSources`, `Outline.typeSources`, `Outline.fixityOf` — what an outline has for a base;
  `Outline.sources` — the first two in one
* `Scoping.members` — the contents of a scope made of declarations

## Main results

* `Declaration.firstUndesugared_eq_none_iff` — when there is such a scope
* `Declaration.holds_envAll`, `Env.Holds.qualify_members`, `Module.holds_env`
* `Module.env_tables` — the members of a module, name by name
-/

namespace Scoping

/-! ### Outlines -/

/-- What the scope around a declaration gets to see of it. -/
inductive Outline where
  | signature (names : List (Located Identifier))
  | pragma (names : List (Located Identifier))
  | binding (name : Located Identifier) (fixity : Option Fixity)
  | synonym (name : Located Identifier)
  | newtype (name : Located Identifier)
  /-- A pattern binding or a fixity declaration. -/
  | undesugared
deriving DecidableEq

/-- The outline of a declaration. Ranges around it are left out. -/
def Declaration.outline : Declaration → Outline
  | .signature names _ => .signature names
  | .pragma names _ => .pragma names
  | .binding b => .binding b.name b.fixity
  | .patternBinding _ _ | .fixity _ _ => .undesugared
  | .synonym s => .synonym s.name
  | .newtype n => .newtype n.name
  | .located _ d => d.outline

namespace Outline

/-- How the term `b` gets into scope: once for each binding, signature, pragma and newtype that
names it, and once for each time that a signature or a pragma does. -/
def termSources (b : Identifier) : Outline → List TermSource
  | .signature names | .pragma names =>
    (names.filter fun x => x.value = b).map fun x => .binding x.range
  | .binding name _ => if name.value = b then [.binding name.range] else []
  | .newtype name => if name.value = b then [.constructor name.range] else []
  | .synonym _ | .undesugared => []

/-- How the type `b` gets into scope: once for each synonym and newtype of this name. -/
def typeSources (b : Identifier) : Outline → List TypeSource
  | .synonym name => if name.value = b then [.synonym name.range] else []
  | .newtype name => if name.value = b then [.constructor name.range] else []
  | .signature _ | .pragma _ | .binding _ _ | .undesugared => []

/-- How the term or the type `b` gets into scope. -/
def sources : (s : Referent) → Identifier → Outline → List s.Source
  | .term => termSources
  | .type => typeSources

/-- The fixity that a binding of `b` declares. -/
def fixityOf (b : Identifier) : Outline → Option Fixity
  | .binding name fixity => if name.value = b then fixity else none
  | _ => none

end Outline

/-- What declarations with the outlines `os` say of each name, as members of `owner` or bare. -/
def members (owner : Option ModuleName) (os : List Outline) : Contents where
  terms k :=
    if k.owner = owner then (os.flatMap (Outline.termSources k.base)).map (⟨·, k⟩) else []
  types k :=
    if k.owner = owner then (os.flatMap (Outline.typeSources k.base)).map (⟨·, k⟩) else []
  fixity k := if k.owner = owner then os.findSome? (Outline.fixityOf k.base) else none

theorem members_records (s : Referent) (owner : Option ModuleName) (os : List Outline) (k : Name) :
    (members owner os).records s k =
      if k.owner = owner then (os.flatMap (Outline.sources s k.base)).map (⟨·, k⟩) else [] := by
  cases s <;> rfl

/-- What a list of variables says of each name: one binding for each occurrence. -/
def Contents.bound (xs : List (Located Identifier)) : Contents where
  terms k :=
    if k.owner = none then (xs.filter fun x => x.value = k.base).map fun x => ⟨.binding x.range, k⟩
    else []
  types _ := []
  fixity _ := none

/-! ### Entries of declarations -/

theorem Name.ne_base_of_ne_bare {k : Name} {b : Identifier} (hk : k ≠ .bare b)
    (howner : k.owner = none) : b ≠ k.base := by
  rintro rfl
  exact hk (congrArg (Name.mk · k.base) howner)

theorem Contents.bound_cons (x : Located Identifier) (xs : List (Located Identifier)) :
    bound (x :: xs) =
      (only (.bare x.value) [⟨.binding x.range, .bare x.value⟩] [] none).merge (bound xs) := by
  ext1 <;> funext k
  · by_cases hk : k = .bare x.value
    · subst hk
      simp [merge, bound, only, Name.bare]
    · have hskip := Name.ne_base_of_ne_bare hk
      by_cases howner : k.owner = none
      · simp [merge, bound, only, hk, howner, hskip howner]
      · simp [merge, bound, only, hk, howner]
  · simp [merge, bound, only]
  · simp [merge, bound, only]

theorem gather_bound (xs : List (Located Identifier)) :
    Contents.gather (xs.map Entry.bound) Entry.contents = .bound xs := by
  induction xs with
  | nil => ext1 <;> funext k <;> simp [Contents.gather, Contents.bound]
  | cons x xs ih =>
    rw [List.map_cons, Contents.gather_cons, ih, Contents.bound_cons]
    rfl

theorem gather_members {α : Type} (owner : Option ModuleName) (f : α → Outline) (l : List α) :
    Contents.gather l (fun x => members owner [f x]) = members owner (l.map f) := by
  refine Contents.ext_records (fun s k => ?_) fun k => ?_
  · rw [Contents.records_gather]
    by_cases howner : k.owner = owner
    · simp [members_records, howner, List.flatMap_map, List.map_flatMap]
    · simp [members_records, howner]
  · by_cases howner : k.owner = owner
    · simp [Contents.gather, members, howner, List.findSome?_map, Function.comp_def]
    · simp [Contents.gather, members, howner]

/-- A declaration of a single name says something of this name only. -/
theorem members_eq_only {o : Outline} {b : Identifier} {ts : List TermSource}
    {us : List TypeSource} {f : Option Fixity}
    (hts : ∀ b', o.termSources b' = if b = b' then ts else [])
    (hus : ∀ b', o.typeSources b' = if b = b' then us else [])
    (hf : ∀ b', o.fixityOf b' = if b = b' then f else none) :
    members none [o] =
      .only (.bare b) (ts.map (⟨·, .bare b⟩)) (us.map (⟨·, .bare b⟩)) f := by
  ext1 <;> funext k <;> by_cases hk : k = .bare b
  · simp [members, Contents.only, hk, Name.bare, hts]
  · have hskip := Name.ne_base_of_ne_bare hk
    by_cases howner : k.owner = none <;> simp [members, Contents.only, hk, howner, hts, hskip]
  · simp [members, Contents.only, hk, Name.bare, hus]
  · have hskip := Name.ne_base_of_ne_bare hk
    by_cases howner : k.owner = none <;> simp [members, Contents.only, hk, howner, hus, hskip]
  · simp [members, Contents.only, hk, Name.bare, hf]
  · have hskip := Name.ne_base_of_ne_bare hk
    by_cases howner : k.owner = none <;> simp [members, Contents.only, hk, howner, hf, hskip]

theorem Declaration.gather_entries : ∀ d : Declaration,
    Contents.gather d.entries Entry.contents = members none [d.outline]
  | .signature names _ | .pragma names _ => by
    rw [entries, gather_bound]
    ext1 <;> funext k <;> simp [members, Contents.bound, outline, Outline.termSources,
      Outline.typeSources, Outline.fixityOf, Function.comp_def]
  | .binding b => by
    rw [outline, members_eq_only (fun _ => rfl) (fun _ => (ite_self _).symm) fun _ => rfl]
    rw [entries, Binding.entries, Contents.gather_cons, Contents.gather_map]
    simp only [Entry.bound, Entry.contents, Contents.gather_only, Contents.merge_only]
    cases b.fixity <;> simp
  | .patternBinding _ _ | .fixity _ _ => by
    ext1 <;> funext k <;> simp [entries, outline, members, Contents.gather_nil, Contents.empty,
      Outline.termSources, Outline.typeSources, Outline.fixityOf]
  | .synonym s => by
    rw [outline, members_eq_only (fun _ => (ite_self _).symm) (fun _ => rfl)
      fun _ => (ite_self _).symm]
    rw [entries, Contents.gather_cons, Contents.gather_nil, Contents.merge_empty]
    rfl
  | .newtype n => by
    rw [outline, members_eq_only (fun _ => rfl) (fun _ => rfl) fun _ => (ite_self _).symm]
    rw [entries, Newtype.entries]
    simp [Contents.gather_cons, Contents.gather_nil, Entry.contents, Contents.merge_only]
  | .located _ d => by
    rw [entries, outline, gather_entries d]

/-! ### Declarations side by side -/

namespace Declaration

theorem undesugaredWithin_eq_none_iff : ∀ (d : Declaration) (range : Option Range),
    d.undesugaredWithin range = none ↔ d.outline ≠ .undesugared
  | .signature _ _, _ | .pragma _ _, _ | .binding _, _ | .patternBinding _ _, _ | .fixity _ _, _
  | .synonym _, _ | .newtype _, _ => by simp [undesugaredWithin, outline]
  | .located inner d, _ => by
    rw [undesugaredWithin, outline]
    exact undesugaredWithin_eq_none_iff d (some inner)

theorem firstUndesugared_eq_none_iff {ds : List Declaration} :
    firstUndesugared ds = none ↔ ∀ d ∈ ds, d.outline ≠ .undesugared := by
  rw [firstUndesugared, List.findSome?_eq_none_iff]
  exact forall₂_congr fun d _ => undesugaredWithin_eq_none_iff d none

/-- Declarations bring into scope what their outlines say, in their order. -/
theorem holds_ofEntries (ds : List Declaration) :
    (Env.ofEntries (ds.flatMap entries)).Holds (members none (ds.map outline)) := by
  have hgather : Contents.gather (ds.flatMap entries) Entry.contents =
      members none (ds.map outline) := by
    rw [Contents.gather_flatMap, Contents.gather_congr fun d _ => d.gather_entries, gather_members]
  rw [← hgather]
  exact Env.holds_ofEntries _

theorem holds_envAll {ds : List Declaration} (h : ∀ d ∈ ds, d.outline ≠ .undesugared) :
    ∃ env, envAll ds = .ok env ∧ env.Holds (members none (ds.map outline)) := by
  refine ⟨_, ?_, holds_ofEntries ds⟩
  rw [envAll, firstUndesugared_eq_none_iff.mpr h]

theorem eq_ofEntries_of_envAll {ds : List Declaration} {e : Env} (h : envAll ds = .ok e) :
    e = Env.ofEntries (ds.flatMap entries) := by
  rw [envAll] at h
  split at h
  · contradiction
  · exact (Except.ok.inj h).symm

theorem holds_of_envAll {ds : List Declaration} {e : Env} (h : envAll ds = .ok e) :
    e.Holds (members none (ds.map outline)) := by
  rw [eq_ofEntries_of_envAll h]
  exact holds_ofEntries ds

theorem exists_error_of_undesugared {ds : List Declaration} {d : Declaration} (hd : d ∈ ds)
    (h : d.outline = .undesugared) : ∃ cause, envAll ds = .error cause := by
  rw [envAll]
  cases hfirst : firstUndesugared ds with
  | some cause => exact ⟨cause, rfl⟩
  | none => exact absurd h (firstUndesugared_eq_none_iff.mp hfirst d hd)

end Declaration

/-! ### Members of a module -/

/-- Where all keys are bare, giving them an owner moves each entry by itself. -/
theorem Table.Lists.mapKeys_inModule {α : Type} {t : Table Name (List α)}
    (f : Identifier → List α) (h : t.Lists fun k => if k.owner = none then f k.base else [])
    (combine : List α → List α → List α) (n : ModuleName) :
    (t.mapKeys combine (·.inModule n)).Lists fun k =>
      if k.owner = some n then f k.base else [] := by
  intro k
  show (t.mapKeys combine (·.inModule n)).get? k =
    stored (if k.owner = some n then f k.base else [])
  by_cases howner : k.owner = some n
  · have hbare : ∀ q ∈ t.keys, q.owner = none :=
      fun q hq => by_contra fun hne => h.mem_keys_iff.mp hq (if_neg hne)
    have hget := get?_mapKeys_inModule_of_bare hbare combine n k.base
    rw [Name.qualified_eq_iff.mpr ⟨howner, rfl⟩] at hget
    rw [hget, h, if_pos howner]
    exact congrArg stored (if_pos rfl)
  · have hnone : ∀ q ∈ t.keys, q.inModule n ≠ k := fun q _ hqk => howner (hqk ▸ rfl)
    rw [get?_mapKeys_eq_none hnone, if_neg howner]
    rfl

/-- Candidates that refer to their own bare key refer to their own key again once both are owned. -/
theorem Table.Lists.qualify {σ : Type} {t : Table Name (List (Record σ))}
    (sources : Identifier → List σ)
    (h : t.Lists fun k => if k.owner = none then (sources k.base).map (⟨·, k⟩) else [])
    (combine : List (Record σ) → List (Record σ) → List (Record σ)) (n : ModuleName) :
    ((t.map (List.map (Record.mapTarget (·.inModule n)))).mapKeys combine (·.inModule n)).Lists
      fun k => if k.owner = some n then (sources k.base).map (⟨·, k⟩) else [] := by
  have hrenamed : (t.map (List.map (Record.mapTarget (·.inModule n)))).Lists fun k =>
      if k.owner = none then (sources k.base).map (⟨·, .qualified n k.base⟩) else [] := by
    intro k
    rw [h.map _ k]
    show stored (List.map _ (if k.owner = none then _ else _)) =
      stored (if k.owner = none then _ else _)
    split
    · rw [List.map_map]
      rfl
    · rfl
  intro k
  rw [mapKeys_inModule (fun b => (sources b).map (⟨·, .qualified n b⟩)) hrenamed combine n k]
  show stored (if k.owner = some n then _ else _) = stored (if k.owner = some n then _ else _)
  split
  · next howner =>
    have hk : Name.qualified n k.base = k := congrArg (Name.mk · k.base) howner.symm
    rw [hk]
  · rfl

/-- Seen from outside, members belong to their module, and so do the names that they refer to. -/
theorem Env.Holds.qualify_members {e : Env} {os : List Outline} (h : e.Holds (members none os))
    (n : ModuleName) : (e.qualify n).Holds (members (some n) os) := by
  refine ⟨.qualify (fun b => os.flatMap (Outline.termSources b)) h.terms _ n,
    .qualify (fun b => os.flatMap (Outline.typeSources b)) h.types _ n, ?_⟩
  have hfixities := h.fixities
  simp only [members, toList_ite_none] at hfixities ⊢
  exact .mapKeys_inModule (fun b => (os.findSome? (Outline.fixityOf b)).toList) hfixities _ n

/-- If earlier passes have done their work, declarations have an environment as members. -/
theorem Declaration.holds_map_qualify {ds : List Declaration}
    (h : ∀ d ∈ ds, d.outline ≠ .undesugared) (n : ModuleName) :
    ∃ env, (envAll ds).map (Env.qualify n) = .ok env ∧
      env.Holds (members (some n) (ds.map outline)) := by
  obtain ⟨inner, hinner, hcontents⟩ := holds_envAll h
  refine ⟨inner.qualify n, ?_, hcontents.qualify_members n⟩
  rw [hinner]
  rfl

/-- Whatever environment declarations have as members, it says what their outlines say. -/
theorem Declaration.holds_of_map_qualify {ds : List Declaration} {n : ModuleName} {e : Env}
    (h : (envAll ds).map (Env.qualify n) = .ok e) :
    e.Holds (members (some n) (ds.map outline)) := by
  obtain ⟨inner, hinner, rfl⟩ := exists_of_map_eq_ok h
  exact (holds_of_envAll hinner).qualify_members n

namespace Module

/-- The outlines of all declarations of the module, exported or not. -/
def outlines (m : Module) : List Outline := m.allDeclarations.map Declaration.outline

theorem holds_env {m : Module} (h : .undesugared ∉ m.outlines) :
    ∃ env, m.env = .ok env ∧ env.Holds (members (some m.name.value) m.outlines) := by
  have hdesugared : ∀ d ∈ m.allDeclarations, d.outline ≠ .undesugared := fun d hd heq =>
    h (heq ▸ List.mem_map_of_mem hd)
  exact Declaration.holds_map_qualify hdesugared m.name.value

theorem holds_of_env {m : Module} {env : Env} (h : m.env = .ok env) :
    env.Holds (members (some m.name.value) m.outlines) := Declaration.holds_of_map_qualify h

/-- **The members of a module**, name by name. If earlier passes have done their work, all that is
in scope is owned by the module, and under one of its names there is one candidate for each time
that its declarations introduce the base, in their order; the fixity is that of the first binding
which declares one. No more of the declarations can be seen than their outlines. -/
theorem env_tables (m : Module) (h : .undesugared ∉ m.outlines) :
    (∃ env, m.env = .ok env ∧
      (∀ k : Name, k.owner ≠ some m.name.value →
        env.terms.get? k = none ∧ env.types.get? k = none ∧ env.fixities.get? k = none) ∧
      ∀ b : Identifier,
        env.terms.get? (.qualified m.name.value b) =
          stored ((m.outlines.flatMap (Outline.termSources b)).map
            (⟨·, .qualified m.name.value b⟩)) ∧
        env.types.get? (.qualified m.name.value b) =
          stored ((m.outlines.flatMap (Outline.typeSources b)).map
            (⟨·, .qualified m.name.value b⟩)) ∧
        env.fixities.get? (.qualified m.name.value b) =
          stored (m.outlines.findSome? (Outline.fixityOf b)).toList) ∧
    ∀ m' : Module, m'.name.value = m.name.value → m'.outlines = m.outlines → m'.env = m.env := by
  obtain ⟨env, henv, hcontents⟩ := holds_env h
  refine ⟨⟨env, henv, fun k hk => ?_, fun b => ?_⟩, fun m' hname houtlines => ?_⟩
  · rw [hcontents.terms, hcontents.types, hcontents.fixities]
    simp [members, hk]
  · rw [hcontents.terms, hcontents.types, hcontents.fixities]
    simp [members, Name.qualified]
  · obtain ⟨env', henv', hcontents'⟩ := holds_env (m := m') (houtlines ▸ h)
    rw [hname, houtlines] at hcontents'
    rw [henv, henv', hcontents.unique hcontents']

/-- A module that declares `+` in four ways: a signature that names it twice, a binding without a
fixity, another one with a fixity, and a newtype. -/
def plusDeclarations : Module where
  name := ⟨.onRow 1 1 2, ⟨"M", []⟩⟩
  imports := []
  declarations :=
    [⟨.exported, .located (.onRow 2 1 9) (.signature [⟨.onRow 2 1 2, ⟨"+"⟩⟩, ⟨.onRow 2 3 4, ⟨"+"⟩⟩]
        ⟨[], .tuple []⟩)⟩,
      ⟨.internal, .binding ⟨⟨.onRow 3 1 2, ⟨"+"⟩⟩, [.bind ⟨.onRow 3 3 4, ⟨"x"⟩⟩], none, none, [],
        none, false⟩⟩,
      ⟨.exported, .located (.onRow 4 1 9) (.located (.onRow 4 1 9) (.binding
        ⟨⟨.onRow 4 1 2, ⟨"+"⟩⟩, [], none, none, [], some ⟨.left, 6⟩, true⟩))⟩,
      ⟨.exported, .newtype ⟨⟨.onRow 5 1 2, ⟨"+"⟩⟩, [], []⟩⟩]

theorem env_tables_plus :
    .undesugared ∉ plusDeclarations.outlines ∧
      ∃ env, plusDeclarations.env = .ok env ∧
        env.terms.get? (.qualified ⟨"M", []⟩ ⟨"+"⟩) =
          some ([.binding (.onRow 2 1 2), .binding (.onRow 2 3 4), .binding (.onRow 3 1 2),
            .binding (.onRow 4 1 2), .constructor (.onRow 5 1 2)].map
              (⟨·, .qualified ⟨"M", []⟩ ⟨"+"⟩⟩)) ∧
        env.fixities.get? (.qualified ⟨"M", []⟩ ⟨"+"⟩) = some [⟨.left, 6⟩] ∧
        env.terms.get? (.bare ⟨"x"⟩) = none := by
  have hdesugared : .undesugared ∉ plusDeclarations.outlines := by decide
  obtain ⟨⟨env, henv, hother, hown⟩, -⟩ := env_tables plusDeclarations hdesugared
  refine ⟨hdesugared, env, henv, ?_, ?_, (hother _ (by decide)).1⟩
  · exact (hown ⟨"+"⟩).1.trans (by decide)
  · exact (hown ⟨"+"⟩).2.2.trans (by decide)

end Module

end Scoping
