import Scoping.Proofs.Imports
import Scoping.Proofs.Members

/-!
# What the members of a module hide

The members of a module are owned by it, and imported names are bare or owned by the qualifier of
their import. So the two meet only where an import has the module's own name as its qualifier, and
there they meet table by table: what the module has for a base hides what is imported for it. No
more is hidden. In particular an imported bare name stays, whatever the module declares, and so
does an imported fixity of an operator to which the module gives none.

## Main definitions

* `Module.DeclaresTerm`, `Module.DeclaresType`, `Module.DeclaresFixity` — what a module has itself

## Main results

* `Library.exists_import_of_mem_recordsAt`, `Library.exists_import_of_fixityAt` — where an imported
  name comes from
* `Library.notMem_recordsAt_iff`, `Library.fixityAt_ne_iff` — what is lost under a name
* `Library.moduleScope_tables` — the scope of a module, and what is lost in it
-/

namespace Scoping

/-! ### What a module has itself -/

namespace Module

/-- Whether a declaration of the module introduces the term `b`. -/
def DeclaresTerm (m : Module) (b : Identifier) : Prop := ∃ o ∈ m.outlines, o.termSources b ≠ []

/-- Whether a declaration of the module introduces the type `b`. -/
def DeclaresType (m : Module) (b : Identifier) : Prop := ∃ o ∈ m.outlines, o.typeSources b ≠ []

/-- Whether a binding of the module gives a fixity to `b`. -/
def DeclaresFixity (m : Module) (b : Identifier) : Prop := ∃ o ∈ m.outlines, o.fixityOf b ≠ none

instance (m : Module) (b : Identifier) : Decidable (m.DeclaresTerm b) :=
  inferInstanceAs (Decidable (∃ o ∈ m.outlines, o.termSources b ≠ []))

instance (m : Module) (b : Identifier) : Decidable (m.DeclaresType b) :=
  inferInstanceAs (Decidable (∃ o ∈ m.outlines, o.typeSources b ≠ []))

instance (m : Module) (b : Identifier) : Decidable (m.DeclaresFixity b) :=
  inferInstanceAs (Decidable (∃ o ∈ m.outlines, o.fixityOf b ≠ none))

end Module

section Members

variable {owner : Option ModuleName} {os : List Outline} {k : Name}

theorem members_records_ne_nil_iff {s : Referent} : (members owner os).records s k ≠ [] ↔
    k.owner = owner ∧ ∃ o ∈ os, o.sources s k.base ≠ [] := by
  rw [members_records]
  by_cases howner : k.owner = owner <;> simp [howner]

theorem members_fixity_ne_none_iff : (members owner os).fixity k ≠ none ↔
    k.owner = owner ∧ ∃ o ∈ os, o.fixityOf k.base ≠ none := by
  by_cases howner : k.owner = owner <;> simp [members, howner]

/-- Nothing is imported by being declared. -/
theorem Outline.imported_notMem_sources (s : Referent) (o : Outline) (b : Identifier) :
    s.imported ∉ o.sources s b := by
  cases s <;> cases o <;> simp [sources, termSources, typeSources, Referent.imported]

theorem source_ne_imported_of_mem_members {s : Referent} {r : Record s.Source}
    (hr : r ∈ (members owner os).records s k) : r.source ≠ s.imported := by
  rw [members_records] at hr
  split at hr
  · obtain ⟨x, hx, rfl⟩ := List.mem_map.mp hr
    obtain ⟨o, -, ho⟩ := List.mem_flatMap.mp hx
    rintro rfl
    exact o.imported_notMem_sources s k.base ho
  · contradiction

end Members

namespace Module

variable {m : Module} {own : Env}

theorem get?_records_ne_none_iff (h : m.env = .ok own) (s : Referent) (k : Name) :
    (own.records s).get? k ≠ none ↔
      k.owner = some m.name.value ∧ ∃ o ∈ m.outlines, o.sources s k.base ≠ [] := by
  rw [(holds_of_env h).records s, ne_eq, stored_eq_none_iff]
  exact members_records_ne_nil_iff

theorem get?_fixities_ne_none_iff (h : m.env = .ok own) (k : Name) :
    own.fixities.get? k ≠ none ↔ k.owner = some m.name.value ∧ m.DeclaresFixity k.base := by
  rw [(holds_of_env h).get?_fixities, ne_eq, stored_eq_none_iff, Option.toList_eq_nil_iff]
  exact members_fixity_ne_none_iff

/-- No member of a module has a bare name. -/
theorem get?_bare (h : m.env = .ok own) (x : Identifier) :
    own.terms.get? (.bare x) = none ∧ own.types.get? (.bare x) = none ∧
      own.fixities.get? (.bare x) = none := by
  have ho := holds_of_env h
  rw [ho.terms, ho.types, ho.get?_fixities]
  simp [members, Name.bare]

end Module

/-! ### Where an imported name comes from -/

namespace Library

variable {l : Library} {m : Module} {imports : Env} {k : Name}

/-- Each import has an environment once all are resolved. -/
theorem exists_importEnv (h : l.importsEnv m = .ok imports) {owner : Option ModuleName}
    {i : Located Import} (hi : i ∈ m.importsUnder owner) :
    i ∈ m.imports ∧ i.value.qualifier = owner ∧
      ∃ e, l.importEnv m.name.value i = .ok e ∧
        e.Holds (i.value.contents (l.exportsOf i.value)) := by
  obtain ⟨hmem, howner⟩ := List.mem_filter.mp hi
  exact ⟨hmem, of_decide_eq_true howner, _, importEnv_eq_ok (isSome_find?_of_importsEnv h i hmem),
    i.value.holds_env _⟩

theorem exists_import_of_mem_recordsAt (h : l.importsEnv m = .ok imports) {s : Referent}
    {r : Record s.Source} (hr : r ∈ imports.recordsAt s k) :
    ∃ i ∈ m.imports, i.value.qualifier = k.owner ∧
      ∃ e, l.importEnv m.name.value i = .ok e ∧ r ∈ e.recordsAt s k := by
  rw [(holds_of_importsEnv h).recordsAt_eq, records_imported] at hr
  obtain ⟨i, hi, hr⟩ := List.mem_flatMap.mp hr
  obtain ⟨hmem, howner, e, he, hcontents⟩ := exists_importEnv h hi
  refine ⟨i, hmem, howner, e, he, ?_⟩
  rwa [hcontents.recordsAt_eq, Import.records_contents, if_pos howner]

theorem exists_import_of_fixityAt (h : l.importsEnv m = .ok imports) {f : Fixity}
    (hf : imports.fixityAt k = some f) :
    ∃ i ∈ m.imports, i.value.qualifier = k.owner ∧
      ∃ e, l.importEnv m.name.value i = .ok e ∧ e.fixityAt k = some f := by
  rw [(holds_of_importsEnv h).fixityAt_eq] at hf
  obtain ⟨i, hi, hf⟩ := List.exists_of_findSome?_eq_some hf
  obtain ⟨hmem, howner, e, he, hcontents⟩ := exists_importEnv h hi
  refine ⟨i, hmem, howner, e, he, ?_⟩
  simpa [hcontents.fixityAt_eq, Import.contents, howner] using hf

theorem source_of_mem_imported {s : Referent} {r : Record s.Source}
    (hr : r ∈ (l.imported m).records s k) : r.source = s.imported := by
  rw [records_imported] at hr
  obtain ⟨i, -, hr⟩ := List.mem_flatMap.mp hr
  obtain ⟨q, -, hr⟩ := List.mem_flatMap.mp hr
  exact Exports.source_of_mem_contents hr

theorem exists_of_moduleScope {scope : Env} (h : l.moduleScope m = .ok scope) :
    ∃ imports own, l.importsEnv m = .ok imports ∧ m.env = .ok own ∧ scope = imports.shadow own := by
  rw [moduleScope] at h
  split at h
  · next imports own himports hown =>
    exact ⟨imports, own, himports, hown, (Except.ok.inj h).symm⟩
  · contradiction
  · contradiction

/-! ### What is lost

A member is never an imported candidate, so a candidate that is found in the scope of the module
under a key with members is one of them. -/

variable {own : Env}

theorem notMem_recordsAt_iff (himports : l.importsEnv m = .ok imports) (hown : m.env = .ok own)
    {s : Referent} {r : Record s.Source} (hr : r ∈ imports.recordsAt s k) :
    r ∉ (imports.shadow own).recordsAt s k ↔
      k.owner = some m.name.value ∧ ∃ o ∈ m.outlines, o.sources s k.base ≠ [] := by
  have hi := holds_of_importsEnv himports
  have ho := Module.holds_of_env hown
  rw [hi.recordsAt_eq] at hr
  rw [Env.recordsAt, Env.get?_records_shadow, ho.records s, hi.records s, notMem_or_stored_iff hr]
  · exact members_records_ne_nil_iff
  · exact fun r hown himported =>
      source_ne_imported_of_mem_members hown (source_of_mem_imported himported)

/-- Under the name of a member there are members only. -/
theorem get?_records_of_declares (hown : m.env = .ok own) {s : Referent} {b : Identifier}
    (hb : ∃ o ∈ m.outlines, o.sources s b ≠ []) :
    ((imports.shadow own).records s).get? (.qualified m.name.value b) =
        (own.records s).get? (.qualified m.name.value b) ∧
      ∀ r ∈ (imports.shadow own).recordsAt s (.qualified m.name.value b),
        r.source ≠ s.imported := by
  have ho := (Module.holds_of_env hown).records s
  have hne : (members (some m.name.value) m.outlines).records s (.qualified m.name.value b) ≠ [] :=
    members_records_ne_nil_iff.mpr ⟨rfl, hb⟩
  rw [Env.recordsAt, Env.get?_records_shadow, ho, or_stored_of_ne_nil hne, getD_stored]
  exact ⟨rfl, fun r hr => source_ne_imported_of_mem_members hr⟩

/-- Where no member has a fixity, the imported one survives, whatever else the module declares. -/
theorem get?_fixities_of_not_declaresFixity (hown : m.env = .ok own) {b : Identifier}
    (hb : ¬m.DeclaresFixity b) :
    (imports.shadow own).fixities.get? (.qualified m.name.value b) =
      imports.fixities.get? (.qualified m.name.value b) := by
  have hnone : own.fixities.get? (.qualified m.name.value b) = none := by
    by_contra hne
    exact hb ((Module.get?_fixities_ne_none_iff hown _).mp hne).2
  rw [Env.get?_fixities_shadow, hnone]
  rfl

/-- A fixity does not say where it comes from, so one that is replaced by the same one is as good
as kept. -/
theorem fixityAt_ne_iff (hown : m.env = .ok own) {f : Fixity} (hf : imports.fixityAt k = some f) :
    (imports.shadow own).fixityAt k ≠ some f ↔
      k.owner = some m.name.value ∧ m.DeclaresFixity k.base ∧ own.fixityAt k ≠ some f := by
  have ho := Module.holds_of_env hown
  have hdeclares : k.owner = some m.name.value ∧ m.DeclaresFixity k.base ↔
      own.fixityAt k ≠ none := by
    rw [ho.fixityAt_eq]
    exact members_fixity_ne_none_iff.symm
  rw [ho.fixityAt_shadow, hf, ← and_assoc, hdeclares]
  cases own.fixityAt k <;> simp

/-- **What the members of a module hide.** If imports and members have an environment each, then so
has the module: each table by itself has what the members have, and what is imported where these
are silent. Members have just the keys that the module owns and contributes to, and imports only
keys with a qualifier of one of them. So an imported entry is lost exactly where the module has an
entry of its own in the same table, which takes an import under the module's own name; bare names
are never lost, own names are free of imported candidates, and an imported fixity stays where no
binding gives one. -/
theorem moduleScope_tables (l : Library) (m : Module) {imports own : Env}
    (himports : l.importsEnv m = .ok imports) (hown : m.env = .ok own) :
    ∃ scope, l.moduleScope m = .ok scope ∧
      (∀ k : Name,
        scope.terms.get? k = (own.terms.get? k).or (imports.terms.get? k) ∧
        scope.types.get? k = (own.types.get? k).or (imports.types.get? k) ∧
        scope.fixities.get? k = (own.fixities.get? k).or (imports.fixities.get? k)) ∧
      (∀ k : Name,
        (own.terms.get? k ≠ none ↔ k.owner = some m.name.value ∧ m.DeclaresTerm k.base) ∧
        (own.types.get? k ≠ none ↔ k.owner = some m.name.value ∧ m.DeclaresType k.base) ∧
        (own.fixities.get? k ≠ none ↔ k.owner = some m.name.value ∧ m.DeclaresFixity k.base)) ∧
      (∀ k : Name, (∀ i ∈ m.imports, i.value.qualifier ≠ k.owner) →
        imports.terms.get? k = none ∧ imports.types.get? k = none ∧
          imports.fixities.get? k = none) ∧
      (∀ k : Name,
        (∀ r ∈ imports.termsAt k,
          (r ∉ scope.termsAt k ↔ k.owner = some m.name.value ∧ m.DeclaresTerm k.base) ∧
            ∃ i ∈ m.imports, i.value.qualifier = k.owner ∧
              ∃ e, l.importEnv m.name.value i = .ok e ∧ r ∈ e.termsAt k) ∧
        (∀ r ∈ imports.typesAt k,
          (r ∉ scope.typesAt k ↔ k.owner = some m.name.value ∧ m.DeclaresType k.base) ∧
            ∃ i ∈ m.imports, i.value.qualifier = k.owner ∧
              ∃ e, l.importEnv m.name.value i = .ok e ∧ r ∈ e.typesAt k) ∧
        ∀ f, imports.fixityAt k = some f →
          (scope.fixityAt k ≠ some f ↔
            k.owner = some m.name.value ∧ m.DeclaresFixity k.base ∧ own.fixityAt k ≠ some f) ∧
            ∃ i ∈ m.imports, i.value.qualifier = k.owner ∧
              ∃ e, l.importEnv m.name.value i = .ok e ∧ e.fixityAt k = some f) ∧
      (∀ x : Identifier,
        scope.terms.get? (.bare x) = imports.terms.get? (.bare x) ∧
        scope.types.get? (.bare x) = imports.types.get? (.bare x) ∧
        scope.fixities.get? (.bare x) = imports.fixities.get? (.bare x)) ∧
      ∀ b : Identifier,
        (m.DeclaresTerm b →
          scope.terms.get? (.qualified m.name.value b) =
            own.terms.get? (.qualified m.name.value b) ∧
          ∀ r ∈ scope.termsAt (.qualified m.name.value b), r.source ≠ .imported) ∧
        (m.DeclaresType b →
          scope.types.get? (.qualified m.name.value b) =
            own.types.get? (.qualified m.name.value b) ∧
          ∀ r ∈ scope.typesAt (.qualified m.name.value b), r.source ≠ .imported) ∧
        (¬m.DeclaresFixity b →
          scope.fixities.get? (.qualified m.name.value b) =
            imports.fixities.get? (.qualified m.name.value b)) := by
  have hi := holds_of_importsEnv himports
  have hterms := Env.get?_terms_shadow imports own
  have htypes := Env.get?_types_shadow imports own
  have hfixities := Env.get?_fixities_shadow imports own
  refine ⟨imports.shadow own, by rw [moduleScope, himports, hown],
    fun k => ⟨hterms k, htypes k, hfixities k⟩, fun k => ?_, fun k hk => ?_, fun k => ?_,
    fun x => ?_, fun b => ?_⟩
  · exact ⟨Module.get?_records_ne_none_iff hown .term k,
      Module.get?_records_ne_none_iff hown .type k, Module.get?_fixities_ne_none_iff hown k⟩
  · have hnil : m.importsUnder k.owner = [] :=
      List.filter_eq_nil_iff.mpr fun i hi heq => hk i hi (of_decide_eq_true heq)
    rw [hi.terms, hi.types, hi.get?_fixities]
    simp [imported, hnil]
  · exact ⟨
      fun r hr => ⟨notMem_recordsAt_iff (s := .term) himports hown hr,
        exists_import_of_mem_recordsAt (s := .term) himports hr⟩,
      fun r hr => ⟨notMem_recordsAt_iff (s := .type) himports hown hr,
        exists_import_of_mem_recordsAt (s := .type) himports hr⟩,
      fun f hf => ⟨fixityAt_ne_iff hown hf, exists_import_of_fixityAt himports hf⟩⟩
  · obtain ⟨hnoTerm, hnoType, hnoFixity⟩ := Module.get?_bare hown x
    rw [hterms, htypes, hfixities, hnoTerm, hnoType, hnoFixity]
    exact ⟨rfl, rfl, rfl⟩
  · exact ⟨get?_records_of_declares (s := .term) hown, get?_records_of_declares (s := .type) hown,
      get?_fixities_of_not_declaresFixity hown⟩

/-- A module `M` that imports everything twice, bare and under the qualifier `M`, and declares a `+`
without a fixity. -/
def plusHider : Module where
  name := ⟨.onRow 1 1 2, ⟨"M", []⟩⟩
  imports :=
    [⟨.onRow 2 1 9, ⟨⟨"Lib", []⟩, none, .all⟩⟩,
      ⟨.onRow 3 1 9, ⟨⟨"Lib", []⟩, some ⟨"M", []⟩, .all⟩⟩]
  declarations :=
    [⟨.exported, .binding ⟨⟨.onRow 4 1 2, ⟨"+"⟩⟩, [], none, none, [], none, false⟩⟩]

theorem moduleScope_tables_plus :
    let l := Library.empty.load ⟨⟨"Lib", []⟩, plusExports⟩
    ∃ imports own scope, l.importsEnv plusHider = .ok imports ∧ plusHider.env = .ok own ∧
      l.moduleScope plusHider = .ok scope ∧
      ⟨.imported, .qualified ⟨"Lib", []⟩ ⟨"+"⟩⟩ ∈ imports.termsAt (.qualified ⟨"M", []⟩ ⟨"+"⟩) ∧
      ⟨.imported, .qualified ⟨"Lib", []⟩ ⟨"+"⟩⟩ ∉ scope.termsAt (.qualified ⟨"M", []⟩ ⟨"+"⟩) ∧
      scope.fixities.get? (.qualified ⟨"M", []⟩ ⟨"+"⟩) = some [⟨.left, 6⟩] ∧
      scope.types.get? (.qualified ⟨"M", []⟩ ⟨"+"⟩) =
        some [⟨.imported, .qualified ⟨"Lib", []⟩ ⟨"+"⟩⟩] := by
  intro l
  have hfound : ∀ i ∈ plusHider.imports, (l.find? i.value.source).isSome := by decide
  have hdesugared : .undesugared ∉ plusHider.outlines := by decide
  obtain ⟨imports, himports, hi⟩ := holds_importsEnv hfound
  obtain ⟨own, hown, ho⟩ := Module.holds_env hdesugared
  obtain ⟨scope, hscope, htables, -, -, hlost, -⟩ := moduleScope_tables l plusHider himports hown
  have hterms : imports.termsAt (.qualified ⟨"M", []⟩ ⟨"+"⟩) =
      [⟨.imported, .qualified ⟨"Core", []⟩ ⟨"+"⟩⟩, ⟨.imported, .qualified ⟨"Lib", []⟩ ⟨"+"⟩⟩,
        ⟨.imported, .qualified ⟨"Old", []⟩ ⟨"+"⟩⟩, ⟨.imported, .bare ⟨"+"⟩⟩] := by
    rw [hi.termsAt_eq]
    cbv
  have hmem : ⟨.imported, .qualified ⟨"Lib", []⟩ ⟨"+"⟩⟩ ∈
      imports.termsAt (.qualified ⟨"M", []⟩ ⟨"+"⟩) := by
    rw [hterms]
    decide
  refine ⟨imports, own, scope, himports, hown, hscope, hmem, ?_, ?_, ?_⟩
  · rw [((hlost _).1 _ hmem).1]
    decide
  · rw [(htables _).2.2, ho.get?_fixities, hi.get?_fixities]
    cbv
  · rw [(htables _).2.1, ho.types, hi.types]
    cbv

end Library

end Scoping
