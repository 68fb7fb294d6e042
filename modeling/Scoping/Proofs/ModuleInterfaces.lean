import Scoping.Proofs.BuiltInterfaces
import Scoping.Proofs.ModuleScope

/-!
# A module and its interface

What other modules may see of a module can be had in two ways: from its syntax, by taking the
declarations that are exported and leaving the others out, or from the interface that is written
down for it, one export for each of these declarations. Importers only ever look at the interface.

Both have the same candidates. An interface files values, synonyms and newtypes in tables of their
own, so it lists the candidates of a name in another order than the declarations have, but all of
them refer to that name, and there are equally many. The one thing that is lost is a fixity on which
the bindings of an operator do not agree: in the module the first one that is declared counts, and
importers get none.

## Main definitions

* `Declaration.export?` — the export that stands for a declaration
* `Module.exports`, `Module.interface` — the exports of a module, and the interface made of them
* `Module.exportedContents`, `Module.interfaceContents` — what the two say of each name

## Main results

* `Module.targets_eq` — they refer to the same names equally often
* `Module.fixity_lost_iff` — which fixities importers do not get
* `Module.interface_agrees` — the two views of a module
-/

namespace Scoping

/-! ### The exports of a module -/

/-- The export that stands for a declaration in an interface. Nothing stands for a signature or a
pragma, nor for a declaration that should have been removed before. -/
def Declaration.export? : Declaration → Option (Export Identifier)
  | .binding b => some (.value b.name.value b.fixity)
  | .synonym s => some (.synonym s.name.value)
  | .newtype n => some (.newtype n.name.value)
  | .located _ d => d.export?
  | .signature _ _ | .pragma _ _ | .patternBinding _ _ | .fixity _ _ => none

namespace Module

/-- What the module exports, in the order of its declarations. -/
def exports (m : Module) : List (Export Identifier) :=
  m.exportedDeclarations.filterMap Declaration.export?

/-- The interface of the module, to which its exports are added one after another. -/
def interface (m : Module) : Interface := .build m.name.value (m.exports.map .own)

/-- The outlines of the declarations that other modules can see. -/
def exportedOutlines (m : Module) : List Outline := m.exportedDeclarations.map Declaration.outline

end Module

/-- The fixity that an exported value of `b` records. -/
def Export.fixityOf (b : Identifier) : Export Identifier → Option Fixity
  | .value base fixity => if base = b then fixity else none
  | .synonym _ | .newtype _ => none

/-! ### Declarations and the exports that stand for them -/

namespace Declaration

/-- An export stands for a declaration of its own kind. -/
theorem outline_of_export? : ∀ {d : Declaration} {x : Export Identifier}, d.export? = some x →
    (∃ name fixity, d.outline = .binding name fixity ∧ x = .value name.value fixity) ∨
      (∃ name, d.outline = .synonym name ∧ x = .synonym name.value) ∨
      ∃ name, d.outline = .newtype name ∧ x = .newtype name.value
  | .binding b, _, h => .inl ⟨b.name, b.fixity, rfl, (Option.some.inj h).symm⟩
  | .synonym s, _, h => .inr (.inl ⟨s.name, rfl, (Option.some.inj h).symm⟩)
  | .newtype n, _, h => .inr (.inr ⟨n.name, rfl, (Option.some.inj h).symm⟩)
  | .located _ d, _, h => outline_of_export? (d := d) h

theorem outline_ne_undesugared {d : Declaration} (h : d.export?.isSome) :
    d.outline ≠ .undesugared := by
  obtain ⟨x, hx⟩ := Option.isSome_iff_exists.mp h
  rcases outline_of_export? hx with ⟨_, _, ho, -⟩ | ⟨_, ho, -⟩ | ⟨_, ho, -⟩ <;> simp [ho]

theorem length_sources {d : Declaration} {x : Export Identifier} (h : d.export? = some x)
    (s : Referent) (b : Identifier) :
    (d.outline.sources s b).length = if x.introduces s b then 1 else 0 := by
  rcases outline_of_export? h with ⟨name, f, ho, rfl⟩ | ⟨name, ho, rfl⟩ | ⟨name, ho, rfl⟩ <;>
    cases s <;> by_cases hb : name.value = b <;>
    simp [ho, Outline.sources, Outline.termSources, Outline.typeSources, Export.introduces,
      Export.isTerm, Export.isType, hb]

theorem fixityOf_outline (b : Identifier) :
    ∀ d : Declaration, d.outline.fixityOf b = d.export?.bind (Export.fixityOf b)
  | .signature _ _ | .pragma _ _ | .binding _ | .patternBinding _ _ | .fixity _ _ | .synonym _
  | .newtype _ => rfl
  | .located _ d => fixityOf_outline b d

/-- There is one source for each export that stands for a declaration. -/
theorem length_flatMap_sources {ds : List Declaration} (h : ∀ d ∈ ds, d.export?.isSome)
    (s : Referent) (b : Identifier) :
    ((ds.map outline).flatMap (Outline.sources s b)).length =
      (ds.filterMap export?).countP (Export.introduces s b) := by
  induction ds with
  | nil => rfl
  | cons d ds ih =>
    rw [List.forall_mem_cons] at h
    obtain ⟨x, hx⟩ := Option.isSome_iff_exists.mp h.1
    rw [List.map_cons, List.flatMap_cons, List.length_append, length_sources hx, ih h.2,
      List.filterMap_cons_some hx, List.countP_cons, Nat.add_comm]

end Declaration

/-! ### Exports under the names of their module -/

namespace Export

variable {n : ModuleName} {k : Name} {xs : List (Export Identifier)}

theorem introduces_map_qualified (x : Export Identifier) (s : Referent) :
    (x.map (.qualified n)).introduces s k =
      (decide (k.owner = some n) && x.introduces s k.base) := by
  cases s <;> cases x <;> simp [map, introduces, isTerm, isType, Name.qualified_eq_iff]

/-- The values that are filed under a name of the module are those of its base. -/
theorem mem_valuesOf_map_qualified {v : ValueExport} :
    v ∈ (xs.map (map (.qualified n))).flatMap (valuesOf k) ↔
      k.owner = some n ∧ .value k.base v.fixity ∈ xs ∧ v.name = k := by
  rw [List.flatMap_map, List.mem_flatMap]
  constructor
  · rintro ⟨x, hx, hv⟩
    cases x with
    | value base fixity =>
      rw [map, valuesOf, List.mem_ite_nil_right, List.mem_singleton, Name.qualified_eq_iff] at hv
      obtain ⟨⟨howner, rfl⟩, rfl⟩ := hv
      exact ⟨howner, hx, Name.qualified_eq_iff.mpr ⟨howner, rfl⟩⟩
    | synonym base | newtype base => contradiction
  · rintro ⟨howner, hmem, hname⟩
    refine ⟨_, hmem, ?_⟩
    rw [map, valuesOf, if_pos (Name.qualified_eq_iff.mpr ⟨howner, rfl⟩), List.mem_singleton,
      Name.qualified_eq_iff.mpr ⟨howner, rfl⟩, ← hname]

theorem mem_of_findSome?_fixityOf {b : Identifier} {f : Fixity}
    (h : xs.findSome? (fixityOf b) = some f) : .value b (some f) ∈ xs := by
  obtain ⟨x, hx, hf⟩ := List.exists_of_findSome?_eq_some h
  cases x with
  | value base fixity =>
    rw [fixityOf, Option.ite_none_right_eq_some] at hf
    obtain ⟨rfl, rfl⟩ := hf
    exact hx
  | synonym base | newtype base => contradiction

theorem findSome?_fixityOf_ne_none_iff {b : Identifier} :
    xs.findSome? (fixityOf b) ≠ none ↔ ∃ f, .value b (some f) ∈ xs := by
  constructor
  · intro h
    obtain ⟨f, hf⟩ := Option.ne_none_iff_exists'.mp h
    exact ⟨f, mem_of_findSome?_fixityOf hf⟩
  · rintro ⟨f, hf⟩ hnone
    have hskipped := List.findSome?_eq_none_iff.mp hnone _ hf
    simp [fixityOf] at hskipped

end Export

/-! ### What the two say -/

namespace Module

variable {m : Module} {k : Name}

/-- What the exported declarations say of each name. -/
def exportedContents (m : Module) : Contents := members (some m.name.value) m.exportedOutlines

/-- What the interface says of each name. -/
def interfaceContents (m : Module) : Contents :=
  .exported (m.exports.map (Export.map (.qualified m.name.value)))

theorem holds_interface (m : Module) : m.interface.exports.env.Holds m.interfaceContents := by
  rw [interface, Interface.build_eq, List.map_map]
  exact Exports.holds_ofList _

theorem holds_exportedEnv (h : ∀ d ∈ m.exportedDeclarations, d.export?.isSome) :
    ∃ exported, m.exportedEnv = .ok exported ∧ exported.Holds m.exportedContents := by
  have hdesugared : ∀ d ∈ m.exportedDeclarations, d.outline ≠ .undesugared := by
    intro d hd
    exact Declaration.outline_ne_undesugared (h d hd)
  exact Declaration.holds_map_qualify hdesugared m.name.value

/-! ### Candidates

Both refer to a name of the module under this name only, so it is enough to count. -/

theorem targets_eq (h : ∀ d ∈ m.exportedDeclarations, d.export?.isSome) (s : Referent) (k : Name) :
    (m.exportedContents.records s k).map Record.target =
      (m.interfaceContents.records s k).map Record.target := by
  have hlength : (m.exportedOutlines.flatMap (Outline.sources s k.base)).length =
      m.exports.countP (Export.introduces s k.base) := Declaration.length_flatMap_sources h s k.base
  rw [exportedContents, members_records, interfaceContents, Contents.records_exported,
    List.countP_map, List.map_replicate]
  simp only [Function.comp_def, Export.introduces_map_qualified]
  by_cases howner : k.owner = some m.name.value
  · simp only [howner, if_true, decide_true, Bool.true_and, List.map_map, ← hlength]
    exact List.map_const' ..
  · simp [howner]

/-! ### Fixities -/

/-- The interface has the fixities on which all exported bindings of a name agree. -/
theorem interfaceContents_fixity_eq_some_iff {f : Fixity} :
    m.interfaceContents.fixity k = some f ↔
      k.owner = some m.name.value ∧ (∃ f', .value k.base f' ∈ m.exports) ∧
        ∀ f', .value k.base f' ∈ m.exports → f' = some f := by
  show agreedFixity _ = some f ↔ _
  rw [agreedFixity_eq_some_iff]
  constructor
  · rintro ⟨hne, hall⟩
    obtain ⟨v, hv⟩ := List.exists_mem_of_ne_nil _ hne
    obtain ⟨howner, hvalue, -⟩ := Export.mem_valuesOf_map_qualified.mp hv
    exact ⟨howner, ⟨v.fixity, hvalue⟩, fun f' hf' =>
      hall ⟨k, f'⟩ (Export.mem_valuesOf_map_qualified.mpr ⟨howner, hf', rfl⟩)⟩
  · rintro ⟨howner, ⟨f', hf'⟩, hall⟩
    have hfiled := Export.mem_valuesOf_map_qualified (v := ⟨k, f'⟩).mpr ⟨howner, hf', rfl⟩
    exact ⟨List.ne_nil_of_mem hfiled, fun v hv =>
      hall v.fixity (Export.mem_valuesOf_map_qualified.mp hv).2.1⟩

/-- The exported declarations have the first fixity that a binding of a name declares. -/
theorem exportedContents_fixity_eq (m : Module) (k : Name) : m.exportedContents.fixity k =
    if k.owner = some m.name.value then m.exports.findSome? (Export.fixityOf k.base) else none := by
  show (if _ then m.exportedOutlines.findSome? _ else none) = if _ then _ else none
  rw [exportedOutlines, exports, ← List.head?_filterMap, ← List.head?_filterMap,
    List.filterMap_map, List.filterMap_filterMap]
  simp only [Function.comp_def, Declaration.fixityOf_outline]

theorem exportedContents_fixity_ne_none_iff : m.exportedContents.fixity k ≠ none ↔
    k.owner = some m.name.value ∧ ∃ f, .value k.base (some f) ∈ m.exports := by
  rw [exportedContents_fixity_eq, ← Export.findSome?_fixityOf_ne_none_iff]
  split
  · next howner => exact (and_iff_right howner).symm
  · next howner => simp [howner]

/-- A fixity of the interface is the one of every binding, and so of the first. -/
theorem exportedContents_fixity_of_interface {f : Fixity}
    (h : m.interfaceContents.fixity k = some f) : m.exportedContents.fixity k = some f := by
  obtain ⟨howner, ⟨f', hf'⟩, hall⟩ := interfaceContents_fixity_eq_some_iff.mp h
  obtain rfl := hall f' hf'
  obtain ⟨g, hg⟩ := Option.ne_none_iff_exists'.mp
    (Export.findSome?_fixityOf_ne_none_iff.mpr ⟨f, hf'⟩)
  rw [exportedContents_fixity_eq, if_pos howner, hg]
  exact hall _ (Export.mem_of_findSome?_fixityOf hg)

/-- **A fixity is lost in the interface where bindings of one name disagree on it.** -/
theorem fixity_lost_iff :
    (m.exportedContents.fixity k ≠ none ∧ m.interfaceContents.fixity k = none) ↔
      k.owner = some m.name.value ∧ (∃ f, .value k.base (some f) ∈ m.exports) ∧
        ∃ f f', .value k.base f ∈ m.exports ∧ .value k.base f' ∈ m.exports ∧ f ≠ f' := by
  rw [exportedContents_fixity_ne_none_iff, Option.eq_none_iff_forall_ne_some]
  constructor
  · rintro ⟨⟨howner, f, hf⟩, hnone⟩
    refine ⟨howner, ⟨f, hf⟩, ?_⟩
    by_contra hagree
    -- If no two bindings disagree, then all of them declare the fixity of this one.
    refine hnone f (interfaceContents_fixity_eq_some_iff.mpr ⟨howner, ⟨some f, hf⟩, ?_⟩)
    intro f' hf'
    by_contra hne
    exact hagree ⟨f', some f, hf', hf, hne⟩
  · rintro ⟨howner, hsome, f, f', hf, hf', hne⟩
    refine ⟨⟨howner, hsome⟩, fun g hg => hne ?_⟩
    obtain ⟨-, -, hall⟩ := interfaceContents_fixity_eq_some_iff.mp hg
    rw [hall f hf, hall f' hf']

/-! ### The two views -/

/-- Tables whose candidates refer to the same names have the same keys. -/
theorem keys_eq_of_targets_eq {σ τ : Type} {s : Table Name (List (Record σ))}
    {t : Table Name (List (Record τ))} {f : Name → List (Record σ)} {g : Name → List (Record τ)}
    (hs : s.Lists f) (ht : t.Lists g)
    (htargets : ∀ k, (f k).map Record.target = (g k).map Record.target) : s.keys = t.keys := by
  refine Table.eq_of_ascending s.sorted t.sorted fun k => ?_
  have hnil : f k = [] ↔ g k = [] := by
    rw [← List.map_eq_nil_iff (f := Record.target), htargets, List.map_eq_nil_iff]
  rw [hs.mem_keys_iff, ht.mem_keys_iff, ne_eq, ne_eq, hnil]

/-- **A module and its interface show the same.** If every exported declaration has an export that
stands for it, then the exported members of the module and the environment of its interface have
the same keys, and under each of them as many candidates, which refer to the same names; only how
these got into scope is told of the former and not of the latter. A fixity of the interface is a
fixity of the member. The converse fails for just those names for which one exported binding
declares a fixity and not all of them agree on it. -/
theorem interface_agrees (m : Module) (h : ∀ d ∈ m.exportedDeclarations, d.export?.isSome) :
    ∃ exported imported, m.exportedEnv = .ok exported ∧ m.interface.exports.env = imported ∧
      exported.terms.keys = imported.terms.keys ∧ exported.types.keys = imported.types.keys ∧
      (∀ k, (exported.termsAt k).map Record.target = (imported.termsAt k).map Record.target ∧
        (exported.typesAt k).map Record.target = (imported.typesAt k).map Record.target) ∧
      (∀ k, (∀ r ∈ exported.termsAt k, r.source ≠ .imported) ∧
        (∀ r ∈ exported.typesAt k, r.source ≠ .imported) ∧
        (∀ r ∈ imported.termsAt k, r.source = .imported) ∧
        ∀ r ∈ imported.typesAt k, r.source = .imported) ∧
      (∀ k fs, imported.fixities.get? k = some fs → exported.fixities.get? k = some fs) ∧
      ∀ k, (exported.fixities.get? k ≠ none ∧ imported.fixities.get? k = none) ↔
        k.owner = some m.name.value ∧ (∃ f, .value k.base (some f) ∈ m.exports) ∧
          ∃ f f', .value k.base f ∈ m.exports ∧ .value k.base f' ∈ m.exports ∧ f ≠ f' := by
  obtain ⟨exported, hexported, hmembers⟩ := holds_exportedEnv h
  have hinterface := m.holds_interface
  have htermKeys : exported.terms.keys = m.interface.exports.env.terms.keys :=
    keys_eq_of_targets_eq hmembers.terms hinterface.terms (targets_eq h .term)
  have htypeKeys : exported.types.keys = m.interface.exports.env.types.keys :=
    keys_eq_of_targets_eq hmembers.types hinterface.types (targets_eq h .type)
  have hfixity : ∀ k fs, m.interface.exports.env.fixities.get? k = some fs →
      exported.fixities.get? k = some fs := by
    intro k fs hfs
    rw [hinterface.get?_fixities] at hfs
    rw [hmembers.get?_fixities]
    cases hf : m.interfaceContents.fixity k with
    | none => simp [hf] at hfs
    | some f => rwa [exportedContents_fixity_of_interface hf, ← hf]
  refine ⟨exported, _, hexported, rfl, htermKeys, htypeKeys, fun k => ?_, fun k => ?_, hfixity,
    fun k => ?_⟩
  · rw [hmembers.termsAt_eq, hmembers.typesAt_eq, hinterface.termsAt_eq, hinterface.typesAt_eq]
    exact ⟨targets_eq h .term k, targets_eq h .type k⟩
  · rw [hmembers.termsAt_eq, hmembers.typesAt_eq, hinterface.termsAt_eq, hinterface.typesAt_eq]
    exact ⟨fun r => source_ne_imported_of_mem_members (s := .term),
      fun r => source_ne_imported_of_mem_members (s := .type),
      fun r hr => congrArg Record.source (List.eq_of_mem_replicate hr),
      fun r hr => congrArg Record.source (List.eq_of_mem_replicate hr)⟩
  · rw [hmembers.get?_fixities, hinterface.get?_fixities, ne_eq, stored_eq_none_iff,
      stored_eq_none_iff, Option.toList_eq_nil_iff, Option.toList_eq_nil_iff]
    exact fixity_lost_iff

/-- A module whose two exported bindings of `+` disagree on its fixity, and whose two exported
bindings of `*` agree. What is not exported declares another fixity of `*`. -/
def plusAndTimes : Module where
  name := ⟨.onRow 1 1 2, ⟨"M", []⟩⟩
  imports := []
  declarations :=
    [⟨.exported, .located (.onRow 2 1 9) (.binding
        ⟨⟨.onRow 2 1 2, ⟨"+"⟩⟩, [], none, none, [], some ⟨.left, 6⟩, false⟩)⟩,
      ⟨.exported, .located (.onRow 3 1 9) (.located (.onRow 3 1 9) (.newtype
        ⟨⟨.onRow 3 1 2, ⟨"+"⟩⟩, [], []⟩))⟩,
      ⟨.exported, .binding ⟨⟨.onRow 4 1 2, ⟨"+"⟩⟩, [], none, none, [], none, false⟩⟩,
      ⟨.internal, .binding ⟨⟨.onRow 5 1 2, ⟨"*"⟩⟩, [], none, none, [], some ⟨.right, 5⟩, false⟩⟩,
      ⟨.exported, .binding ⟨⟨.onRow 6 1 2, ⟨"*"⟩⟩, [], none, none, [], some ⟨.left, 7⟩, false⟩⟩,
      ⟨.exported, .binding ⟨⟨.onRow 7 1 2, ⟨"*"⟩⟩, [], none, none, [], some ⟨.left, 7⟩, true⟩⟩]

theorem interface_agrees_plusAndTimes :
    (∀ d ∈ plusAndTimes.exportedDeclarations, d.export?.isSome) ∧
      ∃ exported, plusAndTimes.exportedEnv = .ok exported ∧
        (exported.termsAt (.qualified ⟨"M", []⟩ ⟨"+"⟩)).map Record.target =
          List.replicate 3 (.qualified ⟨"M", []⟩ ⟨"+"⟩) ∧
        exported.fixities.get? (.qualified ⟨"M", []⟩ ⟨"+"⟩) ≠ none ∧
        plusAndTimes.interface.exports.env.fixities.get? (.qualified ⟨"M", []⟩ ⟨"+"⟩) = none ∧
        exported.fixities.get? (.qualified ⟨"M", []⟩ ⟨"*"⟩) = some [⟨.left, 7⟩] := by
  have hexports : ∀ d ∈ plusAndTimes.exportedDeclarations, d.export?.isSome := by decide
  obtain ⟨exported, imported, hexported, rfl, -, -, htargets, -, hfixity, hlost⟩ :=
    interface_agrees plusAndTimes hexports
  have hplus := (hlost (.qualified ⟨"M", []⟩ ⟨"+"⟩)).mpr
    ⟨rfl, ⟨⟨.left, 6⟩, by decide⟩, some ⟨.left, 6⟩, none, by decide, by decide, by decide⟩
  refine ⟨hexports, exported, hexported, ?_, hplus.1, hplus.2, hfixity _ _ (by decide)⟩
  exact (htargets _).1.trans (by decide)

end Module

end Scoping
