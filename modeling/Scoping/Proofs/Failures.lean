import Scoping.Proofs.Imports
import Scoping.Proofs.Members
import Scoping.Scope

/-!
# When there is no scope

Two things can be wrong with the input of the library. A declaration may have been left behind
that an earlier pass should have removed, and a module may import another one of which nothing is
known. Neither of them is repaired or passed over, and only the first one that is met is reported:
imports come before declarations, and of imports and of declarations the leftmost counts, whatever
comes after it.

A declaration that was left behind is reported with the range written closest around it, however
many there are. Without one, a fixity declaration is where its first name is, and a pattern binding
is nowhere in particular.

## Main definitions

* `Declaration.unlocated`, `Declaration.innermostRange` — a declaration and the ranges around it
* `Declaration.LeftBehind`, `Declaration.Reported`, `Declaration.FirstReported` — what is wrong with
  declarations, and what is said about it
* `Module.FirstReported` — the same of the members of a module, by their visibility
* `Declaration.env` — the environment of a declaration by itself

## Main results

* `Declaration.envAll_eq_mapM` — declarations are taken one after another
* `Declaration.envAll_eq_error_iff`, `Library.importsEnv_eq_error_iff` — declarations and imports
* `Module.env_eq_error_iff`, `Module.exportedEnv_eq_error_iff` — the members of a module
* `scope_failures` — when a list of declarations or a module has no scope, and why
-/

namespace Scoping

/-! ### Declarations that were left behind -/

namespace Declaration

/-- A declaration without the ranges around it. -/
def unlocated : Declaration → Declaration
  | .located _ d => d.unlocated
  | d => d

/-- The range written closest around the declaration, if there is one around it. -/
def innermostRange : Declaration → Option Range
  | .located range d => d.innermostRange.or (some range)
  | _ => none

/-- Whether an earlier pass should have removed the declaration. -/
def LeftBehind (d : Declaration) : Prop :=
  (∃ lhs rhs, d.unlocated = .patternBinding lhs rhs) ∨ ∃ f names, d.unlocated = .fixity f names

/-- What is reported of a declaration that was left behind, and how it is shown. -/
inductive Reported (d : Declaration) (e : DesugaringError) : Prop where
  | patternBinding (lhs : Pattern) (rhs : Expr) (found : d.unlocated = .patternBinding lhs rhs)
      (reported : e = .patternBinding lhs d.innermostRange)
      (shown : e.message =
        let place := atRange d.innermostRange
        let text := lhs.text
        s!"internal invariant violated{place}: pattern binding `{text}` should have been " ++
          "desugared into plain bindings before naming")
  | fixity (f : Fixity) (names : List (Located Identifier)) (found : d.unlocated = .fixity f names)
      (reported : e = .fixity (names.map Located.value)
        (d.innermostRange.or (names.head?.map Located.range)))
      (shown : e.message =
        let place := atRange (d.innermostRange.or (names.head?.map Located.range))
        let listed := ", ".intercalate (names.map fun x => x.value.text)
        s!"internal invariant violated{place}: fixity declaration for `{listed}` should " ++
          "have been attached to its bindings before naming")

/-- The first declaration that was left behind is reported. -/
def FirstReported (ds : List Declaration) (e : DesugaringError) : Prop :=
  ∃ before d after, ds = before ++ d :: after ∧ (∀ d' ∈ before, ¬d'.LeftBehind) ∧ d.Reported e

theorem unlocated_ne_located : ∀ (d : Declaration) (range : Range) (d' : Declaration),
    d.unlocated ≠ .located range d'
  | .signature _ _, _, _ | .pragma _ _, _, _ | .binding _, _, _ | .patternBinding _ _, _, _
  | .fixity _ _, _, _ | .synonym _, _, _ | .newtype _, _, _ => nofun
  | .located _ d, range, d' => d.unlocated_ne_located range d'

/-- Of all ranges around a declaration only the innermost matters. -/
theorem undesugaredWithin_eq_unlocated : ∀ (d : Declaration) (range : Option Range),
    d.undesugaredWithin range = d.unlocated.undesugaredWithin (d.innermostRange.or range)
  | .signature _ _, _ | .pragma _ _, _ | .binding _, _ | .patternBinding _ _, _ | .fixity _ _, _
  | .synonym _, _ | .newtype _, _ => rfl
  | .located inner d, range => by
    have hinner : (d.innermostRange.or (some inner)).or range =
        d.innermostRange.or (some inner) := by
      cases d.innermostRange <;> rfl
    rw [undesugaredWithin, undesugaredWithin_eq_unlocated d, unlocated, innermostRange, hinner]

theorem undesugared_eq_some_iff {d : Declaration} {e : DesugaringError} :
    d.undesugared = some e ↔ d.Reported e := by
  rw [undesugared, undesugaredWithin_eq_unlocated, Option.or_none]
  constructor
  · intro h
    cases hd : d.unlocated with
    | patternBinding lhs rhs =>
      rw [hd, undesugaredWithin, Option.some.injEq] at h
      subst h
      exact .patternBinding lhs rhs hd rfl rfl
    | fixity f names =>
      rw [hd, undesugaredWithin, Option.some.injEq] at h
      subst h
      have hlisted : (names.map Located.value).map Identifier.text =
          names.map fun x => x.value.text := List.map_map
      refine .fixity f names hd rfl ?_
      rw [← hlisted]
      rfl
    | located range d' => exact absurd hd (d.unlocated_ne_located range d')
    | _ => simp [hd, undesugaredWithin] at h
  · rintro (⟨lhs, rhs, hd, rfl, -⟩ | ⟨f, names, hd, rfl, -⟩)
    · rw [hd, undesugaredWithin]
    · rw [hd, undesugaredWithin]

theorem undesugared_eq_none_iff {d : Declaration} : d.undesugared = none ↔ ¬d.LeftBehind := by
  rw [undesugared, undesugaredWithin_eq_unlocated, LeftBehind]
  cases hd : d.unlocated with
  | located range d' => exact absurd hd (d.unlocated_ne_located range d')
  | _ => simp [undesugaredWithin]

/-! ### Declarations one after another -/

/-- The environment of a declaration found within `range`, or what is wrong with it. -/
def envWithin (range : Option Range) : Declaration → Except DesugaringError Env
  | .patternBinding lhs _ => .error (.patternBinding lhs range)
  | .fixity _ names =>
    .error (.fixity (names.map Located.value) (range.or (names.head?.map Located.range)))
  | .located inner d => d.envWithin (some inner)
  | .signature names _ | .pragma names _ => .ok (Env.ofEntries (names.map .bound))
  | .binding b => .ok (Env.ofEntries b.entries)
  | .synonym s => .ok (Env.ofEntries [s.entry])
  | .newtype n => .ok (Env.ofEntries n.entries)

/-- The environment of a declaration by itself. -/
def env (d : Declaration) : Except DesugaringError Env := d.envWithin none

theorem envWithin_eq_undesugaredWithin : ∀ (d : Declaration) (range : Option Range),
    d.envWithin range = (d.undesugaredWithin range).elim (.ok (Env.ofEntries d.entries)) .error
  | .signature _ _, _ | .pragma _ _, _ | .binding _, _ | .patternBinding _ _, _ | .fixity _ _, _
  | .synonym _, _ | .newtype _, _ => rfl
  | .located inner d, _ => envWithin_eq_undesugaredWithin d (some inner)

theorem env_eq_ok {d : Declaration} (h : d.undesugared = none) :
    d.env = .ok (Env.ofEntries d.entries) := by
  rw [env, envWithin_eq_undesugaredWithin, ← undesugared, h]
  rfl

theorem env_eq_error {d : Declaration} {e : DesugaringError} (h : d.undesugared = some e) :
    d.env = .error e := by
  rw [env, envWithin_eq_undesugaredWithin, ← undesugared, h]
  rfl

theorem eq_ofEntries_of_env {d : Declaration} {e : Env} (h : d.env = .ok e) :
    e = Env.ofEntries d.entries := by
  cases hd : d.undesugared with
  | none => exact Except.ok.inj (h.symm.trans (env_eq_ok hd))
  | some cause => exact nomatch h.symm.trans (env_eq_error hd)

/-- **Declarations are taken one after another.** Looking for the first that was left behind and
then gathering what all of them introduce comes to the same as collecting their environments. -/
theorem envAll_eq_mapM (ds : List Declaration) : envAll ds = (ds.mapM env).map Env.mergeAll := by
  rw [envAll]
  cases hfirst : firstUndesugared ds with
  | none =>
    have hall : ∀ d ∈ ds, d.env = .ok (Env.ofEntries d.entries) := fun d hd =>
      env_eq_ok (List.findSome?_eq_none_iff.mp hfirst d hd)
    rw [mapM_eq_ok hall, Env.ofEntries_flatMap]
    rfl
  | some e =>
    obtain ⟨before, d, after, hds, hd, hbefore⟩ := List.findSome?_eq_some_iff.mp hfirst
    have hmapM : ds.mapM env = .error e :=
      mapM_eq_error_iff.mpr ⟨before, d, after, hds,
        fun d' hd' => ⟨_, env_eq_ok (hbefore d' hd')⟩, env_eq_error hd⟩
    rw [hmapM]
    rfl

theorem envAll_eq_error_iff_firstUndesugared {ds : List Declaration} {e : DesugaringError} :
    envAll ds = .error e ↔ firstUndesugared ds = some e := by
  rw [envAll]
  cases firstUndesugared ds <;> simp

theorem envAll_eq_error_iff {ds : List Declaration} {e : DesugaringError} :
    envAll ds = .error e ↔ FirstReported ds e := by
  rw [envAll_eq_error_iff_firstUndesugared, firstUndesugared, List.findSome?_eq_some_iff,
    FirstReported]
  simp only [undesugared_eq_some_iff, undesugared_eq_none_iff, and_comm]

theorem exists_error_iff {ds : List Declaration} :
    (∃ e, envAll ds = .error e) ↔ ∃ d ∈ ds, d.LeftBehind := by
  simp only [envAll_eq_error_iff_firstUndesugared]
  rw [← Option.ne_none_iff_exists', ne_eq, firstUndesugared, List.findSome?_eq_none_iff]
  simp only [undesugared_eq_none_iff, not_forall, not_not, exists_prop]

theorem exists_envAll_iff {ds : List Declaration} :
    (∃ e, envAll ds = .ok e) ↔ ∀ d ∈ ds, ¬d.LeftBehind := by
  rw [exists_ok_iff, exists_error_iff]
  simp

end Declaration

theorem localScope_eq_error_iff_firstReported {outer : Env} {ds : List Declaration}
    {e : ScopeError} : localScope outer ds = .error e ↔
      ∃ cause, e = .undesugared cause ∧ Declaration.FirstReported ds cause := by
  simp only [← Declaration.envAll_eq_error_iff, localScope]
  cases Declaration.envAll ds <;> simp [eq_comm]

/-! ### Members that were left behind -/

namespace Module

variable {m : Module} {e : DesugaringError}

/-- Of the members whose visibility satisfies `p`, the first one that was left behind is reported.
What comes before it may have been left behind only if its visibility does not satisfy `p`. -/
def FirstReported (m : Module) (p : Visibility → Prop) (e : DesugaringError) : Prop :=
  ∃ before t after, m.declarations = before ++ t :: after ∧ p t.visibility ∧
    (∀ t' ∈ before, p t'.visibility → ¬t'.declaration.LeftBehind) ∧ t.declaration.Reported e

/-- Members that are taken away beforehand are members that are passed over. -/
theorem envAll_filter_eq_error_iff (p : Visibility → Prop) [DecidablePred p] :
    Declaration.envAll ((m.declarations.filter fun t => p t.visibility).map TopLevel.declaration) =
      .error e ↔ m.FirstReported p e := by
  rw [Declaration.envAll_eq_error_iff_firstUndesugared, Declaration.firstUndesugared,
    List.findSome?_map, ← findSome?_ite_none, List.findSome?_eq_some_iff, FirstReported]
  simp only [Function.comp_apply, Option.ite_none_right_eq_some, ite_eq_right_iff,
    Declaration.undesugared_eq_some_iff, Declaration.undesugared_eq_none_iff, and_assoc]
  refine exists₃_congr fun before t after => and_congr_right fun _ => and_congr_right fun _ => ?_
  exact and_comm

theorem env_eq_error_iff : m.env = .error e ↔ m.FirstReported (fun _ => True) e := by
  rw [env, map_eq_error_iff, allDeclarations, ← envAll_filter_eq_error_iff]
  simp

theorem exportedEnv_eq_error_iff :
    m.exportedEnv = .error e ↔ m.FirstReported (· = .exported) e := by
  rw [exportedEnv, map_eq_error_iff, exportedDeclarations, ← envAll_filter_eq_error_iff]
  rfl

end Module

/-! ### Imports without an interface -/

namespace Library

variable {l : Library} {m : Module} {e : ScopeError}

/-- The first import without an interface is reported. -/
def FirstMissing (l : Library) (m : Module) (e : ScopeError) : Prop :=
  ∃ before i after, m.imports = before ++ i :: after ∧
    (∀ j ∈ before, (l.find? j.value.source).isSome) ∧ l.find? i.value.source = none ∧
    e = .missingInterface m.name.value i.value.source i.range

theorem importEnv_eq_error_iff {importer : ModuleName} {i : Located Import} :
    l.importEnv importer i = .error e ↔
      l.find? i.value.source = none ∧ e = .missingInterface importer i.value.source i.range := by
  rw [importEnv]
  cases l.find? i.value.source <;> simp [eq_comm]

theorem exists_importEnv_iff {importer : ModuleName} {i : Located Import} :
    (∃ env, l.importEnv importer i = .ok env) ↔ (l.find? i.value.source).isSome := by
  rw [importEnv]
  cases l.find? i.value.source <;> simp

theorem importsEnv_eq_error_iff : l.importsEnv m = .error e ↔ l.FirstMissing m e := by
  rw [importsEnv, map_eq_error_iff, mapM_eq_error_iff, FirstMissing]
  simp only [exists_importEnv_iff, importEnv_eq_error_iff]

theorem exists_importsEnv_iff :
    (∃ env, l.importsEnv m = .ok env) ↔ ∀ i ∈ m.imports, (l.find? i.value.source).isSome := by
  constructor
  · rintro ⟨env, h⟩
    exact isSome_find?_of_importsEnv h
  · intro h
    obtain ⟨env, henv, -⟩ := holds_importsEnv h
    exact ⟨env, henv⟩

end Library

/-! ### All failures -/

/-- **When there is no scope.** Declarations have none exactly if one of them was left behind, and
the first of these is what is reported, by its text and by the innermost range around it. It makes
no difference whether they stand in a `where` block or are the members of a module, but if only the
exported members are asked for, then internal ones are passed over. A module has no scope either if
it imports a module without an interface, and the first such import is reported before anything that
is wrong with its members. -/
theorem scope_failures (l : Library) (m : Module) (outer : Env) (ds : List Declaration) :
    Declaration.envAll ds = (ds.mapM Declaration.env).map Env.mergeAll ∧
    ((∃ e, Declaration.envAll ds = .error e) ↔ ∃ d ∈ ds, d.LeftBehind) ∧
    (∀ e, Declaration.envAll ds = .error e ↔ Declaration.FirstReported ds e) ∧
    ((∃ e, localScope outer ds = .error e) ↔ ∃ d ∈ ds, d.LeftBehind) ∧
    (∀ e, localScope outer ds = .error e ↔
      ∃ cause, e = .undesugared cause ∧ Declaration.FirstReported ds cause) ∧
    (∀ e, m.env = .error e ↔ m.FirstReported (fun _ => True) e) ∧
    (∀ e, m.exportedEnv = .error e ↔ m.FirstReported (· = .exported) e) ∧
    ∀ e, l.moduleScope m = .error e ↔
      l.FirstMissing m e ∨
        (∀ i ∈ m.imports, (l.find? i.value.source).isSome) ∧
          ∃ cause, e = .undesugared cause ∧ m.FirstReported (fun _ => True) cause := by
  refine ⟨Declaration.envAll_eq_mapM ds, Declaration.exists_error_iff,
    fun e => Declaration.envAll_eq_error_iff, ?_, fun e => localScope_eq_error_iff_firstReported,
    fun e => Module.env_eq_error_iff, fun e => Module.exportedEnv_eq_error_iff, fun e => ?_⟩
  · rw [← Declaration.exists_error_iff]
    simp [localScope_eq_error_iff_firstReported, Declaration.envAll_eq_error_iff]
  · rw [← Library.importsEnv_eq_error_iff, ← Library.exists_importsEnv_iff]
    simp only [← Module.env_eq_error_iff, Library.moduleScope]
    cases l.importsEnv m with
    | error e' => simp
    | ok imports => cases m.env <;> simp [eq_comm]

/-- Of several ranges around a fixity declaration the innermost is reported, and what comes after it
is not. -/
example :
    Declaration.envAll
        [.located (.onRow 1 1 9) (.located (.onRow 1 2 8)
          (.fixity ⟨.left, 6⟩ [⟨.onRow 1 3 4, ⟨"+"⟩⟩, ⟨.onRow 1 5 6, ⟨"-"⟩⟩])),
        .patternBinding .wildcard (.tuple [])] =
      .error (.fixity [⟨"+"⟩, ⟨"-"⟩] (some (.onRow 1 2 8))) := rfl

end Scoping
