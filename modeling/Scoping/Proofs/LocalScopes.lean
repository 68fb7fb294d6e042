import Scoping.Proofs.Members
import Scoping.Scope

/-!
# What the body of a binding sees

Three scopes meet in the body of a binding: the `where` block, the parameters, and what is around
the binding. Each table is read from the inside out, and the layers do not contribute to the same
tables. Parameters are terms only, so they hide neither a type nor the fixity of an operator, and a
`where` binding without a fixity hides the operator but not how strongly it binds.

Both inner layers are bare. Names with an owner are seen in the body as they are outside.

## Main definitions

* `Expr.unlocated`, `Binding.block` — the `where` block of a binding
* `Binding.parameterNames` — the variables of its parameters

## Main results

* `Binding.holds_parameters` — what parameters bring into scope
* `localScope_eq_error_iff`, `exists_localScope` — when a `where` block has a scope
* `bindingScope_tables` — the scope of a body, name by name
-/

namespace Scoping

/-! ### The parts of a binding -/

namespace Expr

/-- An expression without the ranges around it. -/
def unlocated : Expr → Expr
  | .located _ e => e.unlocated
  | e => e

/-- The declarations of the `where` block that the expression is, up to ranges around it. An
expression of another form has none. -/
def block (e : Expr) : List Declaration :=
  match e.unlocated with
  | .whereBlock _ ds => ds
  | _ => []

theorem whereDeclarations_eq_block : ∀ e : Expr, e.whereDeclarations = e.block
  | .name _ | .literal _ | .tuple _ | .apply _ _ | .operation _ _ _ | .lambda _ _
  | .whereBlock _ _ | .comprehension _ _ => rfl
  | .located _ e => e.whereDeclarations_eq_block

end Expr

namespace Binding

/-- The declarations of the `where` block that is the body. A primitive has none. -/
def block (b : Binding) : List Declaration := b.body.elim [] Expr.block

/-- What the scope of the body gets to see of the `where` block. -/
def blockOutlines (b : Binding) : List Outline := b.block.map Declaration.outline

/-- The variables of all parameters, left to right, with repetitions. -/
def parameterNames (b : Binding) : List (Located Identifier) :=
  b.parameters.flatMap Pattern.boundNames

/-- What the parameters bring into scope, side by side. -/
def parameterEnv (b : Binding) : Env := Env.ofEntries (b.parameters.flatMap Pattern.entries)

theorem whereDeclarations_eq_block (b : Binding) : b.whereDeclarations = b.block := by
  rw [whereDeclarations, block, funext Expr.whereDeclarations_eq_block]

theorem holds_parameters (b : Binding) : b.parameterEnv.Holds (.bound b.parameterNames) := by
  have hentries : b.parameters.flatMap Pattern.entries = b.parameterNames.map Entry.bound :=
    List.map_flatMap.symm
  rw [parameterEnv, hentries, ← gather_bound]
  exact Env.holds_ofEntries _

end Binding

/-! ### The scopes around a body -/

theorem localScope_eq_error_iff {outer : Env} {ds : List Declaration} :
    (∃ e, localScope outer ds = .error e) ↔ .undesugared ∈ ds.map Declaration.outline := by
  rw [List.mem_map]
  constructor
  · rintro ⟨e, he⟩
    by_contra hnone
    have hdesugared : ∀ d ∈ ds, d.outline ≠ .undesugared := fun d hd heq => hnone ⟨d, hd, heq⟩
    obtain ⟨inner, hinner, -⟩ := Declaration.holds_envAll hdesugared
    simp [localScope, hinner] at he
  · rintro ⟨d, hd, heq⟩
    obtain ⟨cause, hcause⟩ := Declaration.exists_error_of_undesugared hd heq
    exact ⟨.undesugared cause, by rw [localScope, hcause]⟩

/-- The scope in a `where` block is made of what its outlines say, in what is around it. -/
theorem exists_localScope {ds : List Declaration} (h : .undesugared ∉ ds.map Declaration.outline) :
    ∃ inner, Declaration.envAll ds = .ok inner ∧
      inner.Holds (members none (ds.map Declaration.outline)) ∧
      ∀ outer, localScope outer ds = .ok (outer.shadow inner) := by
  obtain ⟨inner, hinner, hcontents⟩ := Declaration.holds_envAll fun d hd heq =>
    h (heq ▸ List.mem_map_of_mem hd)
  exact ⟨inner, hinner, hcontents, fun outer => by rw [localScope, hinner]⟩

theorem exists_of_localScope {outer e : Env} {ds : List Declaration}
    (h : localScope outer ds = .ok e) :
    ∃ inner, Declaration.envAll ds = .ok inner ∧ e = outer.shadow inner := by
  rw [localScope] at h
  split at h
  · next inner hinner => exact ⟨inner, hinner, (Except.ok.inj h).symm⟩
  · contradiction

theorem bindingScope_eq_localScope (outer : Env) (b : Binding) :
    bindingScope outer b = localScope (outer.shadow b.parameterEnv) b.block := by
  rw [bindingScope, b.whereDeclarations_eq_block]
  rfl

/-- The scope of a body has three layers. -/
theorem exists_bindingScope {b : Binding} (h : .undesugared ∉ b.blockOutlines) :
    ∃ inner, Declaration.envAll b.block = .ok inner ∧
      inner.Holds (members none b.blockOutlines) ∧
      ∀ outer, bindingScope outer b = .ok ((outer.shadow b.parameterEnv).shadow inner) := by
  obtain ⟨inner, hinner, hcontents, hlocal⟩ := exists_localScope h
  exact ⟨inner, hinner, hcontents, fun outer => by rw [bindingScope_eq_localScope, hlocal]⟩

/-- Each table is read from the inside out. Only terms are looked for among the parameters. -/
theorem get?_layers {b : Binding} {inner : Env}
    (hblock : inner.Holds (members none b.blockOutlines)) (outer : Env) (k : Name) :
    ((outer.shadow b.parameterEnv).shadow inner).terms.get? k =
        (stored ((members none b.blockOutlines).terms k)).or
          ((stored ((Contents.bound b.parameterNames).terms k)).or (outer.terms.get? k)) ∧
      ((outer.shadow b.parameterEnv).shadow inner).types.get? k =
        (stored ((members none b.blockOutlines).types k)).or (outer.types.get? k) ∧
      ((outer.shadow b.parameterEnv).shadow inner).fixities.get? k =
        (stored ((members none b.blockOutlines).fixity k).toList).or (outer.fixities.get? k) := by
  have hparameters := b.holds_parameters
  refine ⟨?_, ?_, ?_⟩
  · rw [Env.get?_terms_shadow, Env.get?_terms_shadow, hblock.terms, hparameters.terms]
  · rw [Env.get?_types_shadow, Env.get?_types_shadow, hblock.types, hparameters.types]
    rfl
  · rw [Env.get?_fixities_shadow, Env.get?_fixities_shadow, hblock.fixities, hparameters.fixities]
    rfl

/-- **The scope of the body of a binding**, name by name. It exists unless the `where` block has
declarations that earlier passes should have removed. Under a bare name each table has what the
block has; terms that the block is silent about are the variables of the parameters, one for each
occurrence, and what then remains is as it is outside. Names with an owner are as they are outside.
Nothing but the variables and the outlines of the block plays a part. -/
theorem bindingScope_tables (outer : Env) (b : Binding) :
    ((∃ e, bindingScope outer b = .error e) ↔ .undesugared ∈ b.blockOutlines) ∧
    (.undesugared ∉ b.blockOutlines →
      (∃ inner scope, Declaration.envAll b.block = .ok inner ∧
        bindingScope outer b = .ok scope ∧
        (∀ x : Identifier,
          inner.terms.get? (.bare x) =
            stored ((b.blockOutlines.flatMap (Outline.termSources x)).map (⟨·, .bare x⟩)) ∧
          inner.types.get? (.bare x) =
            stored ((b.blockOutlines.flatMap (Outline.typeSources x)).map (⟨·, .bare x⟩)) ∧
          scope.terms.get? (.bare x) =
            (inner.terms.get? (.bare x)).or
              ((stored ((b.parameterNames.filter fun y => y.value = x).map
                fun y => ⟨.binding y.range, .bare x⟩)).or (outer.terms.get? (.bare x))) ∧
          scope.types.get? (.bare x) =
            (inner.types.get? (.bare x)).or (outer.types.get? (.bare x)) ∧
          scope.fixities.get? (.bare x) =
            (stored (b.blockOutlines.findSome? (Outline.fixityOf x)).toList).or
              (outer.fixities.get? (.bare x))) ∧
        ∀ k : Name, k.owner ≠ none →
          scope.terms.get? k = outer.terms.get? k ∧ scope.types.get? k = outer.types.get? k ∧
            scope.fixities.get? k = outer.fixities.get? k) ∧
      ∀ b' : Binding, b'.parameterNames = b.parameterNames → b'.blockOutlines = b.blockOutlines →
        bindingScope outer b' = bindingScope outer b) := by
  refine ⟨by rw [bindingScope_eq_localScope]; exact localScope_eq_error_iff, fun h => ?_⟩
  obtain ⟨inner, hinner, hblock, hscope⟩ := exists_bindingScope h
  have hlayers := get?_layers hblock outer
  refine ⟨⟨inner, _, hinner, hscope outer, fun x => ?_, fun k hk => ?_⟩,
    fun b' hnames houtlines => ?_⟩
  · obtain ⟨hterms, htypes, hfixities⟩ := hlayers (.bare x)
    rw [hterms, htypes, hfixities, hblock.terms, hblock.types]
    simp [Contents.bound, members, Name.bare]
  · obtain ⟨hterms, htypes, hfixities⟩ := hlayers k
    rw [hterms, htypes, hfixities]
    simp [Contents.bound, members, hk]
  · obtain ⟨inner', -, hblock', hscope'⟩ := exists_bindingScope (houtlines ▸ h)
    have hparameters' := b'.holds_parameters
    rw [houtlines] at hblock'
    rw [hnames] at hparameters'
    rw [hscope, hscope', hblock'.unique hblock, hparameters'.unique b.holds_parameters]

/-- An import of `+` and of `y`, and the fixity of `+`. -/
def plusOuter : Env := Env.ofEntries
  [.term (.bare ⟨"+"⟩) ⟨.imported, .qualified ⟨"Lib", []⟩ ⟨"+"⟩⟩, .fixity (.bare ⟨"+"⟩) ⟨.left, 6⟩,
    .term (.bare ⟨"y"⟩) ⟨.imported, .qualified ⟨"Lib", []⟩ ⟨"y"⟩⟩]

/-- A binding with a parameter `+` and two parameters `x`. Its `where` block, inside two ranges, has
a binding of `+` without a fixity, whose own `where` block has a binding of `y`. -/
def plusBinding : Binding where
  name := ⟨.onRow 1 1 2, ⟨"f"⟩⟩
  parameters :=
    [.tuple [.bind ⟨.onRow 1 3 4, ⟨"x"⟩⟩, .bind ⟨.onRow 1 5 6, ⟨"+"⟩⟩],
      .located (.onRow 1 7 8) (.bind ⟨.onRow 1 7 8, ⟨"x"⟩⟩)]
  body := some <| .located (.onRow 1 9 20) <| .located (.onRow 1 9 20) <| .whereBlock (.tuple [])
    [.located (.onRow 2 1 9) <| .binding ⟨⟨.onRow 2 1 2, ⟨"+"⟩⟩, [],
      some <| .whereBlock (.tuple [])
        [.binding ⟨⟨.onRow 3 1 2, ⟨"y"⟩⟩, [], none, none, [], none, false⟩],
      none, [], none, false⟩]
  signature := none
  pragmas := []
  fixity := none
  isOperator := false

theorem bindingScope_tables_plus :
    .undesugared ∉ plusBinding.blockOutlines ∧
      ∃ scope, bindingScope plusOuter plusBinding = .ok scope ∧
        scope.terms.get? (.bare ⟨"+"⟩) = some [⟨.binding (.onRow 2 1 2), .bare ⟨"+"⟩⟩] ∧
        scope.fixities.get? (.bare ⟨"+"⟩) = some [⟨.left, 6⟩] ∧
        scope.terms.get? (.bare ⟨"x"⟩) =
          some [⟨.binding (.onRow 1 3 4), .bare ⟨"x"⟩⟩, ⟨.binding (.onRow 1 7 8), .bare ⟨"x"⟩⟩] ∧
        scope.terms.get? (.bare ⟨"y"⟩) = some [⟨.imported, .qualified ⟨"Lib", []⟩ ⟨"y"⟩⟩] := by
  have hdesugared : .undesugared ∉ plusBinding.blockOutlines := by decide
  obtain ⟨⟨inner, scope, -, hscope, hbare, -⟩, -⟩ :=
    (bindingScope_tables plusOuter plusBinding).2 hdesugared
  refine ⟨hdesugared, scope, hscope, ?_, ?_, ?_, ?_⟩
  · rw [(hbare _).2.2.1, (hbare _).1]
    decide
  · rw [(hbare _).2.2.2.2]
    decide
  · rw [(hbare _).2.2.1, (hbare _).1]
    decide
  · rw [(hbare _).2.2.1, (hbare _).1]
    decide

end Scoping
