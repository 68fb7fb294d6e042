import Scoping.Entries

/-!
# Local scopes

A scope inside another sees what the inner one introduces and, where that is silent, what the outer
one has. Members of one scope stand side by side; only nesting hides. So the clauses of a
comprehension arm do not hide one another, while the `where` block of a binding hides the
parameters, and these hide what is outside.

## Main definitions

* `Scoping.ScopeError` — why a scope cannot be computed
* `Scoping.localScope`, `Scoping.clauseScope`, `Scoping.bindingScope`
-/

namespace Scoping

/-- Why a scope cannot be computed. -/
inductive ScopeError where
  | undesugared (cause : DesugaringError)
  /-- A module imports another one of which nothing is known. -/
  | missingInterface (importer imported : ModuleName) (range : Range)
deriving DecidableEq

/-- The error as it is shown. -/
def ScopeError.message : ScopeError → String
  | .undesugared cause => s!"naming error: {cause.message}"
  | .missingInterface importer imported range =>
    s!"module {importer} imports {imported} at {range}, but no interface for it is loaded"

/-- The scope inside a `where` block, nested in `outer`. -/
def localScope (outer : Env) (ds : List Declaration) : Except ScopeError Env :=
  match Declaration.envAll ds with
  | .ok inner => .ok (outer.shadow inner)
  | .error cause => .error (.undesugared cause)

/-- The scope behind an arm of a comprehension, nested in `outer`. -/
def clauseScope (outer : Env) (clauses : List Clause) : Env :=
  outer.shadow (Env.ofEntries (clauses.flatMap Clause.entries))

/-- The scope of the body of a binding: its `where` block in its parameters in `outer`. -/
def bindingScope (outer : Env) (b : Binding) : Except ScopeError Env :=
  localScope (outer.shadow (Env.ofEntries (b.parameters.flatMap Pattern.entries)))
    b.whereDeclarations

end Scoping
