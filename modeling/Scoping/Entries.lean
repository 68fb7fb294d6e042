import Scoping.Desugared
import Scoping.Env.Basic
import Scoping.Syntax.Module

/-!
# What syntax puts into scope

Each construct that introduces names has a list of entries, in the order in which it introduces
them, and members of one scope are put side by side. A list of constructs therefore puts into scope
the entries of its members, one member after another, and the environment of a scope is
`Env.ofEntries` of them all.

A construct answers for what it introduces into the scope *around* it. What is bound deeper, such
as the parameters of a binding or of a synonym, has a scope of its own and no entry here.

## Main definitions

* `Binding.entries`, `Pattern.entries`, `Declaration.entries`, … — one per construct
* `Declaration.envAll` — the scope of a list of declarations
* `Module.env`, `Module.exportedEnv` — the members of a module, as seen from outside

## Implementation notes

A declaration that should have been removed before introduces nothing. `Declaration.envAll` never
gets to see that, because it fails when there is one.
-/

namespace Scoping

/-! ### Terms -/

/-- A bare term that refers to the binding of the same name at its range. -/
def Entry.bound (x : Located Identifier) : Entry :=
  .term (.bare x.value) ⟨.binding x.range, .bare x.value⟩

/-- A binding introduces its name, and with it the fixity if it is given one. -/
def Binding.entries (b : Binding) : List Entry :=
  .bound b.name :: b.fixity.toList.map (.fixity (.bare b.name.value))

/-- A pattern introduces its variables. A repeated variable is introduced each time. -/
def Pattern.entries (p : Pattern) : List Entry := p.boundNames.map .bound

/-- A clause introduces what its binder or its binding introduces. -/
def Clause.entries : Clause → List Entry
  | .generator binder _ => binder.entries
  | .binding b => b.entries

/-! ### Types -/

/-- A type parameter introduces a type that is declared nowhere. -/
def TypeParam.entry (p : TypeParam) : Entry := .type (.bare p.name) ⟨.parameter, .bare p.name⟩

/-- A signature introduces its parameters. -/
def Signature.entries (s : Signature) : List Entry := s.parameters.map TypeParam.entry

/-- A synonym introduces a type. -/
def Synonym.entry (s : Synonym) : Entry :=
  .type (.bare s.name.value) ⟨.synonym s.name.range, .bare s.name.value⟩

/-- A newtype introduces a term and a type of the same name. -/
def Newtype.entries (n : Newtype) : List Entry :=
  [.term (.bare n.name.value) ⟨.constructor n.name.range, .bare n.name.value⟩,
    .type (.bare n.name.value) ⟨.constructor n.name.range, .bare n.name.value⟩]

/-! ### Declarations and modules -/

/-- A declaration introduces what it declares. A signature or a pragma introduces the terms that it
is about, each a candidate beside the binding itself. -/
def Declaration.entries : Declaration → List Entry
  | .signature names _ | .pragma names _ => names.map .bound
  | .binding b => b.entries
  | .patternBinding _ _ | .fixity _ _ => []
  | .synonym s => [s.entry]
  | .newtype n => n.entries
  | .located _ d => d.entries

/-- The environment of declarations side by side, or what is wrong with the first of them that
should have been removed before. Names stay bare. -/
def Declaration.envAll (ds : List Declaration) : Except DesugaringError Env :=
  match firstUndesugared ds with
  | some e => .error e
  | none => .ok (Env.ofEntries (ds.flatMap entries))

namespace Module

/-- The members of a module, owned by it. -/
def env (m : Module) : Except DesugaringError Env :=
  (Declaration.envAll m.allDeclarations).map (Env.qualify m.name.value)

/-- The members of a module that other modules can see, owned by it. -/
def exportedEnv (m : Module) : Except DesugaringError Env :=
  (Declaration.envAll m.exportedDeclarations).map (Env.qualify m.name.value)

/-- The members of several modules side by side. -/
def envAll (ms : List Module) : Except DesugaringError Env := (ms.mapM env).map Env.mergeAll

end Module

end Scoping
