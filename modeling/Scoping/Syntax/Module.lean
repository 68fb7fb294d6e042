import Scoping.Syntax.Equality

/-!
# Modules and imports

## Main definitions

* `Scoping.Import`, `Scoping.Selection` — which names of which module are asked for
* `Scoping.TopLevel`, `Scoping.Module`
-/

namespace Scoping

/-- Which exported names an import asks for. The lists hold base names. -/
inductive Selection where
  | all
  | allExcept (names : List Identifier)
  | only (names : List Identifier)
deriving DecidableEq

/-- Whether a name with the base `base` is asked for. -/
def Selection.admits (s : Selection) (base : Identifier) : Bool :=
  match s with
  | .all => true
  | .allExcept names => base ∉ names
  | .only names => base ∈ names

/-- An import of a module, perhaps under another name. -/
structure Import where
  /-- The module that is imported. -/
  source : ModuleName
  /-- The owner that imported names are given in scope; without one they are bare. -/
  qualifier : Option ModuleName
  selection : Selection
deriving DecidableEq

/-- Whether other modules can see a declaration. -/
inductive Visibility where
  | exported
  | internal
deriving DecidableEq

/-- A top-level declaration. -/
structure TopLevel where
  visibility : Visibility
  declaration : Declaration
deriving DecidableEq

/-- Whether other modules can see the declaration. -/
def TopLevel.isExported (t : TopLevel) : Bool := t.visibility = .exported

/-- A module as written. -/
structure Module where
  name : Located ModuleName
  imports : List (Located Import)
  declarations : List TopLevel
deriving DecidableEq

/-- The declarations of the module, top-level markings removed. -/
def Module.allDeclarations (m : Module) : List Declaration :=
  m.declarations.map TopLevel.declaration

/-- The declarations of the module that other modules can see. -/
def Module.exportedDeclarations (m : Module) : List Declaration :=
  (m.declarations.filter TopLevel.isExported).map TopLevel.declaration

end Scoping
