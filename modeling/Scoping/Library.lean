import Scoping.Import
import Scoping.Scope

/-!
# Module scopes

The scope of a module consists of its own members inside what it imports. Imports are resolved
against a library, which holds the interfaces of the modules that have been compiled so far.

Members of the module are owned by it and imported names are bare or owned by the qualifier of the
import, so a member can only hide what was imported under the module's own name as a qualifier.

## Main definitions

* `Scoping.Library`, `Library.load`, `Library.find?`
* `Library.importsEnv` — all imports of a module side by side
* `Library.moduleScope` — the scope at the top level of a module
-/

namespace Scoping

/-- The interfaces of the modules compiled so far. -/
structure Library where
  interfaces : Table ModuleName Interface
deriving DecidableEq

namespace Library

/-- No interfaces. -/
def empty : Library := ⟨∅⟩

instance : EmptyCollection Library := ⟨empty⟩

/-- Adds an interface. The one that the module had before is forgotten. -/
def load (l : Library) (i : Interface) : Library := ⟨l.interfaces.insert i.owner i⟩

/-- Adds the interfaces of a list one after another. -/
def loadAll (l : Library) (is : List Interface) : Library := is.foldl load l

/-- The interface of the module `m`, if it is there. -/
def find? (l : Library) (m : ModuleName) : Option Interface := l.interfaces.get? m

/-- What a single import of the module `importer` puts into scope. -/
def importEnv (l : Library) (importer : ModuleName) (i : Located Import) : Except ScopeError Env :=
  match l.find? i.value.source with
  | some interface => .ok (i.value.env interface.exports)
  | none => .error (.missingInterface importer i.value.source i.range)

/-- All imports of a module side by side, or the failure of the first that fails. What two imports
have in common stays ambiguous. -/
def importsEnv (l : Library) (m : Module) : Except ScopeError Env :=
  (m.imports.mapM (l.importEnv m.name.value)).map Env.mergeAll

/-- The scope at the top level of a module: its members in its imports. A failure among the imports
comes before one among the members. -/
def moduleScope (l : Library) (m : Module) : Except ScopeError Env :=
  match l.importsEnv m, m.env with
  | .ok imports, .ok own => .ok (imports.shadow own)
  | .error e, _ => .error e
  | .ok _, .error cause => .error (.undesugared cause)

end Library

end Scoping
