import Scoping.Interface
import Scoping.Syntax.Module

/-!
# What an import puts into scope

An import decides which exports of a module are in scope and under which keys. It has no say in
what they refer to: whatever key a name is found under, its record still stands for the name that
the exporting module gave it.

## Main definitions

* `Import.key` — the key under which an exported name is found in scope
* `Import.env` — the environment of an import
-/

namespace Scoping

namespace Import

/-- Whether the exported name `n` is asked for. Who owns it makes no difference. -/
def admits (i : Import) (n : Name) : Bool := i.selection.admits n.base

/-- The key under which the exported name `n` is found: owned by the qualifier if the import has
one, bare otherwise. -/
def key (i : Import) (n : Name) : Name := i.qualifier.elim n.unqualified n.inModule

@[simp] theorem base_key (i : Import) (n : Name) : (i.key n).base = n.base := by
  rw [key]
  cases i.qualifier <;> rfl

/-- What the import puts into scope, given the exports of the module it imports. -/
def env (i : Import) (e : Exports) : Env := (e.env.filterKeys i.admits).mapKeys i.key

end Import

end Scoping
