/-!
# Names

A name is a base identifier, either bare as `f` or owned by a module as `M.f`. Local scopes deal
in bare names, modules in owned ones, and everything the library does to a name is either to give
it an owner or to take the owner away.

## Main definitions

* `Scoping.Identifier`, `Scoping.ModuleName`, `Scoping.Name`
* `Scoping.Name.inModule`, `Scoping.Name.unqualified` — change or drop the owner

## Implementation notes

A module name is a nonempty path of segments. The segments are kept apart, so the one-segment
path `A.B` and the two-segment path `A`, `B` are different names that print alike.
-/

namespace Scoping

/-- A name as it is written at its declaration, with no owner. -/
structure Identifier where
  text : String
deriving DecidableEq

instance : ToString Identifier where
  toString i := i.text

/-- The dotted path of a module. -/
structure ModuleName where
  head : String
  tail : List String := []
deriving DecidableEq

/-- The path as a list, which is never empty. -/
def ModuleName.segments (m : ModuleName) : List String := m.head :: m.tail

instance : ToString ModuleName where
  toString m := ".".intercalate m.segments

/-- A base identifier, bare or owned by a module. -/
structure Name where
  owner : Option ModuleName
  base : Identifier
deriving DecidableEq

namespace Name

/-- The name `base` without an owner. -/
def bare (base : Identifier) : Name := { owner := none, base }

/-- The name `base` owned by `owner`. -/
def qualified (owner : ModuleName) (base : Identifier) : Name := { owner := some owner, base }

/-- Whether the name has an owner. -/
def isQualified (n : Name) : Bool := n.owner.isSome

/-- The same base owned by `m`, whoever owned it before. -/
def inModule (n : Name) (m : ModuleName) : Name := qualified m n.base

/-- The same base without an owner. -/
def unqualified (n : Name) : Name := bare n.base

/-- A name as it is written: the owner, a dot and the base, or the base alone. -/
def text (n : Name) : String :=
  match n.owner with
  | some m => toString m ++ "." ++ n.base.text
  | none => n.base.text

instance : ToString Name where
  toString := text

@[simp] theorem base_inModule (n : Name) (m : ModuleName) : (n.inModule m).base = n.base := rfl

@[simp] theorem owner_inModule (n : Name) (m : ModuleName) : (n.inModule m).owner = some m := rfl

@[simp] theorem base_unqualified (n : Name) : n.unqualified.base = n.base := rfl

@[simp] theorem owner_unqualified (n : Name) : n.unqualified.owner = none := rfl

@[simp] theorem unqualified_inModule (n : Name) (m : ModuleName) :
    (n.inModule m).unqualified = n.unqualified := rfl

@[simp] theorem inModule_unqualified (n : Name) (m : ModuleName) :
    n.unqualified.inModule m = n.inModule m := rfl

theorem inModule_inj {n n' : Name} {m : ModuleName} :
    n.inModule m = n'.inModule m ↔ n.base = n'.base := by
  simp [inModule, qualified]

theorem qualified_eq_iff {m : ModuleName} {b : Identifier} {n : Name} :
    qualified m b = n ↔ n.owner = some m ∧ b = n.base := by
  obtain ⟨owner, base⟩ := n
  simp [qualified, eq_comm]

/-- The last owner wins. -/
@[simp] theorem inModule_inModule (n : Name) (m m' : ModuleName) :
    (n.inModule m).inModule m' = n.inModule m' := rfl

end Name

end Scoping
