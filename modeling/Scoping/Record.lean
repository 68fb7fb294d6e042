import Scoping.Name.Basic
import Scoping.Source

/-!
# Why a name is in scope

A record is one candidate for what a name in scope refers to: the name it stands for, its *target*,
and how it got there, its *source*. Terms and types differ in the sources they can have and in
nothing else, so records are one type with the source as a parameter.

## Main definitions

* `Scoping.Record`, `Scoping.TermRecord`, `Scoping.TypeRecord`
* `Scoping.Record.mapTarget`, `Scoping.Record.tryMapTarget` — rename the target, keep the source
* `Scoping.Origin` — what a user is told about a record
-/

namespace Scoping

/-- One candidate for what a name refers to. -/
structure Record (σ : Type) where
  source : σ
  target : Name
deriving DecidableEq

namespace Record

variable {σ ε : Type}

/-- Renames the target. -/
def mapTarget (f : Name → Name) (r : Record σ) : Record σ := { r with target := f r.target }

/-- Renames the target, or fails as `f` does. -/
def tryMapTarget (f : Name → Except ε Name) (r : Record σ) : Except ε (Record σ) := do
  return { r with target := ← f r.target }

end Record

/-- How a term name got into scope. -/
inductive TermSource where
  | binding (range : Range)
  /-- The value constructor of a newtype. -/
  | constructor (range : Range)
  | imported
deriving DecidableEq

/-- How a type name got into scope. -/
inductive TypeSource where
  /-- A type parameter, which has no declaration of its own. -/
  | parameter
  | synonym (range : Range)
  | constructor (range : Range)
  | imported
deriving DecidableEq

/-- A candidate for a term name. -/
abbrev TermRecord := Record TermSource

/-- A candidate for a type name. -/
abbrev TypeRecord := Record TypeSource

/-- Where a name comes from, as a user is told. -/
inductive Origin where
  | declared (range : Option Range) (name : Name)
  | imported (name : Name)
deriving DecidableEq

/-- The name that the user is told about. -/
def Origin.name : Origin → Name
  | .declared _ name | .imported name => name

instance : ToString Origin where
  toString
    | .declared (some range) name => s!"`{name}`, defined at {range}"
    | .declared none name => s!"`{name}`, a type parameter"
    | .imported name =>
      match name.owner with
      | some owner => s!"`{name}`, imported from module {owner}"
      | none => s!"`{name}`, imported"

/-- Where the term comes from. -/
def TermRecord.origin (r : TermRecord) : Origin :=
  match r.source with
  | .binding range | .constructor range => .declared (some range) r.target
  | .imported => .imported r.target

/-- Where the type comes from. Only a type parameter has no range. -/
def TypeRecord.origin (r : TypeRecord) : Origin :=
  match r.source with
  | .parameter => .declared none r.target
  | .synonym range | .constructor range => .declared (some range) r.target
  | .imported => .imported r.target

end Scoping
