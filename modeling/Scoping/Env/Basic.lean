import Scoping.Fixity
import Scoping.Name.Order
import Scoping.Record
import Scoping.Table.Basic

/-!
# Environments

An environment says what names in scope refer to. It has three tables, for terms, for types and for
the fixities of operators, and nothing is shared between them: one name may stand for a term and
for a type. Under a key there is a list of candidates. Two candidates are not an error here; which
of them is meant, or that none can be chosen, is for a later pass to say.

There are two ways to put environments together, and the difference between them is the subject of
the library. `merge` puts two environments side by side in one scope: all candidates are kept, the
left ones first. `shadow` nests one environment in another: wherever the inner one has a key, what
the outer one has there is gone.

## Main definitions

* `Scoping.Env`
* `Env.termsAt`, `Env.typesAt`, `Env.fixityAt` — looking up a name
* `Env.merge`, `Env.mergeAll`, `Env.shadow` — putting environments together
* `Env.mapTargets`, `Env.tryMapTargets` — renaming what records refer to
* `Env.mapKeys`, `Env.qualify`, `Env.filterKeys` — renaming and dropping keys
* `Scoping.Entry`, `Env.ofEntries` — environments from lists of single entries

## Implementation notes

An operator has one fixity, but the fixity table holds lists like the other two. That makes
replacing, dropping and renaming keys one operation on three tables, and only `merge` has to know
that a fixity already present is kept.
-/

namespace Scoping

/-- What the names in scope refer to. -/
structure Env where
  terms : Table Name (List TermRecord)
  types : Table Name (List TypeRecord)
  fixities : Table Name (List Fixity)
deriving DecidableEq

namespace Env

/-- The environment in which nothing is in scope. -/
def empty : Env := ⟨∅, ∅, ∅⟩

instance : EmptyCollection Env := ⟨empty⟩

instance : Inhabited Env := ⟨empty⟩

/-- Whether nothing is in scope. -/
def isEmpty (e : Env) : Bool := e.terms.isEmpty && e.types.isEmpty && e.fixities.isEmpty

/-! ### Looking up a name -/

/-- The candidates for the term `n`. -/
def termsAt (e : Env) (n : Name) : List TermRecord := (e.terms.get? n).getD []

/-- The candidates for the type `n`. -/
def typesAt (e : Env) (n : Name) : List TypeRecord := (e.types.get? n).getD []

/-- The fixity of the operator `n`, if it has one. -/
def fixityAt (e : Env) (n : Name) : Option Fixity := (e.fixities.get? n).bind List.head?

/-! ### Putting environments together -/

/-- Both environments in one scope. Candidates under a common key are all kept, those of `a` first;
of two fixities the one in `a` is kept. -/
def merge (a b : Env) : Env where
  terms := a.terms.mergeWith (· ++ ·) b.terms
  types := a.types.mergeWith (· ++ ·) b.types
  fixities := a.fixities.mergeWith (fun first _ => first) b.fixities

/-- All environments of a list in one scope. -/
def mergeAll (l : List Env) : Env := l.foldl merge ∅

/-- The environment `inner` in a scope inside `outer`. Under a common key only what `inner` has is
kept. -/
def shadow (outer inner : Env) : Env where
  terms := outer.terms.mergeWith (fun _ last => last) inner.terms
  types := outer.types.mergeWith (fun _ last => last) inner.types
  fixities := outer.fixities.mergeWith (fun _ last => last) inner.fixities

/-! ### Renaming and dropping -/

/-- Renames the target of every record. Keys and fixities stay as they are. -/
def mapTargets (f : Name → Name) (e : Env) : Env where
  terms := e.terms.map (List.map (Record.mapTarget f))
  types := e.types.map (List.map (Record.mapTarget f))
  fixities := e.fixities

/-- Renames the target of every record, terms before types and each table in key order; the first
failure stands for the whole. -/
def tryMapTargets {ε : Type} (f : Name → Except ε Name) (e : Env) : Except ε Env := do
  let terms ← e.terms.tryMap (List.mapM (Record.tryMapTarget f))
  let types ← e.types.tryMap (List.mapM (Record.tryMapTarget f))
  return { terms, types, fixities := e.fixities }

/-- Renames every key. Entries that arrive under one key are put side by side, in the order of the
keys they come from. -/
def mapKeys (f : Name → Name) (e : Env) : Env where
  terms := e.terms.mapKeys (· ++ ·) f
  types := e.types.mapKeys (· ++ ·) f
  fixities := e.fixities.mapKeys (fun first _ => first) f

/-- The environment of the inside of module `m` as it looks from outside: every key and every
target becomes owned by `m`. -/
def qualify (m : ModuleName) (e : Env) : Env :=
  (e.mapTargets (·.inModule m)).mapKeys (·.inModule m)

/-- Keeps the keys that satisfy `p`, in every table. -/
def filterKeys (p : Name → Bool) (e : Env) : Env where
  terms := e.terms.filterKeys p
  types := e.types.filterKeys p
  fixities := e.fixities.filterKeys p

end Env

/-! ### Single entries -/

/-- One thing that a piece of syntax or an interface puts into scope. -/
inductive Entry where
  | term (key : Name) (record : TermRecord)
  | type (key : Name) (record : TypeRecord)
  | fixity (key : Name) (fixity : Fixity)
deriving DecidableEq

/-- The environment that holds one entry. -/
def Entry.env : Entry → Env
  | .term key record => { terms := Table.empty.insert key [record], types := ∅, fixities := ∅ }
  | .type key record => { terms := ∅, types := Table.empty.insert key [record], fixities := ∅ }
  | .fixity key f => { terms := ∅, types := ∅, fixities := Table.empty.insert key [f] }

/-- The environment that holds the entries of a list, side by side. -/
def Env.ofEntries (l : List Entry) : Env := Env.mergeAll (l.map Entry.env)

end Scoping
