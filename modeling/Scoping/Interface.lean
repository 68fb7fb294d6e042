import Scoping.Env.Basic

/-!
# Interfaces

The interface of a module that has been compiled is what its importers get to see of it. It lists
exports rather than syntax: where a declaration was written does not matter any more, so everything
it puts into scope is recorded as imported.

Exports are filed under keys and each says which name it stands for. When an interface is built up
by `addValue` and its companions the two are the same name; a table that comes from elsewhere may
file an export under any key.

## Main definitions

* `Scoping.Exports`, `Scoping.Interface`
* `Exports.addValue`, `Interface.addValue`, … — building an interface export by export
* `unanimousFixity` — the fixity of a name that is exported more than once
* `Exports.entries`, `Exports.env` — what the exports put into scope
-/

namespace Scoping

/-- An exported value, with its fixity if it is an operator that declares one. -/
structure ValueExport where
  name : Name
  fixity : Option Fixity
deriving DecidableEq

/-- What a module exports. Several exports may share a key. -/
structure Exports where
  values : Table Name (List ValueExport)
  synonyms : Table Name (List Name)
  newtypes : Table Name (List Name)
deriving DecidableEq

/-! ### Building interfaces -/

namespace Exports

/-- No exports. -/
def empty : Exports := ⟨∅, ∅, ∅⟩

instance : EmptyCollection Exports := ⟨empty⟩

/-- Exports the value `name`, after what is exported under this name already. -/
def addValue (e : Exports) (name : Name) (fixity : Option Fixity) : Exports :=
  { e with values := e.values.update name (·.getD [] ++ [⟨name, fixity⟩]) }

/-- Exports the synonym `name`, after what is exported under this name already. -/
def addSynonym (e : Exports) (name : Name) : Exports :=
  { e with synonyms := e.synonyms.update name (·.getD [] ++ [name]) }

/-- Exports the newtype `name`, after what is exported under this name already. -/
def addNewtype (e : Exports) (name : Name) : Exports :=
  { e with newtypes := e.newtypes.update name (·.getD [] ++ [name]) }

end Exports

/-- What a compiled module shows to its importers. -/
structure Interface where
  owner : ModuleName
  exports : Exports
deriving DecidableEq

namespace Interface

/-- The interface of a module that exports nothing. -/
def empty (owner : ModuleName) : Interface := { owner, exports := ∅ }

/-- Exports the value `base` of the module. -/
def addValue (i : Interface) (base : Identifier) (fixity : Option Fixity) : Interface :=
  { i with exports := i.exports.addValue (.qualified i.owner base) fixity }

/-- Exports the synonym `base` of the module. -/
def addSynonym (i : Interface) (base : Identifier) : Interface :=
  { i with exports := i.exports.addSynonym (.qualified i.owner base) }

/-- Exports the newtype `base` of the module. -/
def addNewtype (i : Interface) (base : Identifier) : Interface :=
  { i with exports := i.exports.addNewtype (.qualified i.owner base) }

end Interface

/-! ### What exports put into scope -/

/-- The fixity on which all exports of a name agree. One that declares none disagrees with one that
does; then none of them can be relied on. -/
def unanimousFixity : List ValueExport → Option Fixity
  | [] => none
  | v :: vs => if vs.all fun w => w.fixity = v.fixity then v.fixity else none

/-- Values exported under `key` are candidates for the term, which has a fixity if they agree on
one. -/
def valueEntries (key : Name) (exports : List ValueExport) : List Entry :=
  exports.map (fun v => .term key ⟨.imported, v.name⟩) ++
    (unanimousFixity exports).toList.map (.fixity key)

/-- Synonyms exported under `key` are candidates for the type. -/
def synonymEntries (key : Name) (exports : List Name) : List Entry :=
  exports.map fun name => .type key ⟨.imported, name⟩

/-- Newtypes exported under `key` are candidates for the term and for the type. -/
def newtypeEntries (key : Name) (exports : List Name) : List Entry :=
  exports.flatMap fun name => [.term key ⟨.imported, name⟩, .type key ⟨.imported, name⟩]

namespace Exports

/-- What the exports put into scope: values before synonyms before newtypes, and each of these in
the order of the keys. -/
def entries (e : Exports) : List Entry :=
  e.values.entries.flatMap (fun x => valueEntries x.1 x.2) ++
    e.synonyms.entries.flatMap (fun x => synonymEntries x.1 x.2) ++
    e.newtypes.entries.flatMap (fun x => newtypeEntries x.1 x.2)

/-- The environment of everything that is exported, under the keys of the tables. -/
def env (e : Exports) : Env := Env.ofEntries e.entries

end Exports

end Scoping
