import Scoping.Syntax.Term

/-!
# Syntax that earlier passes remove

Two kinds of declaration are gone before scopes are computed: a pattern binding has become one
plain binding per variable, and a fixity declaration has become part of the bindings it names.
Meeting one is a defect of an earlier pass, never of the program that is compiled, so it is
reported with what a developer needs to find it: what was met, and where.

## Main definitions

* `Scoping.DesugaringError` and its message
* `Declaration.undesugared`, `Declaration.firstUndesugared` — the finding, for one and for many
-/

namespace Scoping

/-- A declaration that an earlier pass should have removed, with its range if that is known. -/
inductive DesugaringError where
  | patternBinding (pattern : Pattern) (range : Option Range)
  | fixity (names : List Identifier) (range : Option Range)
deriving DecidableEq

/-- Where an error was met, as the end of a phrase. -/
def atRange : Option Range → String
  | some range => s!" at {range}"
  | none => ""

/-- The error as it is shown. -/
def DesugaringError.message : DesugaringError → String
  | .patternBinding pattern range =>
    s!"internal invariant violated{atRange range}: pattern binding `{pattern}` should have been " ++
      "desugared into plain bindings before naming"
  | .fixity names range =>
    let listed := ", ".intercalate (names.map Identifier.text)
    s!"internal invariant violated{atRange range}: fixity declaration for `{listed}` should " ++
      "have been attached to its bindings before naming"

namespace Declaration

/-- What is wrong with a declaration found within `range`. The innermost range around it counts. A
fixity declaration with no range around it is where its first name is; a pattern binding with no
range around it is nowhere in particular. -/
def undesugaredWithin (range : Option Range) : Declaration → Option DesugaringError
  | .patternBinding pattern _ => some (.patternBinding pattern range)
  | .fixity _ names =>
    some (.fixity (names.map Located.value) (range.or (names.head?.map Located.range)))
  | .located inner d => d.undesugaredWithin (some inner)
  | _ => none

/-- What is wrong with a declaration, if an earlier pass should have removed it. -/
def undesugared (d : Declaration) : Option DesugaringError := d.undesugaredWithin none

/-- What is wrong with the first declaration that an earlier pass should have removed. -/
def firstUndesugared (ds : List Declaration) : Option DesugaringError := ds.findSome? undesugared

end Declaration

end Scoping
