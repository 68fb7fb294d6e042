import Scoping.Fixity
import Scoping.Syntax.Pattern

/-!
# Expressions, bindings and declarations

Expressions contain declarations, in `where` blocks, and bindings, in the clauses of a
comprehension; both contain expressions again. None of this is evaluated: the syntax is here to say
which names it brings into scope, and where.

## Main definitions

* `Scoping.Expr`, `Scoping.Binding`, `Scoping.Declaration`, `Scoping.Clause`
* `Scoping.Expr.whereDeclarations` — the declarations of an outermost `where` block

## Implementation notes

Pattern bindings and fixity declarations are part of the syntax although earlier passes turn
them into plain bindings. What happens when one is met nevertheless is in `Scoping.Desugared`.
-/

namespace Scoping

/-- A literal constant. -/
inductive Literal where
  | int (value : Int)
  | bool (value : Bool)
  | text (value : String)
deriving DecidableEq

/-- A pragma attached to a binding. -/
inductive Pragma where
  | property
  | note (text : String)
deriving DecidableEq

/-- A type synonym. -/
structure Synonym where
  name : Located Identifier
  parameters : List TypeParam
  body : TypeExpr
deriving DecidableEq

/-- A newtype: a type together with the value constructor of the same name. -/
structure Newtype where
  name : Located Identifier
  parameters : List TypeParam
  fields : List (Located Identifier × TypeExpr)
deriving DecidableEq

mutual

/-- An expression as written. -/
inductive Expr where
  | name (name : Located Name)
  | literal (value : Literal)
  | tuple (elements : List Expr)
  | apply (function : Expr) (arguments : List Expr)
  | operation (lhs : Expr) (operator : Located Name) (rhs : Expr)
  | lambda (parameters : List Pattern) (body : Expr)
  | whereBlock (body : Expr) (declarations : List Declaration)
  | comprehension (body : Expr) (arms : List (List Clause))
  | located (range : Range) (inner : Expr)

/-- A binding of one name, with its parameters. A primitive has no body. -/
structure Binding where
  name : Located Identifier
  parameters : List Pattern
  body : Option Expr
  signature : Option Signature
  pragmas : List Pragma
  fixity : Option Fixity
  /-- Whether the name was written between its operands. -/
  isOperator : Bool

/-- A declaration, at the top level of a module or in a `where` block. -/
inductive Declaration where
  | signature (names : List (Located Identifier)) (signature : Signature)
  | pragma (names : List (Located Identifier)) (pragma : Pragma)
  | binding (binding : Binding)
  | patternBinding (lhs : Pattern) (rhs : Expr)
  | fixity (fixity : Fixity) (names : List (Located Identifier))
  | synonym (synonym : Synonym)
  | newtype (newtype : Newtype)
  | located (range : Range) (inner : Declaration)

/-- One member of a comprehension arm: a generator or a local binding. -/
inductive Clause where
  | generator (binder : Pattern) (source : Expr)
  | binding (binding : Binding)

end

/-- The same binding with the fixity `f`, which makes it an operator. -/
def Binding.withFixity (b : Binding) (f : Fixity) : Binding :=
  { b with fixity := some f, isOperator := true }

/-- The declarations of the `where` block that makes up the whole of an expression. Blocks deeper
inside belong to scopes of their own. -/
def Expr.whereDeclarations : Expr → List Declaration
  | .whereBlock _ ds => ds
  | .located _ e => e.whereDeclarations
  | _ => []

/-- The declarations whose scope is the whole body of the binding. -/
def Binding.whereDeclarations (b : Binding) : List Declaration :=
  b.body.elim [] Expr.whereDeclarations

end Scoping
