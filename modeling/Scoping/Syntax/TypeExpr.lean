import Scoping.Name.Basic
import Scoping.Source

/-!
# Types as written

Type annotations name types but never bring a term into scope; the only names a signature binds are
its type parameters. Types are compared, to compare the syntax around them, and printed, inside
diagnostics about patterns.

## Main definitions

* `Scoping.TypeExpr`, with structural equality and `TypeExpr.text`
* `Scoping.Kind`, `Scoping.TypeParam`, `Scoping.Signature`
-/

namespace Scoping

/-- The kind of a type parameter. -/
inductive Kind where
  | type
  | number
  | property
  | arrow (domain codomain : Kind)
deriving DecidableEq

/-- A type as written. -/
inductive TypeExpr where
  | constructor (name : Name)
  | parameter (name : Identifier)
  | apply (function argument : TypeExpr)
  | arrow (domain codomain : TypeExpr)
  | tuple (elements : List TypeExpr)

namespace TypeExpr

/-! ### Equality

The elements of a tuple are types again, so types and lists of types are compared together. -/

mutual

/-- Whether two types are written alike. -/
def same : TypeExpr → TypeExpr → Bool
  | .constructor m, .constructor n => m = n
  | .parameter a, .parameter b => a = b
  | .apply f a, .apply g b => f.same g && a.same b
  | .arrow d c, .arrow d' c' => d.same d' && c.same c'
  | .tuple ts, .tuple us => sameAll ts us
  | _, _ => false

/-- Whether two lists of types are written alike. -/
def sameAll : List TypeExpr → List TypeExpr → Bool
  | [], [] => true
  | t :: ts, u :: us => t.same u && sameAll ts us
  | _, _ => false

end

mutual

theorem same_iff : ∀ t u : TypeExpr, t.same u = true ↔ t = u
  | .constructor _, u => by cases u <;> simp [same]
  | .parameter _, u => by cases u <;> simp [same]
  | .apply f a, u => by cases u <;> simp [same, same_iff f, same_iff a]
  | .arrow d c, u => by cases u <;> simp [same, same_iff d, same_iff c]
  | .tuple ts, u => by cases u <;> simp [same, sameAll_iff ts]

theorem sameAll_iff : ∀ ts us : List TypeExpr, sameAll ts us = true ↔ ts = us
  | [], us => by cases us <;> simp [sameAll]
  | t :: ts, us => by cases us <;> simp [sameAll, same_iff t, sameAll_iff ts]

end

instance : DecidableEq TypeExpr := fun t u => decidable_of_iff _ (same_iff t u)

/-! ### Text -/

mutual

/-- A type as it is shown: an argument in parentheses behind what it is applied to, arrows and
tuples in parentheses of their own. -/
def text : TypeExpr → String
  | .constructor n => n.text
  | .parameter a => a.text
  | .apply f a => f.text ++ " (" ++ a.text ++ ")"
  | .arrow d c => "(" ++ d.text ++ " -> " ++ c.text ++ ")"
  | .tuple ts => "(" ++ ", ".intercalate (texts ts) ++ ")"

/-- The texts of the members of a list. -/
def texts : List TypeExpr → List String
  | [] => []
  | t :: ts => t.text :: texts ts

end

instance : ToString TypeExpr where
  toString := text

end TypeExpr

/-- A type parameter of a signature, a synonym or a newtype. -/
structure TypeParam where
  name : Identifier
  kind : Option Kind
  range : Option Range
deriving DecidableEq

/-- A polymorphic type signature. -/
structure Signature where
  parameters : List TypeParam
  body : TypeExpr
deriving DecidableEq

end Scoping
