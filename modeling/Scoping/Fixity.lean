/-!
# Fixities

How an operator groups with its neighbours. Fixities are recorded and looked up; parsing with them
is somebody else's business.
-/

namespace Scoping

/-- To which side an operator groups with itself. -/
inductive Associativity where
  | left
  | right
  | none
deriving DecidableEq

instance : ToString Associativity where
  toString
    | .left => "infixl"
    | .right => "infixr"
    | .none => "infix"

/-- The grouping of an operator and how tightly it binds. -/
structure Fixity where
  associativity : Associativity
  level : Nat
deriving DecidableEq

instance : ToString Fixity where
  toString f := s!"{f.associativity} {f.level}"

end Scoping
