import Scoping.Syntax.TypeExpr

/-!
# Patterns

A pattern binds its variables and nothing else: neither the labels of a struct pattern nor the
names in a type annotation are bound.

## Main definitions

* `Scoping.Pattern`, with structural equality
* `Scoping.Pattern.boundNames` — the variables, left to right
* `Scoping.Pattern.text`
-/

namespace Scoping

/-- A pattern as written. -/
inductive Pattern where
  | bind (name : Located Identifier)
  | wildcard
  | tuple (elements : List Pattern)
  | list (elements : List Pattern)
  | struct (fields : List (Located Identifier × Pattern))
  | typed (inner : Pattern) (type : TypeExpr)
  | split (lhs rhs : Pattern)
  | located (range : Range) (inner : Pattern)

namespace Pattern

/-! ### Equality -/

mutual

/-- Whether two patterns are written alike, ranges included. -/
def same : Pattern → Pattern → Bool
  | .bind x, .bind y => x = y
  | .wildcard, .wildcard => true
  | .tuple ps, .tuple qs => sameAll ps qs
  | .list ps, .list qs => sameAll ps qs
  | .struct fs, .struct gs => sameFields fs gs
  | .typed p t, .typed q u => p.same q && t = u
  | .split l r, .split l' r' => l.same l' && r.same r'
  | .located a p, .located b q => a = b && p.same q
  | _, _ => false

/-- Whether two lists of patterns are written alike. -/
def sameAll : List Pattern → List Pattern → Bool
  | [], [] => true
  | p :: ps, q :: qs => p.same q && sameAll ps qs
  | _, _ => false

/-- Whether two lists of labelled patterns are written alike. -/
def sameFields : List (Located Identifier × Pattern) → List (Located Identifier × Pattern) → Bool
  | [], [] => true
  | (x, p) :: fs, (y, q) :: gs => x = y && p.same q && sameFields fs gs
  | _, _ => false

end

mutual

theorem same_iff : ∀ p q : Pattern, p.same q = true ↔ p = q
  | .bind _, q => by cases q <;> simp [same]
  | .wildcard, q => by cases q <;> simp [same]
  | .tuple ps, q => by cases q <;> simp [same, sameAll_iff ps]
  | .list ps, q => by cases q <;> simp [same, sameAll_iff ps]
  | .struct fs, q => by cases q <;> simp [same, sameFields_iff fs]
  | .typed p _, q => by cases q <;> simp [same, same_iff p]
  | .split l r, q => by cases q <;> simp [same, same_iff l, same_iff r]
  | .located _ p, q => by cases q <;> simp [same, same_iff p]

theorem sameAll_iff : ∀ ps qs : List Pattern, sameAll ps qs = true ↔ ps = qs
  | [], qs => by cases qs <;> simp [sameAll]
  | p :: ps, qs => by cases qs <;> simp [sameAll, same_iff p, sameAll_iff ps]

theorem sameFields_iff : ∀ fs gs : List (Located Identifier × Pattern),
    sameFields fs gs = true ↔ fs = gs
  | [], gs => by cases gs <;> simp [sameFields]
  | (x, p) :: fs, gs => by
    rcases gs with _ | ⟨⟨y, q⟩, gs⟩ <;> simp [sameFields, same_iff p, sameFields_iff fs]

end

instance : DecidableEq Pattern := fun p q => decidable_of_iff _ (same_iff p q)

/-! ### Bound variables -/

mutual

/-- Every variable the pattern binds, left to right, with repetitions. -/
def boundNames : Pattern → List (Located Identifier)
  | .bind x => [x]
  | .wildcard => []
  | .tuple ps | .list ps => boundNamesAll ps
  | .struct fs => boundNamesFields fs
  | .typed p _ | .located _ p => p.boundNames
  | .split l r => l.boundNames ++ r.boundNames

/-- Every variable bound in a list of patterns. -/
def boundNamesAll : List Pattern → List (Located Identifier)
  | [] => []
  | p :: ps => p.boundNames ++ boundNamesAll ps

/-- Every variable bound in the values of labelled patterns. -/
def boundNamesFields : List (Located Identifier × Pattern) → List (Located Identifier)
  | [] => []
  | (_, p) :: fs => p.boundNames ++ boundNamesFields fs

end

theorem boundNamesAll_eq (ps : List Pattern) : boundNamesAll ps = ps.flatMap boundNames := by
  induction ps with
  | nil => rfl
  | cons p ps ih => simp [boundNamesAll, ih]

theorem boundNamesFields_eq (fs : List (Located Identifier × Pattern)) :
    boundNamesFields fs = fs.flatMap fun f => f.2.boundNames := by
  induction fs with
  | nil => rfl
  | cons f fs ih => simp [boundNamesFields, ih]

/-! ### Text -/

mutual

/-- A pattern as it is shown in diagnostics. Ranges are not shown. -/
def text : Pattern → String
  | .bind x => x.value.text
  | .wildcard => "_"
  | .tuple ps => "(" ++ ", ".intercalate (texts ps) ++ ")"
  | .list ps => "[" ++ ", ".intercalate (texts ps) ++ "]"
  | .struct fs => "\x7b " ++ "; ".intercalate (fieldTexts fs) ++ " \x7d"
  | .typed p t => "(" ++ p.text ++ " : " ++ t.text ++ ")"
  | .split l r => "(" ++ l.text ++ " # " ++ r.text ++ ")"
  | .located _ p => p.text

/-- The texts of the members of a list. -/
def texts : List Pattern → List String
  | [] => []
  | p :: ps => p.text :: texts ps

/-- The texts of labelled patterns, each behind its label. -/
def fieldTexts : List (Located Identifier × Pattern) → List String
  | [] => []
  | (x, p) :: fs => (x.value.text ++ ": " ++ p.text) :: fieldTexts fs

end

instance : ToString Pattern where
  toString := text

end Pattern

end Scoping
