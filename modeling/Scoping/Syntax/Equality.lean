import Scoping.Syntax.Term

/-!
# Equality of syntax

Expressions, bindings, declarations and clauses are equal when they are written alike, ranges
included. The four contain one another, also inside lists, options and lists of lists, so there is
one comparison for each of these shapes.

## Main results

* `DecidableEq` on `Scoping.Expr`, `Scoping.Binding`, `Scoping.Declaration`, `Scoping.Clause`
-/

namespace Scoping

/-! ### The comparisons -/

mutual

/-- Whether two expressions are written alike. -/
def Expr.same : Expr → Expr → Bool
  | .name m, .name n => m = n
  | .literal v, .literal w => v = w
  | .tuple es, .tuple fs => Expr.sameAll es fs
  | .apply f as, .apply g bs => f.same g && Expr.sameAll as bs
  | .operation l o r, .operation l' o' r' => l.same l' && o = o' && r.same r'
  | .lambda ps e, .lambda qs f => ps = qs && e.same f
  | .whereBlock e ds, .whereBlock f es => e.same f && Declaration.sameAll ds es
  | .comprehension e as, .comprehension f bs => e.same f && Clause.sameArms as bs
  | .located a e, .located b f => a = b && e.same f
  | _, _ => false

/-- Whether two lists of expressions are written alike. -/
def Expr.sameAll : List Expr → List Expr → Bool
  | [], [] => true
  | e :: es, f :: fs => e.same f && Expr.sameAll es fs
  | _, _ => false

/-- Whether two optional expressions are written alike. -/
def Expr.sameOption : Option Expr → Option Expr → Bool
  | none, none => true
  | some e, some f => e.same f
  | _, _ => false

/-- Whether two bindings are written alike. -/
def Binding.same : Binding → Binding → Bool
  | ⟨x, ps, e, s, as, f, o⟩, ⟨y, qs, e', t, bs, g, o'⟩ =>
    x = y && ps = qs && Expr.sameOption e e' && s = t && as = bs && f = g && o = o'

/-- Whether two declarations are written alike. -/
def Declaration.same : Declaration → Declaration → Bool
  | .signature xs s, .signature ys t => xs = ys && s = t
  | .pragma xs p, .pragma ys q => xs = ys && p = q
  | .binding b, .binding c => b.same c
  | .patternBinding p e, .patternBinding q f => p = q && e.same f
  | .fixity f xs, .fixity g ys => f = g && xs = ys
  | .synonym s, .synonym t => s = t
  | .newtype m, .newtype n => m = n
  | .located a d, .located b e => a = b && d.same e
  | _, _ => false

/-- Whether two lists of declarations are written alike. -/
def Declaration.sameAll : List Declaration → List Declaration → Bool
  | [], [] => true
  | d :: ds, e :: es => d.same e && Declaration.sameAll ds es
  | _, _ => false

/-- Whether two clauses are written alike. -/
def Clause.same : Clause → Clause → Bool
  | .generator p e, .generator q f => p = q && e.same f
  | .binding b, .binding c => b.same c
  | _, _ => false

/-- Whether two comprehension arms are written alike. -/
def Clause.sameAll : List Clause → List Clause → Bool
  | [], [] => true
  | c :: cs, d :: ds => c.same d && Clause.sameAll cs ds
  | _, _ => false

/-- Whether two lists of comprehension arms are written alike. -/
def Clause.sameArms : List (List Clause) → List (List Clause) → Bool
  | [], [] => true
  | a :: as, b :: bs => Clause.sameAll a b && Clause.sameArms as bs
  | _, _ => false

end

/-! ### They decide equality -/

mutual

theorem Expr.same_iff : ∀ e f : Expr, e.same f = true ↔ e = f
  | .name _, f => by cases f <;> simp [Expr.same]
  | .literal _, f => by cases f <;> simp [Expr.same]
  | .tuple es, f => by cases f <;> simp [Expr.same, Expr.sameAll_iff es]
  | .apply g as, f => by cases f <;> simp [Expr.same, Expr.same_iff g, Expr.sameAll_iff as]
  | .operation l _ r, f => by
    cases f <;> simp [Expr.same, Expr.same_iff l, Expr.same_iff r, and_assoc]
  | .lambda _ e, f => by cases f <;> simp [Expr.same, Expr.same_iff e]
  | .whereBlock e ds, f => by
    cases f <;> simp [Expr.same, Expr.same_iff e, Declaration.sameAll_iff ds]
  | .comprehension e as, f => by
    cases f <;> simp [Expr.same, Expr.same_iff e, Clause.sameArms_iff as]
  | .located _ e, f => by cases f <;> simp [Expr.same, Expr.same_iff e]

theorem Expr.sameAll_iff : ∀ es fs : List Expr, Expr.sameAll es fs = true ↔ es = fs
  | [], fs => by cases fs <;> simp [Expr.sameAll]
  | e :: es, fs => by cases fs <;> simp [Expr.sameAll, Expr.same_iff e, Expr.sameAll_iff es]

theorem Expr.sameOption_iff : ∀ e f : Option Expr, Expr.sameOption e f = true ↔ e = f
  | none, f => by cases f <;> simp [Expr.sameOption]
  | some e, f => by cases f <;> simp [Expr.sameOption, Expr.same_iff e]

theorem Binding.same_iff : ∀ b c : Binding, b.same c = true ↔ b = c
  | ⟨_, _, e, _, _, _, _⟩, c => by
    cases c
    simp [Binding.same, Expr.sameOption_iff e, and_assoc]

theorem Declaration.same_iff : ∀ d e : Declaration, d.same e = true ↔ d = e
  | .signature _ _, e => by cases e <;> simp [Declaration.same]
  | .pragma _ _, e => by cases e <;> simp [Declaration.same]
  | .binding b, e => by cases e <;> simp [Declaration.same, Binding.same_iff b]
  | .patternBinding _ f, e => by cases e <;> simp [Declaration.same, Expr.same_iff f]
  | .fixity _ _, e => by cases e <;> simp [Declaration.same]
  | .synonym _, e => by cases e <;> simp [Declaration.same]
  | .newtype _, e => by cases e <;> simp [Declaration.same]
  | .located _ d, e => by cases e <;> simp [Declaration.same, Declaration.same_iff d]

theorem Declaration.sameAll_iff : ∀ ds es : List Declaration,
    Declaration.sameAll ds es = true ↔ ds = es
  | [], es => by cases es <;> simp [Declaration.sameAll]
  | d :: ds, es => by
    cases es <;> simp [Declaration.sameAll, Declaration.same_iff d, Declaration.sameAll_iff ds]

theorem Clause.same_iff : ∀ c d : Clause, c.same d = true ↔ c = d
  | .generator _ e, d => by cases d <;> simp [Clause.same, Expr.same_iff e]
  | .binding b, d => by cases d <;> simp [Clause.same, Binding.same_iff b]

theorem Clause.sameAll_iff : ∀ cs ds : List Clause, Clause.sameAll cs ds = true ↔ cs = ds
  | [], ds => by cases ds <;> simp [Clause.sameAll]
  | c :: cs, ds => by cases ds <;> simp [Clause.sameAll, Clause.same_iff c, Clause.sameAll_iff cs]

theorem Clause.sameArms_iff : ∀ as bs : List (List Clause),
    Clause.sameArms as bs = true ↔ as = bs
  | [], bs => by cases bs <;> simp [Clause.sameArms]
  | a :: as, bs => by
    cases bs <;> simp [Clause.sameArms, Clause.sameAll_iff a, Clause.sameArms_iff as]

end

instance : DecidableEq Expr := fun e f => decidable_of_iff _ (Expr.same_iff e f)

instance : DecidableEq Binding := fun b c => decidable_of_iff _ (Binding.same_iff b c)

instance : DecidableEq Declaration := fun d e => decidable_of_iff _ (Declaration.same_iff d e)

instance : DecidableEq Clause := fun c d => decidable_of_iff _ (Clause.same_iff c d)

end Scoping
