import Mathlib.Data.String.Basic
import Scoping.Name.Order

/-!
# The order on names in so many words

Tables are kept in the order on names, every lookup goes by it, and it decides in which order
candidates are listed where several keys become one. It is defined by composing comparisons. Here it
is said once more, as a relation, when one name comes before another one: bare names first, then the
segments of the owners one by one, then the bases, and all texts code point by code point. The
segments of an owner are not glued together, so it makes a difference where a dot is: the path `A.B`
of one segment comes after the path `A`, `B`.

## Main definitions

* `Scoping.TextPrecedes`, `ModuleName.Precedes`, `Name.Precedes` — what comes before what

## Main results

* `compare_list_eq_lt_iff` — lists are compared at the first place where they differ
* `Name.compare_eq_lt_iff`, `Name.compare_eq_gt_iff` — comparing names is finding out which of them
  comes first
* `Name.sort_eq_of_perm` — the order in which names are given does not matter to sorting
* `Name.strict_total_order` — what tables rely on
-/

namespace Scoping

open Std (LawfulEqOrd)

/-! ### What comes before what -/

/-- At the first place where the texts differ `s` has the lesser code point, or it ends there. -/
def TextPrecedes (s t : String) : Prop :=
  List.Lex (fun c d : Char => c.toNat < d.toNat) s.toList t.toList

/-- The first segment of `m` comes first, or it is the same and then the other segments decide. -/
def ModuleName.Precedes (m n : ModuleName) : Prop :=
  TextPrecedes m.head n.head ∨ m.head = n.head ∧ List.Lex TextPrecedes m.tail n.tail

/-- The owner decides, and among names of one owner the base. -/
inductive Name.Precedes : Name → Name → Prop where
  | bare (b b' : Identifier) (n : ModuleName) : Precedes (.bare b) (.qualified n b')
  | owner {m n : ModuleName} (h : m.Precedes n) (b b' : Identifier) :
    Precedes (.qualified m b) (.qualified n b')
  | base {b b' : Identifier} (h : TextPrecedes b.text b'.text) (o : Option ModuleName) :
    Precedes ⟨o, b⟩ ⟨o, b'⟩

/-! ### It is what comparing finds out -/

/-- **Lists are compared at the first place where they differ**, and a list comes before its
extensions. -/
theorem compare_list_eq_lt_iff {α : Type} [Ord α] [LawfulEqOrd α] {r : α → α → Prop}
    (hr : ∀ a b, compare a b = .lt ↔ r a b) (l l' : List α) :
    compare l l' = .lt ↔ List.Lex r l l' := by
  rw [List.compare_eq_compareLex]
  induction l generalizing l' with
  | nil => cases l' <;> simp [List.compareLex]
  | cons a l ih =>
    cases l' with
    | nil => simp [List.compareLex]
    | cons b l' =>
      rw [List.compareLex_cons_cons, Ordering.then_eq_lt, LawfulEqOrd.compare_eq_iff_eq, hr, ih,
        List.cons_lex_cons_iff]

theorem compare_text_eq_lt_iff (s t : String) : compare s t = .lt ↔ TextPrecedes s t := by
  show compareOfLessAndEq s t = .lt ↔ _
  rw [compareOfLessAndEq_eq_lt, String.lt_iff_toList_lt]
  exact List.lt_iff_lex_lt s.toList t.toList

theorem ModuleName.compare_eq_lt_iff (m n : ModuleName) : compare m n = .lt ↔ m.Precedes n := by
  show compare m.segments n.segments = .lt ↔ _
  rw [compare_list_eq_lt_iff compare_text_eq_lt_iff, segments, segments, List.cons_lex_cons_iff]
  rfl

namespace Name

theorem compare_of_owner_eq {a b : Name} (h : a.owner = b.owner) :
    compare a b = compare a.base b.base := by
  have hself : compare b.owner b.owner = .eq := Std.ReflCmp.compare_self
  rw [compare_eq, h, hself, Ordering.eq_then]

/-- **Comparing names is finding out which of them comes first.** -/
theorem compare_eq_lt_iff (a b : Name) : compare a b = .lt ↔ a.Precedes b := by
  constructor
  · intro h
    obtain ⟨o, x⟩ := a
    obtain ⟨o', y⟩ := b
    rw [compare_eq, Ordering.then_eq_lt] at h
    rcases h with h | ⟨h, hbase⟩
    · cases o with
      | none =>
        cases o' with
        | none => contradiction
        | some n => exact .bare x y n
      | some m =>
        cases o' with
        | none => contradiction
        | some n => exact .owner ((ModuleName.compare_eq_lt_iff m n).mp h) x y
    · obtain rfl : o = o' := LawfulEqOrd.eq_of_compare h
      exact .base ((compare_text_eq_lt_iff x.text y.text).mp hbase) o
  · intro h
    cases h with
    | bare x y n => rfl
    | @owner m n h x y =>
      have howner : compare (some m) (some n) = .lt := (ModuleName.compare_eq_lt_iff m n).mpr h
      rw [compare_eq, Ordering.then_eq_lt]
      exact .inl howner
    | @base x y h o =>
      rw [compare_of_owner_eq (a := ⟨o, x⟩) (b := ⟨o, y⟩) rfl]
      exact (compare_text_eq_lt_iff x.text y.text).mpr h

theorem compare_eq_gt_iff (a b : Name) : compare a b = .gt ↔ b.Precedes a := by
  rw [Std.OrientedCmp.gt_iff_lt, compare_eq_lt_iff]

/-! ### What follows -/

variable {a b c : Name}

theorem not_precedes_self (a : Name) : ¬a.Precedes a := by
  rw [← compare_eq_lt_iff]
  simp

theorem Precedes.trans (hab : a.Precedes b) (hbc : b.Precedes c) : a.Precedes c := by
  rw [← compare_eq_lt_iff] at hab hbc ⊢
  exact Std.TransCmp.lt_trans hab hbc

theorem Precedes.asymm (hab : a.Precedes b) : ¬b.Precedes a :=
  fun hba => not_precedes_self a (hab.trans hba)

theorem Precedes.ne (hab : a.Precedes b) : a ≠ b := by
  rintro rfl
  exact not_precedes_self a hab

theorem precedes_of_bare (ha : a.owner = none) (hb : b.owner ≠ none) : a.Precedes b := by
  obtain ⟨o, x⟩ := a
  obtain ⟨_ | n, y⟩ := b
  · contradiction
  · obtain rfl : o = none := ha
    exact .bare x y n

/-- Among names of one owner it makes no difference which owner that is. -/
theorem precedes_iff_of_owner_eq {a' b' : Name} (h : a.owner = b.owner) (h' : a'.owner = b'.owner)
    (ha : a'.base = a.base) (hb : b'.base = b.base) : a'.Precedes b' ↔ a.Precedes b := by
  rw [← compare_eq_lt_iff, ← compare_eq_lt_iff, compare_of_owner_eq h, compare_of_owner_eq h', ha,
    hb]

theorem isLE_compare_iff : (compare a b).isLE ↔ a = b ∨ a.Precedes b := by
  rw [← compare_eq_lt_iff, ← LawfulEqOrd.compare_eq_iff_eq (a := a) (b := b)]
  cases compare a b <;> simp

/-- **The order in which names are given does not matter to sorting.** -/
theorem sort_eq_of_perm {l l' : List Name} (h : l.Perm l') : sort l = sort l' := by
  refine ((sort_perm l).trans (h.trans (sort_perm l').symm)).eq_of_pairwise
    (fun a b _ _ hab hba => ?_) (pairwise_sort l) (pairwise_sort l')
  exact LawfulEqOrd.eq_of_compare (Std.OrientedCmp.isLE_antisymm hab hba)

/-- **The order on names.** Comparing two names finds out which of them comes first, and finds none
only if they are the same name. Of any two names exactly one of three things holds: the first comes
first, they are the same, or the second comes first. A name before another one is before all that
the other one is before. Bare names come before owned ones, and names of one owner come in the same
order if they are all given to another owner or to none. Sorting puts the names of a list in this
order, with their repetitions, and it does not matter in which order they were before. -/
theorem strict_total_order :
    (∀ a b : Name, (compare a b = .lt ↔ a.Precedes b) ∧ (compare a b = .eq ↔ a = b) ∧
      (compare a b = .gt ↔ b.Precedes a)) ∧
    (∀ a b : Name, a.Precedes b ∧ a ≠ b ∧ ¬b.Precedes a ∨
      ¬a.Precedes b ∧ a = b ∧ ¬b.Precedes a ∨ ¬a.Precedes b ∧ a ≠ b ∧ b.Precedes a) ∧
    (∀ a b c : Name, a.Precedes b → b.Precedes c → a.Precedes c) ∧
    (∀ a b : Name, a.owner = none → b.owner ≠ none → a.Precedes b) ∧
    (∀ a b : Name, a.owner = b.owner →
      (∀ m, (a.inModule m).Precedes (b.inModule m) ↔ a.Precedes b) ∧
      (a.unqualified.Precedes b.unqualified ↔ a.Precedes b)) ∧
    ∀ l : List Name, (sort l).Perm l ∧ (sort l).Pairwise (fun a b => a = b ∨ a.Precedes b) ∧
      ∀ l' : List Name, l'.Perm l → sort l' = sort l := by
  refine ⟨fun a b => ⟨compare_eq_lt_iff a b, LawfulEqOrd.compare_eq_iff_eq, compare_eq_gt_iff a b⟩,
    fun a b => ?_, fun _ _ _ => Precedes.trans, fun _ _ => precedes_of_bare,
    fun a b h => ⟨fun m => ?_, ?_⟩, fun l => ⟨sort_perm l, ?_, fun _ => sort_eq_of_perm⟩⟩
  · cases h : compare a b with
    | lt =>
      have hab := (compare_eq_lt_iff a b).mp h
      exact .inl ⟨hab, hab.ne, hab.asymm⟩
    | eq =>
      obtain rfl := LawfulEqOrd.eq_of_compare h
      exact .inr (.inl ⟨not_precedes_self a, rfl, not_precedes_self a⟩)
    | gt =>
      have hba := (compare_eq_gt_iff a b).mp h
      exact .inr (.inr ⟨hba.asymm, hba.ne.symm, hba⟩)
  · exact precedes_iff_of_owner_eq h rfl rfl rfl
  · exact precedes_iff_of_owner_eq h rfl rfl rfl
  · exact (pairwise_sort l).imp isLE_compare_iff.mp

/-- Owners that are written alike but have their dots in other places. -/
theorem strict_total_order_dots :
    let bare := bare ⟨"z"⟩
    let path := qualified ⟨"A", ["B"]⟩ ⟨"b"⟩
    let longer := qualified ⟨"A", ["B"]⟩ ⟨"ba"⟩
    let dotted := qualified ⟨"A.B", []⟩ ⟨"a"⟩
    bare.owner = none ∧ path.owner ≠ none ∧ bare.Precedes path ∧
      path.Precedes longer ∧ longer.Precedes dotted ∧ path.Precedes dotted ∧
      path.owner = longer.owner ∧ path.unqualified.Precedes longer.unqualified ∧
      [dotted, path, dotted].Perm [dotted, dotted, path] ∧
      sort [dotted, path, dotted] = sort [dotted, dotted, path] := by
  intro bare path longer dotted
  obtain ⟨hcompare, -, htrans, hbare, howner, hsort⟩ := strict_total_order
  have hlonger : path.Precedes longer := (hcompare _ _).1.mp (by decide)
  have hdotted : longer.Precedes dotted := (hcompare _ _).1.mp (by decide)
  have hperm : [dotted, path, dotted].Perm [dotted, dotted, path] := by decide
  exact ⟨rfl, by decide, hbare _ _ rfl (by decide), hlonger, hdotted,
    htrans _ _ _ hlonger hdotted, rfl, (howner path longer rfl).2.mpr hlonger, hperm,
    (hsort _).2.2 _ hperm⟩

end Name

end Scoping
