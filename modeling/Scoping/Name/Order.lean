import Scoping.Name.Basic

/-!
# The order on names

Names are ordered by owner and then by base. A bare name comes before every owned one; owners are
compared segment by segment, a path before its extensions; all text is compared by code point.
Tables are kept in this order, so it is also the order in which candidates are listed.

## Main definitions

* the `Ord` instances on `Scoping.Identifier`, `Scoping.ModuleName` and `Scoping.Name`
* `Scoping.Name.sort` — a list of names in ascending order

## Main results

* `Std.TransOrd` and `Std.LawfulEqOrd` on all three: the orders are total, and two names compare
  as equal only if they are the same name
* `Name.sort_perm`, `Name.pairwise_sort` — sorting reorders and puts in order
-/

namespace Scoping

open Std (TransCmp TransOrd LawfulEqOrd LawfulEqCmp)

/-! ### Identifiers and module names -/

instance : Ord Identifier where
  compare := compareOn Identifier.text

instance : TransOrd Identifier :=
  inferInstanceAs (TransCmp (compareOn Identifier.text))

instance : LawfulEqOrd Identifier where
  eq_of_compare {a b} h := by
    have h : a.text = b.text := LawfulEqOrd.eq_of_compare h
    cases a
    cases b
    exact congrArg Identifier.mk h

theorem ModuleName.segments_injective {m n : ModuleName} (h : m.segments = n.segments) : m = n := by
  cases m
  cases n
  simpa [segments] using h

instance : Ord ModuleName where
  compare := compareOn ModuleName.segments

instance : TransOrd ModuleName :=
  inferInstanceAs (TransCmp (compareOn ModuleName.segments))

instance : LawfulEqOrd ModuleName where
  eq_of_compare h := ModuleName.segments_injective (LawfulEqOrd.eq_of_compare h)

/-! ### Names -/

instance : Ord Name where
  compare := compareLex (compareOn Name.owner) (compareOn Name.base)

instance : TransOrd Name :=
  inferInstanceAs (TransCmp (compareLex (compareOn Name.owner) (compareOn Name.base)))

theorem Name.compare_eq (a b : Name) :
    compare a b = (compare a.owner b.owner).then (compare a.base b.base) := rfl

instance : LawfulEqOrd Name where
  eq_of_compare {a b} h := by
    rw [Name.compare_eq, Ordering.then_eq_eq] at h
    have howner : a.owner = b.owner := LawfulEqOrd.eq_of_compare h.1
    have hbase : a.base = b.base := LawfulEqOrd.eq_of_compare h.2
    cases a
    cases b
    rw [Name.mk.injEq]
    exact ⟨howner, hbase⟩

/-- The names of `l` in ascending order. -/
def Name.sort (l : List Name) : List Name :=
  l.mergeSort fun a b => (compare a b).isLE

theorem Name.sort_perm (l : List Name) : (Name.sort l).Perm l := List.mergeSort_perm l _

theorem Name.pairwise_sort (l : List Name) :
    (Name.sort l).Pairwise fun a b => (compare a b).isLE = true := by
  refine List.pairwise_mergeSort (fun a b c => Std.TransCmp.isLE_trans) (fun a b => ?_) l
  rw [← Std.OrientedCmp.isGE_eq_isLE]
  cases compare b a <;> rfl

end Scoping
