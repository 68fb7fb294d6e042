import Scoping.Import
import Scoping.Proofs.DroppedKeys
import Scoping.Proofs.Rekeying

/-!
# Selections and qualifiers of imports

An import that lists names and an import that lists the same names as hidden divide what is exported
between them. Exports of several owners may end up under one key, but what is listed are bases, and
a key keeps its base when it is moved. So a key of the importing module is on one side with all that
is moved to it, and the two imports together are the import without a list.

A qualifier is a mere renaming. What one import has under bare keys, the import with the qualifier
`Q` has under keys owned by `Q`, and the order of candidates and the choice of a fixity are the same
in both, because in both it is the keys of the exports that decide on them.

## Main definitions

* `Import.envSelecting`, `Import.envUnder` — an import with another selection or qualifier

## Main results

* `Import.filterKeys_mapKeys_key`, `Import.envSelecting_eq` — selecting by base, before or after
  names are moved
* `Import.merge_envSelecting`, `Import.shadow_envSelecting` — complementary selections
* `Import.envUnder_some`, `Import.envUnder_none` — giving and taking a qualifier
* `Import.selections_and_qualifiers` — imports that differ in their selection or qualifier only
-/

namespace Scoping

/-! ### Selections -/

namespace Selection

theorem admits_allExcept (listed : List Identifier) (b : Identifier) :
    (allExcept listed).admits b = !(only listed).admits b := decide_not

theorem admits_only (listed : List Identifier) (b : Identifier) :
    (only listed).admits b = !(allExcept listed).admits b := by
  rw [admits_allExcept, Bool.not_not]

/-- Only the members of a list matter. -/
theorem admits_congr {listed listed' : List Identifier} (h : ∀ b, b ∈ listed' ↔ b ∈ listed)
    (b : Identifier) :
    (allExcept listed').admits b = (allExcept listed).admits b ∧
      (only listed').admits b = (only listed).admits b := by
  simp only [admits, h, and_self]

end Selection

namespace Import

/-- What the import would put into scope with the selection `s`. -/
def envSelecting (i : Import) (x : Exports) (s : Selection) : Env :=
  ({ i with selection := s } : Import).env x

/-- Names may be moved before or after some are selected by their base. -/
theorem filterKeys_mapKeys_key (i : Import) (p : Identifier → Bool) (e : Env) :
    (e.mapKeys i.key).filterKeys (fun n => p n.base) =
      (e.filterKeys fun n => p n.base).mapKeys i.key := by
  simp only [Env.filterKeys_mapKeys, base_key]

theorem envSelecting_eq (i : Import) (x : Exports) (s : Selection) :
    i.envSelecting x s = (x.env.mapKeys i.key).filterKeys fun n => s.admits n.base :=
  (i.filterKeys_mapKeys_key s.admits x.env).symm

theorem envSelecting_all (i : Import) (x : Exports) :
    i.envSelecting x .all = x.env.mapKeys i.key := by
  rw [envSelecting_eq]
  refine Env.ext_table fun s => Table.ext_get? fun k => ?_
  rw [Env.table_filterKeys, Table.get?_filterKeys]
  rfl

section Complementary

variable {s s' : Selection}

/-- Selections that admit the same bases are the same to an import. -/
theorem envSelecting_congr (i : Import) (x : Exports) (h : ∀ b, s.admits b = s'.admits b) :
    i.envSelecting x s = i.envSelecting x s' := by
  simp only [envSelecting_eq, h]

theorem notMem_keys_envSelecting {i : Import} {x : Exports}
    (h : ∀ b, s'.admits b = !s.admits b) {a : Aspect} {k : Name}
    (hk : k ∈ ((i.envSelecting x s).table a).keys) :
    k ∉ ((i.envSelecting x s').table a).keys := by
  rw [envSelecting_eq, Env.table_filterKeys] at hk ⊢
  exact Table.notMem_keys_filterKeys (fun n : Name => h n.base) hk

theorem merge_envSelecting (i : Import) (x : Exports) (h : ∀ b, s'.admits b = !s.admits b) :
    (i.envSelecting x s).merge (i.envSelecting x s') = i.envSelecting x .all := by
  rw [envSelecting_all, envSelecting_eq, envSelecting_eq]
  exact Env.merge_filterKeys (fun n => h n.base) _

theorem shadow_envSelecting (i : Import) (x : Exports) (h : ∀ b, s'.admits b = !s.admits b) :
    (i.envSelecting x s).shadow (i.envSelecting x s') = i.envSelecting x .all := by
  rw [envSelecting_all, envSelecting_eq, envSelecting_eq]
  exact Env.shadow_filterKeys (fun n => h n.base) _

end Complementary

/-! ### Qualifiers -/

/-- What the import would put into scope with the qualifier `q`. -/
def envUnder (i : Import) (x : Exports) (q : Option ModuleName) : Env :=
  ({ i with qualifier := q } : Import).env x

variable {i : Import} {x : Exports}

/-- A bare name has nothing but its base, so a qualifier given to it puts no names together. -/
theorem envUnder_some (i : Import) (x : Exports) (m : ModuleName) :
    i.envUnder x (some m) = (i.envUnder x none).mapKeys (·.inModule m) :=
  (Env.mapKeys_mapKeys_of_apart (f := Name.unqualified) (g := (·.inModule m))
    (fun _ _ h => by simpa using congrArg Name.unqualified h) _).symm

theorem envUnder_none (i : Import) (x : Exports) (m : ModuleName) :
    i.envUnder x none = (i.envUnder x (some m)).mapKeys Name.unqualified :=
  (Env.mapKeys_mapKeys_of_apart (f := (·.inModule m)) (g := Name.unqualified)
    (fun _ _ h => by simpa using congrArg (·.inModule m) h) _).symm

theorem owner_of_mem_keys_envUnder_none {s : Aspect} {k : Name}
    (hk : k ∈ ((i.envUnder x none).table s).keys) : k.owner = none := by
  obtain ⟨q, -, rfl⟩ := Env.mem_keys_table_mapKeys.mp hk
  rfl

/-- Under a name of the qualifier there is what is under the bare name without a qualifier. -/
theorem get?_table_envUnder (i : Import) (x : Exports) (m : ModuleName) (s : Aspect)
    (b : Identifier) : ((i.envUnder x (some m)).table s).get? (.qualified m b) =
      ((i.envUnder x none).table s).get? (.bare b) := by
  rw [envUnder_some, Env.table_mapKeys]
  exact Table.get?_mapKeys_inModule_of_bare (fun _ => owner_of_mem_keys_envUnder_none) _ m b

/-- **Selections and qualifiers.** Take what an import puts into scope with a list of names that are
hidden and with the same list of names as the only ones. The two have no key in common, and they
make up what is imported without a list, side by side in either order and nested. Only the members
of a list matter, and it does not matter whether names are selected before or after they are moved
to their keys.

With a qualifier, the import has all that it has without one, under the keys that this qualifier
owns. -/
theorem selections_and_qualifiers (i : Import) (x : Exports) :
    (∀ listed : List Identifier,
      (∀ s, ∀ k ∈ ((i.envSelecting x (.allExcept listed)).table s).keys,
        k ∉ ((i.envSelecting x (.only listed)).table s).keys) ∧
      (i.envSelecting x (.only listed)).merge (i.envSelecting x (.allExcept listed)) =
        i.envSelecting x .all ∧
      (i.envSelecting x (.allExcept listed)).merge (i.envSelecting x (.only listed)) =
        i.envSelecting x .all ∧
      (i.envSelecting x (.only listed)).shadow (i.envSelecting x (.allExcept listed)) =
        i.envSelecting x .all ∧
      ∀ listed' : List Identifier, (∀ b, b ∈ listed' ↔ b ∈ listed) →
        i.envSelecting x (.allExcept listed') = i.envSelecting x (.allExcept listed) ∧
        i.envSelecting x (.only listed') = i.envSelecting x (.only listed)) ∧
    (∀ p : Identifier → Bool, (x.env.filterKeys fun n => p n.base).mapKeys i.key =
      (x.env.mapKeys i.key).filterKeys fun n => p n.base) ∧
    ∀ m : ModuleName,
      i.envUnder x (some m) = (i.envUnder x none).mapKeys (·.inModule m) ∧
      i.envUnder x none = (i.envUnder x (some m)).mapKeys Name.unqualified ∧
      ∀ s b, ((i.envUnder x (some m)).table s).get? (.qualified m b) =
        ((i.envUnder x none).table s).get? (.bare b) := by
  refine ⟨fun listed => ?_, fun p => (i.filterKeys_mapKeys_key p x.env).symm,
    fun m => ⟨envUnder_some i x m, envUnder_none i x m, get?_table_envUnder i x m⟩⟩
  have hhiding := Selection.admits_allExcept listed
  have honly := Selection.admits_only listed
  refine ⟨fun a k => notMem_keys_envSelecting honly, merge_envSelecting i x hhiding,
    merge_envSelecting i x honly, shadow_envSelecting i x hhiding, fun listed' h => ⟨?_, ?_⟩⟩
  · exact i.envSelecting_congr x fun b => (Selection.admits_congr h b).1
  · exact i.envSelecting_congr x fun b => (Selection.admits_congr h b).2

/-- The value `+` with two owners, which make it bind to different sides, and the newtype `*`. -/
def plusAndTimesExports : Exports :=
  ((Exports.empty.addValue (.qualified ⟨"B", []⟩ ⟨"+"⟩) (some ⟨.right, 5⟩)).addValue
    (.qualified ⟨"A", []⟩ ⟨"+"⟩) (some ⟨.left, 6⟩)).addNewtype (.qualified ⟨"A", []⟩ ⟨"*"⟩)

theorem selections_and_qualifiers_plus :
    let i : Import := ⟨⟨"A", []⟩, none, .all⟩
    let x := plusAndTimesExports
    let q : ModuleName := ⟨"Q", []⟩
    .bare ⟨"*"⟩ ∈ (i.envSelecting x (.allExcept [⟨"+"⟩])).types.keys ∧
      .bare ⟨"*"⟩ ∉ (i.envSelecting x (.only [⟨"+"⟩])).types.keys ∧
      (∀ b : Identifier, b ∈ [⟨"+"⟩, ⟨"+"⟩] ↔ b ∈ [⟨"+"⟩]) ∧
      i.envSelecting x (.only [⟨"+"⟩, ⟨"+"⟩]) = i.envSelecting x (.only [⟨"+"⟩]) ∧
      (i.envSelecting x (.only [⟨"+"⟩])).shadow (i.envSelecting x (.allExcept [⟨"+"⟩])) =
        i.envSelecting x .all ∧
      (i.envUnder x (some q)).fixities.get? (.qualified q ⟨"+"⟩) = some [⟨.left, 6⟩] := by
  intro i x q
  have hsame : ∀ b : Identifier, b ∈ [⟨"+"⟩, ⟨"+"⟩] ↔ b ∈ [⟨"+"⟩] := by simp
  have hhidden : .bare ⟨"*"⟩ ∈ (i.envSelecting x (.allExcept [⟨"+"⟩])).types.keys := by decide
  obtain ⟨hselect, -, hqualify⟩ := selections_and_qualifiers i x
  obtain ⟨hdisjoint, -, -, hshadow, hlist⟩ := hselect [⟨"+"⟩]
  obtain ⟨-, -, hget⟩ := hqualify q
  have hfixity : (i.envUnder x none).fixities.get? (.bare ⟨"+"⟩) = some [⟨.left, 6⟩] := by decide
  exact ⟨hhidden, hdisjoint .type _ hhidden, hsame, (hlist _ hsame).2, hshadow,
    (hget .fixity ⟨"+"⟩).trans hfixity⟩

end Import

end Scoping
