import Scoping.Proofs.Failures
import Scoping.Proofs.ModuleInterfaces

/-!
# What a module shows and what it hides

Some declarations of a module are exported and the others are internal, in any order and with names
in common. Leaving the internal ones out leaves out just their candidates: under each name, the
members of a module are those that it exports and those that it hides, shuffled, and both in the
order in which they were declared.

It is not so for fixities, because an operator has one only, that of the first binding which
declares one. If this binding is internal, then other modules see the fixity of a later one, or
none. The two views of a module may thus disagree on how an operator binds.

An internal declaration that was left behind by an earlier pass is not noticed when only the
exported ones are looked at.

## Main definitions

* `Scoping.Interleaving` — two lists shuffled into one
* `Module.hiddenPart` — the module with its internal declarations only
* `HiddenFixityFirst` — when an internal binding decides on a fixity

## Main results

* `Interleaving.flatMap_filter` — a list and the two parts that a test splits it into
* `findSome?_fixityOf` — which of the two parts decides on a fixity
* `Module.exists_parts`, `Module.exists_env_error_iff` — when the parts have members
* `Module.env_by_visibility` — the members of a module and the two parts that they consist of
-/

namespace Scoping

/-! ### Shuffled lists -/

/-- `whole` has the members of `l` and of `r`, those of each in their order. -/
inductive Interleaving {α : Type} : (l r whole : List α) → Prop
  | nil : Interleaving [] [] []
  | left {l r whole : List α} (a : α) :
    Interleaving l r whole → Interleaving (a :: l) r (a :: whole)
  | right {l r whole : List α} (a : α) :
    Interleaving l r whole → Interleaving l (a :: r) (a :: whole)

namespace Interleaving

variable {α β : Type} {l r whole l' r' whole' : List α}

theorem nil_right (l : List α) : Interleaving l [] l := by
  induction l with
  | nil => exact .nil
  | cons a l ih => exact .left a ih

theorem nil_left (r : List α) : Interleaving [] r r := by
  induction r with
  | nil => exact .nil
  | cons a r ih => exact .right a ih

theorem append (h : Interleaving l r whole) (h' : Interleaving l' r' whole') :
    Interleaving (l ++ l') (r ++ r') (whole ++ whole') := by
  induction h with
  | nil => exact h'
  | left a _ ih => exact .left a ih
  | right a _ ih => exact .right a ih

theorem map (h : Interleaving l r whole) (f : α → β) :
    Interleaving (l.map f) (r.map f) (whole.map f) := by
  induction h with
  | nil => exact .nil
  | left a _ ih => exact .left (f a) ih
  | right a _ ih => exact .right (f a) ih

/-- Nothing is lost or invented. -/
theorem perm (h : Interleaving l r whole) : whole.Perm (l ++ r) := by
  induction h with
  | nil => exact .refl []
  | left a _ ih => exact ih.cons a
  | right a _ ih => exact (ih.cons a).trans List.perm_middle.symm

theorem ne_nil_iff (h : Interleaving l r whole) : whole ≠ [] ↔ l ≠ [] ∨ r ≠ [] := by
  cases h <;> simp

/-- **What is gathered from a list is what is gathered from both parts of it.** -/
theorem flatMap_filter (p : α → Bool) (f : α → List β) (l : List α) :
    Interleaving ((l.filter p).flatMap f) ((l.filter (! p ·)).flatMap f) (l.flatMap f) := by
  induction l with
  | nil => exact .nil
  | cons a l ih =>
    rw [List.flatMap_cons]
    cases hp : p a with
    | true => simpa [hp] using (nil_right (f a)).append ih
    | false => simpa [hp] using (nil_left (f a)).append ih

end Interleaving

/-! ### The two parts of a module -/

/-- The outline of a top-level declaration. -/
def TopLevel.outline (t : TopLevel) : Outline := t.declaration.outline

/-- The module with its internal declarations only. -/
def Module.hiddenPart (m : Module) : Module :=
  { m with declarations := m.declarations.filter (! ·.isExported) }

/-- Of the bindings that give `b` a fixity, an internal one comes before all exported ones. -/
def HiddenFixityFirst (b : Identifier) (ts : List TopLevel) : Prop :=
  ∃ before t after, ts = before ++ t :: after ∧ t.visibility = .internal ∧
    t.outline.fixityOf b ≠ none ∧
      ∀ t' ∈ before, t'.visibility = .exported → t'.outline.fixityOf b = none

section Fixity

variable {b : Identifier} {t : TopLevel} {ts : List TopLevel}

theorem not_hiddenFixityFirst_nil : ¬HiddenFixityFirst b [] := by
  rintro ⟨before, t, after, hts, -⟩
  simp at hts

theorem hiddenFixityFirst_cons_iff : HiddenFixityFirst b (t :: ts) ↔
    (t.visibility = .internal ∧ t.outline.fixityOf b ≠ none) ∨
      ((t.visibility = .exported → t.outline.fixityOf b = none) ∧ HiddenFixityFirst b ts) := by
  constructor
  · rintro ⟨before, x, after, hts, hhidden, hfixity, hbefore⟩
    cases before with
    | nil =>
      obtain ⟨rfl, -⟩ := List.cons.inj hts
      exact .inl ⟨hhidden, hfixity⟩
    | cons y before =>
      obtain ⟨rfl, hrest⟩ := List.cons.inj hts
      rw [List.forall_mem_cons] at hbefore
      exact .inr ⟨hbefore.1, before, x, after, hrest, hhidden, hfixity, hbefore.2⟩
  · rintro (⟨hhidden, hfixity⟩ | ⟨ht, before, x, after, rfl, hhidden, hfixity, hbefore⟩)
    · exact ⟨[], t, ts, rfl, hhidden, hfixity, by simp⟩
    · exact ⟨t :: before, x, after, rfl, hhidden, hfixity, List.forall_mem_cons.mpr ⟨ht, hbefore⟩⟩

instance decidableHiddenFixityFirst (b : Identifier) :
    (ts : List TopLevel) → Decidable (HiddenFixityFirst b ts)
  | [] => .isFalse not_hiddenFixityFirst_nil
  | _ :: ts =>
    have := decidableHiddenFixityFirst b ts
    decidable_of_iff _ hiddenFixityFirst_cons_iff.symm

/-- The exported bindings decide on the fixity, unless an internal one comes first. -/
theorem findSome?_fixityOf (b : Identifier) (ts : List TopLevel) :
    (ts.map TopLevel.outline).findSome? (Outline.fixityOf b) =
      if HiddenFixityFirst b ts then
        ((ts.filter (! ·.isExported)).map TopLevel.outline).findSome? (Outline.fixityOf b)
      else
        ((ts.filter TopLevel.isExported).map TopLevel.outline).findSome? (Outline.fixityOf b) := by
  induction ts with
  | nil => rfl
  | cons t ts ih =>
    rw [List.map_cons, List.findSome?_cons, ih]
    -- The first one that declares a fixity decides; before it nothing is different.
    cases hvisibility : t.visibility <;> cases hfixity : t.outline.fixityOf b <;>
      simp [hiddenFixityFirst_cons_iff, TopLevel.isExported, hvisibility, hfixity]

end Fixity

/-! ### The members of both parts -/

/-- Under each name both parts have their candidates, which shuffled are all candidates. -/
theorem interleaving_candidates {σ : Type} (sources : Outline → List σ) (ts : List TopLevel)
    (owner : Option ModuleName) (k : Name) :
    Interleaving
      (if k.owner = owner then
        ((((ts.filter TopLevel.isExported).map TopLevel.outline).flatMap sources).map
          (⟨·, k⟩) : List (Record σ)) else [])
      (if k.owner = owner then
        (((ts.filter (! ·.isExported)).map TopLevel.outline).flatMap sources).map (⟨·, k⟩) else [])
      (if k.owner = owner then
        ((ts.map TopLevel.outline).flatMap sources).map (⟨·, k⟩) else []) := by
  split
  · simp only [List.flatMap_map]
    exact (Interleaving.flatMap_filter _ _ ts).map _
  · exact .nil

/-- The fixity of a member is that of one of the two parts. -/
theorem members_fixity_eq_ite (ts : List TopLevel) (owner : Option ModuleName) (k : Name) :
    (members owner (ts.map TopLevel.outline)).fixity k =
      if HiddenFixityFirst k.base ts then
        (members owner ((ts.filter (! ·.isExported)).map TopLevel.outline)).fixity k
      else (members owner ((ts.filter TopLevel.isExported).map TopLevel.outline)).fixity k := by
  by_cases howner : k.owner = owner
  · simpa only [members, if_pos howner] using findSome?_fixityOf k.base ts
  · simp [members, howner]

namespace Module

variable {m : Module} {all exported hidden : Env}

theorem exists_env_error_iff :
    (∃ e, m.env = .error e) ↔ ∃ t ∈ m.declarations, t.declaration.LeftBehind := by
  simp only [env, map_eq_error_iff]
  rw [Declaration.exists_error_iff, allDeclarations]
  simp

theorem exists_exportedEnv_error_iff : (∃ e, m.exportedEnv = .error e) ↔
    ∃ t ∈ m.declarations, t.visibility = .exported ∧ t.declaration.LeftBehind := by
  simp only [exportedEnv, map_eq_error_iff]
  rw [Declaration.exists_error_iff, exportedDeclarations]
  simp [TopLevel.isExported, and_assoc]

/-- If all declarations have an environment together, then so do those of either part. -/
theorem exists_parts (h : m.env = .ok all) : ∃ exported hidden,
    m.exportedEnv = .ok exported ∧ m.hiddenPart.env = .ok hidden := by
  have hnone : ∀ t ∈ m.declarations, ¬t.declaration.LeftBehind := by
    simpa [exists_env_error_iff] using exists_ok_iff.mp ⟨all, h⟩
  have hexported : ∃ exported, m.exportedEnv = .ok exported := by
    rw [exists_ok_iff, exists_exportedEnv_error_iff]
    rintro ⟨t, ht, -, hleft⟩
    exact hnone t ht hleft
  have hhidden : ∃ hidden, m.hiddenPart.env = .ok hidden := by
    rw [exists_ok_iff, exists_env_error_iff]
    rintro ⟨t, ht, hleft⟩
    exact hnone t (List.mem_of_mem_filter ht) hleft
  obtain ⟨exported, hexported⟩ := hexported
  obtain ⟨hidden, hhidden⟩ := hhidden
  exact ⟨exported, hidden, hexported, hhidden⟩

section Parts

variable (hall : m.env = .ok all) (hexported : m.exportedEnv = .ok exported)
  (hhidden : m.hiddenPart.env = .ok hidden) (k : Name)

include hall hexported hhidden

theorem holds_parts :
    all.Holds (members (some m.name.value) (m.declarations.map TopLevel.outline)) ∧
      exported.Holds (members (some m.name.value)
        ((m.declarations.filter TopLevel.isExported).map TopLevel.outline)) ∧
      hidden.Holds (members (some m.name.value)
        ((m.declarations.filter (! ·.isExported)).map TopLevel.outline)) := by
  have houtlines : ∀ ts : List TopLevel,
      (ts.map TopLevel.declaration).map Declaration.outline = ts.map TopLevel.outline :=
    fun ts => List.map_map
  refine ⟨?_, ?_, ?_⟩ <;> rw [← houtlines]
  · exact holds_of_env hall
  · exact Declaration.holds_of_map_qualify hexported
  · exact holds_of_env hhidden

theorem interleaving_recordsAt (s : Referent) :
    Interleaving (exported.recordsAt s k) (hidden.recordsAt s k) (all.recordsAt s k) := by
  obtain ⟨hall, hexported, hhidden⟩ := holds_parts hall hexported hhidden
  rw [hall.recordsAt_eq, hexported.recordsAt_eq, hhidden.recordsAt_eq, members_records,
    members_records, members_records]
  exact interleaving_candidates _ m.declarations _ k

/-- A name is a key of the whole if it is one of either part. -/
theorem mem_records_keys_iff_of_parts (s : Referent) :
    k ∈ (all.records s).keys ↔ k ∈ (exported.records s).keys ∨ k ∈ (hidden.records s).keys := by
  have hparts := interleaving_recordsAt hall hexported hhidden k s
  obtain ⟨hall, hexported, hhidden⟩ := holds_parts hall hexported hhidden
  rw [hall.mem_records_keys_iff, hexported.mem_records_keys_iff, hhidden.mem_records_keys_iff]
  exact hparts.ne_nil_iff

theorem get?_fixities_eq_ite :
    all.fixities.get? k =
      if HiddenFixityFirst k.base m.declarations then hidden.fixities.get? k
      else exported.fixities.get? k := by
  obtain ⟨hall, hexported, hhidden⟩ := holds_parts hall hexported hhidden
  rw [hall.get?_fixities, hexported.get?_fixities, hhidden.get?_fixities, members_fixity_eq_ite]
  split <;> rfl

/-- An operator whose fixity is exported has a fixity inside, though perhaps another one. -/
theorem mem_fixities_keys (h : k ∈ exported.fixities.keys) : k ∈ all.fixities.keys := by
  obtain ⟨hall, hexported, -⟩ := holds_parts hall hexported hhidden
  rw [hexported.mem_fixities_keys_iff, members_fixity_ne_none_iff] at h
  rw [hall.mem_fixities_keys_iff, members_fixity_ne_none_iff]
  obtain ⟨howner, o, ho, hfixity⟩ := h
  obtain ⟨t, ht, rfl⟩ := List.mem_map.mp ho
  exact ⟨howner, _, List.mem_map_of_mem (List.mem_of_mem_filter ht), hfixity⟩

end Parts

/-- **Exported and internal members.** If a module has members at all, then so has the part of it
that is exported and the part that is hidden. Under each name the candidates of both, shuffled, are
its candidates, so there are no others and none is missing. An operator whose fixity is exported has
one inside, and the same one unless an internal binding that declares one comes before all exported
bindings that do; then it has the fixity of the hidden part inside. That the exported part has
members and the module has none happens if declarations were left behind, but only internal ones. -/
theorem env_by_visibility (m : Module) :
    (∀ all, m.env = .ok all → ∃ exported hidden,
      m.exportedEnv = .ok exported ∧ m.hiddenPart.env = .ok hidden ∧
      (∀ k : Name,
        Interleaving (exported.termsAt k) (hidden.termsAt k) (all.termsAt k) ∧
        Interleaving (exported.typesAt k) (hidden.typesAt k) (all.typesAt k)) ∧
      (∀ k : Name,
        (k ∈ all.terms.keys ↔ k ∈ exported.terms.keys ∨ k ∈ hidden.terms.keys) ∧
        (k ∈ all.types.keys ↔ k ∈ exported.types.keys ∨ k ∈ hidden.types.keys) ∧
        (all.termsAt k).Perm (exported.termsAt k ++ hidden.termsAt k) ∧
        (all.typesAt k).Perm (exported.typesAt k ++ hidden.typesAt k)) ∧
      ∀ k : Name,
        (k ∈ exported.fixities.keys → k ∈ all.fixities.keys) ∧
        (¬HiddenFixityFirst k.base m.declarations →
          exported.fixities.get? k = all.fixities.get? k) ∧
        (HiddenFixityFirst k.base m.declarations →
          hidden.fixities.get? k = all.fixities.get? k)) ∧
    ((∃ exported, m.exportedEnv = .ok exported) ∧ (∃ e, m.env = .error e) ↔
      (∃ t ∈ m.declarations, t.declaration.LeftBehind) ∧
        ∀ t ∈ m.declarations, t.declaration.LeftBehind → t.visibility = .internal) := by
  refine ⟨fun all hall => ?_, ?_⟩
  · obtain ⟨exported, hidden, hexported, hhidden⟩ := exists_parts hall
    have hcandidates := interleaving_recordsAt hall hexported hhidden
    have hkeys := mem_records_keys_iff_of_parts hall hexported hhidden
    have hfixities := get?_fixities_eq_ite hall hexported hhidden
    refine ⟨exported, hidden, hexported, hhidden,
      fun k => ⟨hcandidates k .term, hcandidates k .type⟩,
      fun k => ⟨hkeys k .term, hkeys k .type, (hcandidates k .term).perm,
        (hcandidates k .type).perm⟩, fun k => ⟨?_, ?_, ?_⟩⟩
    · exact mem_fixities_keys hall hexported hhidden k
    · exact fun hfirst => by rw [hfixities, if_neg hfirst]
    · exact fun hfirst => by rw [hfixities, if_pos hfirst]
  · rw [exists_ok_iff, exists_exportedEnv_error_iff, exists_env_error_iff, and_comm]
    refine and_congr_right fun _ => ?_
    push Not
    refine forall₂_congr fun t _ => ?_
    cases t.visibility <;> simp

/-- Two exported bindings of `*` come after an internal one with another fixity, and all bindings of
`+` are exported. -/
theorem env_by_visibility_plusAndTimes :
    let plus := Name.qualified ⟨"M", []⟩ ⟨"+"⟩
    let times := Name.qualified ⟨"M", []⟩ ⟨"*"⟩
    ∃ all exported hidden, plusAndTimes.env = .ok all ∧ plusAndTimes.exportedEnv = .ok exported ∧
      plusAndTimes.hiddenPart.env = .ok hidden ∧
      Interleaving (exported.termsAt times) (hidden.termsAt times) (all.termsAt times) ∧
      (hidden.termsAt times).map Record.source = [.binding (.onRow 5 1 2)] ∧
      exported.fixities.get? times = some [⟨.left, 7⟩] ∧
      all.fixities.get? times = some [⟨.right, 5⟩] ∧
      all.fixities.get? plus = exported.fixities.get? plus := by
  intro plus times
  obtain ⟨exported, hidden, hexported, hhidden, hcandidates, -, hfixities⟩ :=
    (env_by_visibility plusAndTimes).1 _ rfl
  have hfirst : HiddenFixityFirst times.base plusAndTimes.declarations := by decide
  have hnotFirst : ¬HiddenFixityFirst plus.base plusAndTimes.declarations := by decide
  refine ⟨_, exported, hidden, rfl, hexported, hhidden, (hcandidates times).1, ?_, ?_, ?_, ?_⟩
  · rw [(holds_of_env hhidden).termsAt_eq]
    decide
  · rw [(Declaration.holds_of_map_qualify hexported).get?_fixities]
    decide
  · rw [← (hfixities times).2.2 hfirst, (holds_of_env hhidden).get?_fixities]
    decide
  · exact ((hfixities plus).2.1 hnotFirst).symm

end Module

end Scoping
