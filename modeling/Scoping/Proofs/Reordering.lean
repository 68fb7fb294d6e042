import Mathlib.Data.List.FinRange
import Scoping.Proofs.Aspects
import Scoping.Proofs.Visibility

/-!
# Members of a scope in another order

What is put side by side in another order has the same keys and under each key the same candidates,
in another order. Fixities may be different ones, because the first one is kept, unless all members
that have a fixity of an operator agree on it.

The order matters only between members that have a key in common. Under one key, the members that
have it make up what is there, and no others. So if these come in the same order as before then the
environment is the same. For the declarations of a module this means that they may be written in any
order in which declarations that name the same identifier do not change places.

## Main definitions

* `Scoping.reorder` — the members of a list in another order, position by position
* `Scoping.KeepsOrder` — when members that are related do not change places
* `Env.SharesKey`, `TopLevel.NamesSame` — what it takes for the order to matter

## Main results

* `filterMap_reorder` — what is gathered from members that do not change places
* `Env.mergeAll_map_reorder` — environments side by side in another order
* `Module.env_reorder` — declarations of a module in another order
* `reorder_members` — all that depends on the order of members
-/

namespace Scoping

variable {α β : Type}

/-! ### Lists in another order -/

/-- The members of `l` in the order given by `σ`: at position `i` there is the member that is at
position `σ i` in `l`. -/
def reorder (l : List α) (σ : Equiv.Perm (Fin l.length)) : List α := List.ofFn fun i => l[σ i]

/-- Members of `l` that are related by `r` do not change places: the one that comes first in the
new order came first before. -/
def KeepsOrder (r : α → α → Prop) (l : List α) (σ : Equiv.Perm (Fin l.length)) : Prop :=
  ∀ i j, i < j → r l[σ i] l[σ j] → σ i < σ j

instance (r : α → α → Prop) [DecidableRel r] (l : List α) (σ : Equiv.Perm (Fin l.length)) :
    Decidable (KeepsOrder r l σ) :=
  inferInstanceAs (Decidable (∀ i j, i < j → r l[σ i] l[σ j] → σ i < σ j))

section Reorder

variable {r : α → α → Prop} {l : List α} {σ : Equiv.Perm (Fin l.length)}

theorem reorder_eq_map (l : List α) (σ : Equiv.Perm (Fin l.length)) :
    reorder l σ = ((List.finRange l.length).map σ).map (l[·]) := by
  rw [reorder, List.ofFn_eq_map, List.map_map]
  rfl

theorem map_positions (l : List α) : (List.finRange l.length).map (l[·]) = l :=
  List.map_getElem_finRange l

theorem reorder_perm (l : List α) (σ : Equiv.Perm (Fin l.length)) : (reorder l σ).Perm l := by
  have hmoved := σ.map_finRange_perm.map (l[·])
  rwa [← reorder_eq_map, map_positions] at hmoved

/-- The positions of the members that are looked at come in the same order as before. -/
theorem filter_positions (h : KeepsOrder r l σ) {p : α → Bool}
    (hp : ∀ x y, p x → p y → r x y) :
    ((List.finRange l.length).map σ).filter (fun i => p l[i]) =
      (List.finRange l.length).filter fun i => p l[i] := by
  have hsorted : (((List.finRange l.length).map σ).filter fun i => p l[i]).Pairwise (· < ·) := by
    rw [List.pairwise_filter, List.pairwise_map]
    exact (List.pairwise_lt_finRange l.length).imp fun hij hi hj => h _ _ hij (hp _ _ hi hj)
  refine (σ.map_finRange_perm.filter _).eq_of_pairwise (fun i j _ _ hij hji => ?_) hsorted
    ((List.pairwise_lt_finRange l.length).filter _)
  exact absurd hij (Fin.lt_asymm hji)

/-- **What is gathered from members that do not change places** comes in the same order. -/
theorem filterMap_reorder (h : KeepsOrder r l σ) {g : α → Option β}
    (hg : ∀ x y, (g x).isSome → (g y).isSome → r x y) :
    (reorder l σ).filterMap g = l.filterMap g := by
  have hnone : ∀ o : Option β, o = if o.isSome then o else none := by
    intro o
    cases o <;> rfl
  have hskip : ∀ is : List (Fin l.length), (is.map (l[·])).filterMap g =
      (is.filter fun i => (g l[i]).isSome).filterMap fun i => g l[i] := by
    intro is
    rw [List.filterMap_map, List.filterMap_filter]
    exact List.filterMap_congr fun i _ => hnone (g l[i])
  rw [reorder_eq_map, hskip, filter_positions h hg, ← hskip, map_positions]

end Reorder

/-- Where all that is found is the same, it does not matter what is found first. -/
theorem findSome?_eq_of_perm {l l' : List α} {g : α → Option β} (hperm : l'.Perm l)
    (hsame : ∀ x ∈ l, ∀ y ∈ l, ∀ a b, g x = some a → g y = some b → a = b) :
    l'.findSome? g = l.findSome? g := by
  cases hl : l.findSome? g with
  | none =>
    rw [List.findSome?_eq_none_iff] at hl ⊢
    exact fun x hx => hl x (hperm.mem_iff.mp hx)
  | some a =>
    obtain ⟨x, hx, hxa⟩ := List.exists_of_findSome?_eq_some hl
    cases hl' : l'.findSome? g with
    | none =>
      rw [List.findSome?_eq_none_iff] at hl'
      rw [hl' x (hperm.mem_iff.mpr hx)] at hxa
      contradiction
    | some b =>
      obtain ⟨y, hy, hyb⟩ := List.exists_of_findSome?_eq_some hl'
      rw [hsame y (hperm.mem_iff.mp hy) x hx b a hyb hxa]

/-! ### Environments in another order -/

namespace Env

/-- There is a key that both environments have in the same table. -/
def SharesKey (a b : Env) : Prop := ∃ s, ∃ k ∈ (a.table s).keys, k ∈ (b.table s).keys

theorem sharesKey_iff {a b : Env} : a.SharesKey b ↔
    (∃ k ∈ a.terms.keys, k ∈ b.terms.keys) ∨ (∃ k ∈ a.types.keys, k ∈ b.types.keys) ∨
      ∃ k ∈ a.fixities.keys, k ∈ b.fixities.keys := by
  constructor
  · rintro ⟨s, h⟩
    cases s with
    | term => exact .inl h
    | type => exact .inr (.inl h)
    | fixity => exact .inr (.inr h)
  · rintro (h | h | h)
    · exact ⟨.term, h⟩
    · exact ⟨.type, h⟩
    · exact ⟨.fixity, h⟩

instance : DecidableRel SharesKey := fun _ _ => decidable_of_iff _ sharesKey_iff.symm

theorem keys_table_eq_of_perm {l l' : List Env} (h : l'.Perm l) (s : Aspect) :
    ((mergeAll l').table s).keys = ((mergeAll l).table s).keys := by
  refine Table.eq_of_ascending (Table.pairwise_keys _) (Table.pairwise_keys _) fun k => ?_
  rw [mem_keys_table_mergeAll, mem_keys_table_mergeAll]
  exact exists_congr fun e => and_congr_left' h.mem_iff

theorem recordsAt_perm {l l' : List Env} (h : l'.Perm l) (s : Referent) (k : Name) :
    ((mergeAll l').recordsAt s k).Perm ((mergeAll l).recordsAt s k) := by
  rw [recordsAt_mergeAll, recordsAt_mergeAll]
  exact h.flatMap_right _

/-- Fixities do not depend on the order if there is no operator with different ones. -/
theorem fixities_eq_of_perm {l l' : List Env} (h : l'.Perm l)
    (hsame : ∀ a ∈ l, ∀ b ∈ l, ∀ k fs gs, a.fixities.get? k = some fs →
      b.fixities.get? k = some gs → fs = gs) :
    (mergeAll l').fixities = (mergeAll l).fixities := by
  refine Table.ext_get? fun k => ?_
  rw [get?_fixities_mergeAll, get?_fixities_mergeAll]
  exact findSome?_eq_of_perm h fun a ha b hb => hsame a ha b hb k

/-- **The order matters only between members that share a key.** -/
theorem mergeAll_map_reorder {f : α → Env} {l : List α} {σ : Equiv.Perm (Fin l.length)}
    (h : KeepsOrder (fun x y => (f x).SharesKey (f y)) l σ) :
    mergeAll ((reorder l σ).map f) = mergeAll (l.map f) := by
  refine ext_table fun s => Table.ext_get? fun k => ?_
  have hshares : ∀ x y, (((f x).table s).get? k).isSome → (((f y).table s).get? k).isSome →
      (f x).SharesKey (f y) := fun x y hx hy =>
    ⟨s, k, Table.mem_keys_iff.mpr hx, Table.mem_keys_iff.mpr hy⟩
  rw [get?_table_mergeAll, get?_table_mergeAll, List.filterMap_map, List.filterMap_map]
  exact congrArg (combineAll s.combine) (filterMap_reorder h hshares)

end Env

/-! ### Declarations in another order -/

/-- The identifiers that are named by what is declared. -/
def Outline.names : Outline → List Identifier
  | .signature names | .pragma names => names.map Located.value
  | .binding name _ | .synonym name | .newtype name => [name.value]
  | .undesugared => []

/-- Two declarations name the same identifier. -/
def TopLevel.NamesSame (t t' : TopLevel) : Prop := ∃ x ∈ t.outline.names, x ∈ t'.outline.names

instance : DecidableRel TopLevel.NamesSame := fun t t' =>
  inferInstanceAs (Decidable (∃ x ∈ t.outline.names, x ∈ t'.outline.names))

section Outline

variable {o : Outline} {x : Identifier}

theorem Outline.mem_names_of_sources {s : Referent} (h : o.sources s x ≠ []) : x ∈ o.names := by
  cases s <;> cases o <;> simp_all [sources, termSources, typeSources, names]

theorem Outline.mem_names_of_fixityOf (h : o.fixityOf x ≠ none) : x ∈ o.names := by
  cases o <;> simp_all [fixityOf, names]

end Outline

namespace TopLevel

/-- What a declaration introduces by itself, under bare names. -/
def ownEnv (t : TopLevel) : Env := .ofEntries t.declaration.entries

theorem holds_ownEnv (t : TopLevel) : t.ownEnv.Holds (members none [t.outline]) := by
  have h := Declaration.holds_ofEntries [t.declaration]
  rwa [List.flatMap_singleton] at h

/-- Whatever a declaration introduces has a name that it names. -/
theorem mem_names_of_mem_keys {t : TopLevel} {s : Aspect} {k : Name}
    (h : k ∈ (t.ownEnv.table s).keys) : k.owner = none ∧ k.base ∈ t.outline.names := by
  have hrecords : ∀ r : Referent, k ∈ (t.ownEnv.records r).keys →
      k.owner = none ∧ k.base ∈ t.outline.names := by
    intro r hr
    have hsources := (t.holds_ownEnv.records r).mem_keys_iff.mp hr
    simp only [members_records_ne_nil_iff, List.mem_singleton, exists_eq_left] at hsources
    exact hsources.imp_right Outline.mem_names_of_sources
  cases s with
  | term => exact hrecords .term h
  | type => exact hrecords .type h
  | fixity =>
    have hfixities := t.holds_ownEnv.mem_fixities_keys_iff.mp h
    simp only [members_fixity_ne_none_iff, List.mem_singleton, exists_eq_left] at hfixities
    exact hfixities.imp_right Outline.mem_names_of_fixityOf

theorem namesSame_of_sharesKey {t t' : TopLevel} (h : t.ownEnv.SharesKey t'.ownEnv) :
    t.NamesSame t' := by
  obtain ⟨s, k, hk, hk'⟩ := h
  exact ⟨k.base, (mem_names_of_mem_keys hk).2, (mem_names_of_mem_keys hk').2⟩

end TopLevel

namespace Module

/-- The members of a module, declaration by declaration. -/
theorem env_eq_mergeAll {m : Module} (h : ∀ t ∈ m.declarations, ¬t.declaration.LeftBehind) :
    m.env = .ok ((Env.mergeAll (m.declarations.map TopLevel.ownEnv)).qualify m.name.value) := by
  obtain ⟨e, he⟩ := Declaration.exists_envAll_iff.mpr (List.forall_mem_map.mpr h)
  have hmembers : e = Env.mergeAll (m.declarations.map TopLevel.ownEnv) := by
    rw [Declaration.eq_ofEntries_of_envAll he, Env.ofEntries_flatMap, List.map_map]
    rfl
  rw [env, allDeclarations, he, ← hmembers]
  rfl

/-- **Declarations may be written in another order** if those that name the same identifier do not
change places. -/
theorem env_reorder {m : Module} {σ : Equiv.Perm (Fin m.declarations.length)}
    (hdesugared : ∀ t ∈ m.declarations, ¬t.declaration.LeftBehind)
    (h : KeepsOrder TopLevel.NamesSame m.declarations σ) :
    env { m with declarations := reorder m.declarations σ } = m.env := by
  have hdesugared' : ∀ t ∈ reorder m.declarations σ, ¬t.declaration.LeftBehind := fun t ht =>
    hdesugared t ((reorder_perm m.declarations σ).mem_iff.mp ht)
  have hshares : KeepsOrder (fun t t' => t.ownEnv.SharesKey t'.ownEnv) m.declarations σ :=
    fun i j hij hshare => h i j hij (TopLevel.namesSame_of_sharesKey hshare)
  rw [env_eq_mergeAll hdesugared, env_eq_mergeAll hdesugared', Env.mergeAll_map_reorder hshares]

end Module

/-- **Members in another order.** Whatever the order in which environments are put side by side,
their tables have the same keys, and the same candidates under each key, in some order. The fixities
are the same if no operator has different ones in two of the environments. And all is the same if
environments that share a key do not change places. So the members of a module do not depend on the
order in which they are declared, as long as declarations that name the same identifier do not
change places. -/
theorem reorder_members :
    (∀ (l : List Env) (σ : Equiv.Perm (Fin l.length)),
      (∀ s, ((Env.mergeAll (reorder l σ)).table s).keys = ((Env.mergeAll l).table s).keys) ∧
      (∀ k, ((Env.mergeAll (reorder l σ)).termsAt k).Perm ((Env.mergeAll l).termsAt k) ∧
        ((Env.mergeAll (reorder l σ)).typesAt k).Perm ((Env.mergeAll l).typesAt k)) ∧
      ((∀ a ∈ l, ∀ b ∈ l, ∀ k fs gs, a.fixities.get? k = some fs →
          b.fixities.get? k = some gs → fs = gs) →
        (Env.mergeAll (reorder l σ)).fixities = (Env.mergeAll l).fixities) ∧
      (KeepsOrder Env.SharesKey l σ → Env.mergeAll (reorder l σ) = Env.mergeAll l)) ∧
    ∀ (m : Module) (σ : Equiv.Perm (Fin m.declarations.length)),
      (∀ t ∈ m.declarations, ¬t.declaration.LeftBehind) →
      KeepsOrder TopLevel.NamesSame m.declarations σ →
      ∃ e, m.env = .ok e ∧
        Module.env { m with declarations := reorder m.declarations σ } = .ok e := by
  refine ⟨fun l σ => ?_, fun m σ hdesugared h => ?_⟩
  · have hperm := reorder_perm l σ
    refine ⟨Env.keys_table_eq_of_perm hperm,
      fun k => ⟨Env.recordsAt_perm hperm .term k, Env.recordsAt_perm hperm .type k⟩,
      Env.fixities_eq_of_perm hperm, fun h => ?_⟩
    have hmapped := Env.mergeAll_map_reorder (f := id) h
    rwa [List.map_id, List.map_id] at hmapped
  · refine ⟨_, Module.env_eq_mergeAll hdesugared, ?_⟩
    rw [Module.env_reorder hdesugared h, Module.env_eq_mergeAll hdesugared]

/-- Two candidates for `+` that have the same fixity, and one for `*` between them. -/
def plusTimesPlus : List Env :=
  [.ofEntries [.term (.bare ⟨"+"⟩) ⟨.imported, .qualified ⟨"A", []⟩ ⟨"+"⟩⟩,
      .fixity (.bare ⟨"+"⟩) ⟨.left, 6⟩],
    .ofEntries [.term (.bare ⟨"*"⟩) ⟨.imported, .qualified ⟨"A", []⟩ ⟨"*"⟩⟩],
    .ofEntries [.term (.bare ⟨"+"⟩) ⟨.imported, .qualified ⟨"B", []⟩ ⟨"+"⟩⟩,
      .fixity (.bare ⟨"+"⟩) ⟨.left, 6⟩]]

theorem reorder_members_plusTimesPlus :
    let early : Equiv.Perm (Fin plusTimesPlus.length) := Equiv.swap ⟨0, by decide⟩ ⟨1, by decide⟩
    let back : Equiv.Perm (Fin plusTimesPlus.length) := Equiv.swap ⟨0, by decide⟩ ⟨2, by decide⟩
    let times : Equiv.Perm (Fin Module.plusAndTimes.declarations.length) :=
      Equiv.swap ⟨2, by decide⟩ ⟨3, by decide⟩
    KeepsOrder Env.SharesKey plusTimesPlus early ∧
      ¬KeepsOrder Env.SharesKey plusTimesPlus back ∧
      KeepsOrder TopLevel.NamesSame Module.plusAndTimes.declarations times ∧
      Env.mergeAll (reorder plusTimesPlus early) = Env.mergeAll plusTimesPlus ∧
      Env.mergeAll (reorder plusTimesPlus back) ≠ Env.mergeAll plusTimesPlus ∧
      (Env.mergeAll (reorder plusTimesPlus back)).fixities =
        (Env.mergeAll plusTimesPlus).fixities ∧
      reorder Module.plusAndTimes.declarations times ≠ Module.plusAndTimes.declarations ∧
      Module.env { Module.plusAndTimes with
        declarations := reorder Module.plusAndTimes.declarations times } =
          Module.plusAndTimes.env := by
  intro early back times
  have hearly : KeepsOrder Env.SharesKey plusTimesPlus early := by decide
  have htimes : KeepsOrder TopLevel.NamesSame Module.plusAndTimes.declarations times := by decide
  have hfixity : ∀ e ∈ plusTimesPlus, ∀ k fs, e.fixities.get? k = some fs → fs = [⟨.left, 6⟩] := by
    intro e he k fs hfs
    rw [← Table.mem_entries_iff] at hfs
    have hall : ∀ e ∈ plusTimesPlus, ∀ x ∈ e.fixities.entries, x.2 = [⟨.left, 6⟩] := by decide
    exact hall e he _ hfs
  have hdesugared : ∀ t ∈ Module.plusAndTimes.declarations, ¬t.declaration.LeftBehind := by
    simp only [← Declaration.undesugared_eq_none_iff]
    decide
  obtain ⟨env, hold, hnew⟩ := reorder_members.2 Module.plusAndTimes times hdesugared htimes
  refine ⟨hearly, by decide, htimes, (reorder_members.1 plusTimesPlus early).2.2.2 hearly,
    by decide, (reorder_members.1 plusTimesPlus back).2.2.1 fun a ha b hb k fs gs hfs hgs => ?_,
    fun hsame => ?_, hnew.trans hold.symm⟩
  · rw [hfixity a ha k fs hfs, hfixity b hb k gs hgs]
  · exact absurd (congrArg (List.map TopLevel.visibility) hsame) (by decide)

end Scoping
