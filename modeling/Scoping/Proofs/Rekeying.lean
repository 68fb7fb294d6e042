import Scoping.Proofs.Aspects

/-!
# Keys that are renamed

Renaming the keys of an environment may move several of them to one. What is there afterwards is
taken from all of them, in the order that they had before: the candidates follow one another, and
the fixities are those of the least key.

Renaming in two steps leads to the same keys as renaming in one. But keys that become one in the
second step are gathered in the order that the first step has given them. So there are the same
candidates, but they may come in another order, and an operator may end up with another fixity. It
makes no difference if the first step leaves those keys in order that end up as one.

## Main definitions

* `Scoping.inTwoSteps` — the keys that end up as one, as they are gathered in two steps
* `Scoping.MovesInOrder` — when a first step leaves them in order

## Main results

* `inTwoSteps_perm`, `inTwoSteps_eq` — what two steps do to the order
* `movesInOrder_of_apart` — a second step that puts nothing together
* `Table.mapKeys_mapKeys`, `Table.mapKeys_id` — single tables
* `Env.mapKeys_key_by_key` — environments whose keys are renamed, once or twice
-/

namespace Scoping

open Std (TransOrd LawfulEqOrd)

variable {κ κ' κ'' α : Type}

/-! ### The order of the old keys -/

section InTwoSteps

variable [DecidableEq κ'] [DecidableEq κ'']

/-- Those of the keys `qs` that `f` and `g` move to `k`: one after another the keys of `rs` that `g`
moves to `k`, and for each of them the keys that `f` moves there. -/
def inTwoSteps (f : κ → κ') (g : κ' → κ'') (qs : List κ) (rs : List κ') (k : κ'') : List κ :=
  (rs.filter fun r => g r = k).flatMap fun r => qs.filter fun q => f q = r

variable {f : κ → κ'} {g : κ' → κ''} {qs : List κ} {rs : List κ'} {k : κ''}

theorem mem_inTwoSteps (hrs : ∀ q ∈ qs, f q ∈ rs) {q : κ} :
    q ∈ inTwoSteps f g qs rs k ↔ q ∈ qs.filter fun q => g (f q) = k := by
  simp only [inTwoSteps, List.mem_flatMap, List.mem_filter, decide_eq_true_eq]
  constructor
  · rintro ⟨r, ⟨-, hr⟩, hq, rfl⟩
    exact ⟨hq, hr⟩
  · rintro ⟨hq, hk⟩
    exact ⟨f q, ⟨hrs q hq, hk⟩, hq, rfl⟩

/-- What holds of keys that stay apart in the first step, and of keys that become one in it. -/
theorem pairwise_inTwoSteps {R : κ → κ → Prop} (hqs : qs.Pairwise R)
    (hrs : rs.Pairwise fun r r' => ∀ q ∈ qs, ∀ q' ∈ qs, f q = r → f q' = r' → g r = k →
      g r' = k → R q q') : (inTwoSteps f g qs rs k).Pairwise R := by
  rw [inTwoSteps, List.pairwise_flatMap]
  refine ⟨fun r _ => hqs.filter _, ?_⟩
  rw [List.pairwise_filter]
  refine hrs.imp fun {r r'} h hr hr' q hq q' hq' => ?_
  rw [List.mem_filter, decide_eq_true_eq] at hq hq'
  exact h q hq.1 q' hq'.1 hq.2 hq'.2 (of_decide_eq_true hr) (of_decide_eq_true hr')

/-- No key is lost in two steps, and none comes twice. -/
theorem inTwoSteps_perm (hqs : qs.Nodup) (hrs : rs.Nodup) (hall : ∀ q ∈ qs, f q ∈ rs) :
    (inTwoSteps f g qs rs k).Perm (qs.filter fun q => g (f q) = k) := by
  have hnodup : (inTwoSteps f g qs rs k).Nodup := by
    refine pairwise_inTwoSteps hqs (hrs.imp fun {r r'} hne q _ q' _ hq hq' _ _ heq => hne ?_)
    rw [← hq, ← hq', heq]
  exact (List.perm_ext_iff_of_nodup hnodup (hqs.filter _)).mpr fun q => mem_inTwoSteps hall

/-- Keys that `f` and `g` together move to one key are not put in reverse order by `f`. -/
def MovesInOrder [Ord κ] [Ord κ'] (f : κ → κ') (g : κ' → κ'') (qs : List κ) : Prop :=
  ∀ q ∈ qs, ∀ q' ∈ qs, compare q q' = .lt → g (f q) = g (f q') → (compare (f q) (f q')).isLE

instance [Ord κ] [Ord κ'] (f : κ → κ') (g : κ' → κ'') (qs : List κ) :
    Decidable (MovesInOrder f g qs) :=
  inferInstanceAs (Decidable (∀ q ∈ qs, ∀ q' ∈ qs, compare q q' = .lt →
    g (f q) = g (f q') → (compare (f q) (f q')).isLE))

omit [DecidableEq κ'] [DecidableEq κ''] in
/-- Nothing can get out of order if all that ends up as one has become one in the first step. -/
theorem movesInOrder_of_apart [Ord κ] [Ord κ'] [Std.ReflOrd κ']
    (h : ∀ q q', g (f q) = g (f q') → f q = f q') (qs : List κ) : MovesInOrder f g qs := by
  intro q _ q' _ _ hg
  have hself : compare (f q') (f q') = .eq := Std.ReflCmp.compare_self
  rw [h q q' hg, hself]
  rfl

/-- **If the first step leaves them in order** then keys come in the same order in two steps as in
one. -/
theorem inTwoSteps_eq [Ord κ] [TransOrd κ] [LawfulEqOrd κ] [Ord κ'] [TransOrd κ']
    (hqs : qs.Pairwise fun q q' => compare q q' = .lt)
    (hrs : rs.Pairwise fun r r' => compare r r' = .lt) (hall : ∀ q ∈ qs, f q ∈ rs)
    (hmoves : MovesInOrder f g qs) :
    inTwoSteps f g qs rs k = qs.filter fun q => g (f q) = k := by
  refine Table.eq_of_ascending (pairwise_inTwoSteps hqs (hrs.imp ?_)) (hqs.filter _)
    fun q => mem_inTwoSteps hall
  rintro _ _ hlt q hq q' hq' rfl rfl hk hk'
  -- Neither are the old keys equal nor can they be in reverse order, as the new ones are not.
  cases hcompare : compare q q' with
  | lt => rfl
  | eq =>
    obtain rfl := LawfulEqOrd.eq_of_compare hcompare
    simp at hlt
  | gt =>
    have hle := hmoves q' hq' q hq (Std.OrientedCmp.gt_iff_lt.mp hcompare) (hk'.trans hk.symm)
    rw [Std.OrientedCmp.gt_iff_lt.mpr hlt] at hle
    contradiction

end InTwoSteps

/-! ### Single tables -/

namespace Table

variable [Ord κ] [TransOrd κ] [LawfulEqOrd κ] [Ord κ'] [TransOrd κ'] [LawfulEqOrd κ']
  [DecidableEq κ'] [Ord κ''] [TransOrd κ''] [LawfulEqOrd κ''] [DecidableEq κ'']
  {c : α → α → α} {f : κ → κ'} {g : κ' → κ''} {t : Table κ α}

theorem mapKeys_id (c : α → α → α) (t : Table κ α) : t.mapKeys c id = t :=
  ext_get? fun _ => get?_mapKeys_of_unique rfl fun _ _ hq => hq

theorem mem_keys_of_mem (t : Table κ α) (c : α → α → α) (f : κ → κ') :
    ∀ q ∈ t.keys, f q ∈ (t.mapKeys c f).keys := fun q hq => mem_keys_mapKeys.mpr ⟨q, hq, rfl⟩

theorem get?_mapKeys_mapKeys (hc : ∀ a b d, c (c a b) d = c a (c b d)) (k : κ'') :
    ((t.mapKeys c f).mapKeys c g).get? k =
      combineAll c ((inTwoSteps f g t.keys (t.mapKeys c f).keys k).filterMap t.get?) := by
  have hfirst : (t.mapKeys c f).get? = fun r =>
      combineAll c ((t.keys.filter fun q => f q = r).filterMap t.get?) :=
    funext fun r => get?_mapKeys_eq_combineAll c f t r
  rw [get?_mapKeys_eq_combineAll, hfirst, combineAll_flatMap hc, inTwoSteps,
    List.filterMap_flatMap]

/-- In two steps there are the same candidates as in one. -/
theorem getD_mapKeys_mapKeys_perm (f : κ → κ') (g : κ' → κ'') (t : Table κ (List α)) (k : κ'') :
    ((((t.mapKeys (· ++ ·) f).mapKeys (· ++ ·) g).get? k).getD []).Perm
      (((t.mapKeys (· ++ ·) (g ∘ f)).get? k).getD []) := by
  have hkeys := inTwoSteps_perm (g := g) (k := k) t.nodup_keys (nodup_keys _)
    (t.mem_keys_of_mem (· ++ ·) f)
  rw [get?_mapKeys_mapKeys List.append_assoc, get?_mapKeys_eq_combineAll, getD_combineAll_append,
    getD_combineAll_append]
  exact (hkeys.filterMap t.get?).flatten

/-- **Renaming in two steps** is renaming in one if the first step leaves in order what the second
one puts together. -/
theorem mapKeys_mapKeys (hc : ∀ a b d, c (c a b) d = c a (c b d))
    (hmoves : MovesInOrder f g t.keys) :
    (t.mapKeys c f).mapKeys c g = t.mapKeys c (g ∘ f) := by
  refine ext_get? fun k => ?_
  rw [get?_mapKeys_mapKeys hc, get?_mapKeys_eq_combineAll,
    inTwoSteps_eq t.pairwise_keys (pairwise_keys _) (t.mem_keys_of_mem c f) hmoves]
  rfl

end Table

/-! ### Environments -/

namespace Env

variable {f g : Name → Name} {e : Env}

/-- The fixities are those of the least key. -/
theorem get?_fixities_mapKeys_of_least {q : Name} (hq : q ∈ e.fixities.keys)
    (hleast : ∀ q' ∈ e.fixities.keys, f q' = f q → (compare q q').isLE) :
    (e.mapKeys f).fixities.get? (f q) = e.fixities.get? q := by
  have hmem : q ∈ e.fixities.keys.filter fun q' => f q' = f q := by simp [hq]
  obtain ⟨qs, hqs⟩ := Table.exists_eq_cons_of_least (e.fixities.pairwise_keys.filter _) hmem
    fun q' hq' => by
      rw [List.mem_filter, decide_eq_true_eq] at hq'
      exact hleast q' hq'.1 hq'.2
  obtain ⟨fs, hfs⟩ := Option.isSome_iff_exists.mp (Table.mem_keys_iff.mp hq)
  rw [get?_fixities_mapKeys, hqs, List.findSome?_cons, hfs]

theorem mapKeys_id (e : Env) : e.mapKeys id = e :=
  ext_table fun s => by rw [table_mapKeys, Table.mapKeys_id]

theorem keys_mapKeys_mapKeys (f g : Name → Name) (e : Env) (s : Aspect) :
    (((e.mapKeys f).mapKeys g).table s).keys = ((e.mapKeys (g ∘ f)).table s).keys := by
  refine Table.eq_of_ascending (Table.pairwise_keys _) (Table.pairwise_keys _) fun k => ?_
  simp only [mem_keys_table_mapKeys]
  constructor
  · rintro ⟨_, ⟨q, hq, rfl⟩, hk⟩
    exact ⟨q, hq, hk⟩
  · rintro ⟨q, hq, hk⟩
    exact ⟨f q, ⟨q, hq, rfl⟩, hk⟩

theorem recordsAt_mapKeys_mapKeys (s : Referent) (f g : Name → Name) (e : Env) (k : Name) :
    (((e.mapKeys f).mapKeys g).recordsAt s k).Perm ((e.mapKeys (g ∘ f)).recordsAt s k) := by
  rw [recordsAt, recordsAt, records_mapKeys, records_mapKeys, records_mapKeys]
  exact Table.getD_mapKeys_mapKeys_perm f g (e.records s) k

theorem mapKeys_mapKeys (h : ∀ s, MovesInOrder f g (e.table s).keys) :
    (e.mapKeys f).mapKeys g = e.mapKeys (g ∘ f) :=
  ext_table fun s => by
    rw [table_mapKeys, table_mapKeys, table_mapKeys, Table.mapKeys_mapKeys s.combine_assoc (h s)]

theorem mapKeys_mapKeys_of_apart (h : ∀ q q', g (f q) = g (f q') → f q = f q') (e : Env) :
    (e.mapKeys f).mapKeys g = e.mapKeys (g ∘ f) :=
  mapKeys_mapKeys fun _ => movesInOrder_of_apart h _

/-- **Keys that are renamed.** A key is in a table afterwards if some key of that table has been
moved to it. Under it are the candidates of all keys that have been moved there, one after another
in the order of these keys, and the fixities of the least of them. Nothing is changed by leaving the
keys as they are. Renaming in two steps leads to the same keys as in one and to the same candidates
in some order, and to the same environment if no two keys that become one are put in reverse order
by the first step. -/
theorem mapKeys_key_by_key :
    (∀ (f : Name → Name) (e : Env),
      (∀ s k, k ∈ ((e.mapKeys f).table s).keys ↔ ∃ q ∈ (e.table s).keys, f q = k) ∧
      (∀ k, (e.mapKeys f).termsAt k = (e.terms.keys.filter fun q => f q = k).flatMap e.termsAt ∧
        (e.mapKeys f).typesAt k = (e.types.keys.filter fun q => f q = k).flatMap e.typesAt) ∧
      ∀ q ∈ e.fixities.keys, (∀ q' ∈ e.fixities.keys, f q' = f q → (compare q q').isLE) →
        (e.mapKeys f).fixities.get? (f q) = e.fixities.get? q) ∧
    (∀ e : Env, e.mapKeys id = e) ∧
    ∀ (f g : Name → Name) (e : Env),
      (∀ s, (((e.mapKeys f).mapKeys g).table s).keys = ((e.mapKeys (g ∘ f)).table s).keys) ∧
      (∀ k, (((e.mapKeys f).mapKeys g).termsAt k).Perm ((e.mapKeys (g ∘ f)).termsAt k) ∧
        (((e.mapKeys f).mapKeys g).typesAt k).Perm ((e.mapKeys (g ∘ f)).typesAt k)) ∧
      ((∀ s, MovesInOrder f g (e.table s).keys) →
        (e.mapKeys f).mapKeys g = e.mapKeys (g ∘ f)) :=
  ⟨fun f e => ⟨fun _ _ => mem_keys_table_mapKeys,
      fun k => ⟨recordsAt_mapKeys .term f e k, recordsAt_mapKeys .type f e k⟩,
      fun _ => get?_fixities_mapKeys_of_least⟩,
    mapKeys_id,
    fun f g e => ⟨keys_mapKeys_mapKeys f g e,
      fun k => ⟨recordsAt_mapKeys_mapKeys .term f g e k, recordsAt_mapKeys_mapKeys .type f g e k⟩,
      mapKeys_mapKeys⟩⟩

/-- `+` from two modules, which make it bind to different sides. -/
def plusIn (m m' : ModuleName) : Env := .ofEntries
  [.term (.qualified m ⟨"+"⟩) ⟨.imported, .qualified m ⟨"+"⟩⟩,
    .fixity (.qualified m ⟨"+"⟩) ⟨.left, 6⟩,
    .term (.qualified m' ⟨"+"⟩) ⟨.imported, .qualified m' ⟨"+"⟩⟩,
    .fixity (.qualified m' ⟨"+"⟩) ⟨.right, 5⟩]

/-- Gives to `C` what is owned by `A`. -/
def giveToC (n : Name) : Name := if n.owner = some ⟨"A", []⟩ then n.inModule ⟨"C", []⟩ else n

/-- What goes from `A` to `C` stays in front of `D`, but it gets behind `B`. -/
theorem mapKeys_key_by_key_plus :
    let near := plusIn ⟨"A", []⟩ ⟨"B", []⟩
    let far := plusIn ⟨"A", []⟩ ⟨"D", []⟩
    let plus := Name.bare ⟨"+"⟩
    (∀ s, MovesInOrder giveToC Name.unqualified (far.table s).keys) ∧
      ¬MovesInOrder giveToC Name.unqualified near.terms.keys ∧
      (far.mapKeys giveToC).mapKeys Name.unqualified =
        far.mapKeys (Name.unqualified ∘ giveToC) ∧
      (((near.mapKeys giveToC).mapKeys Name.unqualified).termsAt plus).Perm
        ((near.mapKeys (Name.unqualified ∘ giveToC)).termsAt plus) ∧
      ((near.mapKeys giveToC).mapKeys Name.unqualified).fixities.get? plus = some [⟨.right, 5⟩] ∧
      (near.mapKeys (Name.unqualified ∘ giveToC)).fixities.get? plus = some [⟨.left, 6⟩] := by
  intro near far plus
  have hfar : ∀ s, MovesInOrder giveToC Name.unqualified (far.table s).keys := by
    intro s
    cases s <;> decide
  obtain ⟨hkeys, -, hsteps⟩ := mapKeys_key_by_key
  refine ⟨hfar, by decide, (hsteps _ _ far).2.2 hfar, ((hsteps _ _ near).2.1 plus).1, ?_, ?_⟩
  · exact ((hkeys Name.unqualified (near.mapKeys giveToC)).2.2 (.qualified ⟨"B", []⟩ ⟨"+"⟩)
      (by decide) (by decide)).trans (by decide)
  · exact ((hkeys (Name.unqualified ∘ giveToC) near).2.2 (.qualified ⟨"A", []⟩ ⟨"+"⟩)
      (by decide) (by decide)).trans (by decide)

end Env

end Scoping
