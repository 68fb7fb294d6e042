import Scoping.Proofs.Imports

/-!
# Interfaces built export by export

An interface that is built up step by step files every export under the name that it stands for. So
whatever is found under a key refers to that key, and candidates differ only in how many they are:
an export of a value or of a newtype is one for the term, one of a synonym or of a newtype is one
for the type. Values have fixities, but only those on which all values under a key agree count.

Neither a number of exports nor what they agree on depends on their order. The tables of the
interface may well depend on it, as they list the fixities of the values under a key one by one; the
environment that importers get to see does not.

## Main definitions

* `Scoping.Export`, `Exports.ofList` — a list of exports, and the tables they are filed in
* `Interface.Step`, `Interface.build` — a list of steps, and the interface they build
* `Contents.exported` — what a list of exports says of each name

## Main results

* `Exports.holds_ofList` — the environment of exports that are built up has these contents
* `Contents.exported_eq_of_perm` — the order of exports makes no difference
* `Interface.build_eq` — an interface that is built is the list of its exports
-/

namespace Scoping

/-! ### Lists of exports -/

/-- One thing that is exported, under a name or under a base. -/
inductive Export (ν : Type) where
  | value (name : ν) (fixity : Option Fixity)
  | synonym (name : ν)
  | newtype (name : ν)
deriving DecidableEq

namespace Export

/-- The same export under another name. -/
def map {ν μ : Type} (f : ν → μ) : Export ν → Export μ
  | .value name fixity => .value (f name) fixity
  | .synonym name => .synonym (f name)
  | .newtype name => .newtype (f name)

/-- Whether the export is a candidate for the term `k`. -/
def isTerm {ν : Type} [DecidableEq ν] (k : ν) : Export ν → Bool
  | .value name _ | .newtype name => name = k
  | .synonym _ => false

/-- Whether the export is a candidate for the type `k`. -/
def isType {ν : Type} [DecidableEq ν] (k : ν) : Export ν → Bool
  | .synonym name | .newtype name => name = k
  | .value _ _ => false

/-- Whether the export is a candidate for the term or the type `k`. -/
def introduces {ν : Type} [DecidableEq ν] : Referent → ν → Export ν → Bool
  | .term => isTerm
  | .type => isType

/-- What the export files under `k` among the values. -/
def valuesOf (k : Name) : Export Name → List ValueExport
  | .value name fixity => if name = k then [⟨name, fixity⟩] else []
  | .synonym _ | .newtype _ => []

/-- What the export files under `k` among the synonyms. -/
def synonymsOf (k : Name) : Export Name → List Name
  | .synonym name => if name = k then [name] else []
  | .value _ _ | .newtype _ => []

/-- What the export files under `k` among the newtypes. -/
def newtypesOf (k : Name) : Export Name → List Name
  | .newtype name => if name = k then [name] else []
  | .value _ _ | .synonym _ => []

theorem countP_isTerm (k : Name) (xs : List (Export Name)) : xs.countP (isTerm k) =
    (xs.flatMap (valuesOf k)).length + (xs.flatMap (newtypesOf k)).length := by
  induction xs with
  | nil => rfl
  | cons x xs ih =>
    rw [List.countP_cons, List.flatMap_cons, List.flatMap_cons, List.length_append,
      List.length_append, ih]
    cases x with
    | value name _ => by_cases hk : name = k <;> simp [isTerm, valuesOf, newtypesOf, hk]; omega
    | newtype name => by_cases hk : name = k <;> simp [isTerm, valuesOf, newtypesOf, hk]; omega
    | synonym name => simp [isTerm, valuesOf, newtypesOf]

theorem countP_isType (k : Name) (xs : List (Export Name)) : xs.countP (isType k) =
    (xs.flatMap (synonymsOf k)).length + (xs.flatMap (newtypesOf k)).length := by
  induction xs with
  | nil => rfl
  | cons x xs ih =>
    rw [List.countP_cons, List.flatMap_cons, List.flatMap_cons, List.length_append,
      List.length_append, ih]
    cases x with
    | synonym name => by_cases hk : name = k <;> simp [isType, synonymsOf, newtypesOf, hk]; omega
    | newtype name => by_cases hk : name = k <;> simp [isType, synonymsOf, newtypesOf, hk]; omega
    | value name _ => simp [isType, synonymsOf, newtypesOf]

theorem name_of_mem_valuesOf {k : Name} {x : Export Name} {v : ValueExport}
    (hv : v ∈ x.valuesOf k) : v.name = k := by
  cases x with
  | value name fixity =>
    rw [valuesOf, List.mem_ite_nil_right, List.mem_singleton] at hv
    obtain ⟨rfl, rfl⟩ := hv
    rfl
  | synonym name | newtype name => contradiction

theorem eq_of_mem_synonymsOf {k n : Name} {x : Export Name} (hn : n ∈ x.synonymsOf k) : n = k := by
  cases x with
  | synonym name =>
    rw [synonymsOf, List.mem_ite_nil_right, List.mem_singleton] at hn
    exact hn.2.trans hn.1
  | value name _ | newtype name => contradiction

theorem eq_of_mem_newtypesOf {k n : Name} {x : Export Name} (hn : n ∈ x.newtypesOf k) : n = k := by
  cases x with
  | newtype name =>
    rw [newtypesOf, List.mem_ite_nil_right, List.mem_singleton] at hn
    exact hn.2.trans hn.1
  | value name _ | synonym name => contradiction

end Export

/-! ### The tables of a list of exports -/

namespace Exports

/-- Adds an export to those that are there. -/
def add (e : Exports) : Export Name → Exports
  | .value name fixity => e.addValue name fixity
  | .synonym name => e.addSynonym name
  | .newtype name => e.addNewtype name

/-- The exports of a list, added one after another. -/
def ofList (xs : List (Export Name)) : Exports := xs.foldl add ∅

/-- What is written behind the list under `n` is read there and nowhere else. -/
theorem getD_get?_update_append {α : Type} (t : Table Name (List α)) (n k : Name) (a : α) :
    ((t.update n (·.getD [] ++ [a])).get? k).getD [] =
      (t.get? k).getD [] ++ if n = k then [a] else [] := by
  by_cases hk : n = k
  · subst hk
    rw [Table.get?_update_self, if_pos rfl]
    rfl
  · rw [Table.get?_update_of_ne _ (Ne.symm hk), if_neg hk, List.append_nil]

theorem valuesAt_add (e : Exports) (x : Export Name) (k : Name) :
    (e.add x).valuesAt k = e.valuesAt k ++ x.valuesOf k := by
  cases x with
  | value name fixity => exact getD_get?_update_append e.values name k _
  | synonym name | newtype name => exact (List.append_nil _).symm

theorem synonymsAt_add (e : Exports) (x : Export Name) (k : Name) :
    (e.add x).synonymsAt k = e.synonymsAt k ++ x.synonymsOf k := by
  cases x with
  | synonym name => exact getD_get?_update_append e.synonyms name k _
  | value name _ | newtype name => exact (List.append_nil _).symm

theorem newtypesAt_add (e : Exports) (x : Export Name) (k : Name) :
    (e.add x).newtypesAt k = e.newtypesAt k ++ x.newtypesOf k := by
  cases x with
  | newtype name => exact getD_get?_update_append e.newtypes name k _
  | value name _ | synonym name => exact (List.append_nil _).symm

/-- If each step adds its own behind what is there, then a whole run adds everything in order. -/
theorem foldl_add_eq_append {β : Type} (read : Exports → List β) {own : Export Name → List β}
    (hstep : ∀ e x, read (e.add x) = read e ++ own x) (xs : List (Export Name)) (e : Exports) :
    read (xs.foldl add e) = read e ++ xs.flatMap own := by
  induction xs generalizing e with
  | nil => exact (List.append_nil _).symm
  | cons x xs ih => rw [List.foldl_cons, ih, hstep, List.append_assoc, List.flatMap_cons]

theorem valuesAt_ofList (xs : List (Export Name)) (k : Name) :
    (ofList xs).valuesAt k = xs.flatMap (Export.valuesOf k) :=
  foldl_add_eq_append (valuesAt · k) (fun e x => valuesAt_add e x k) xs ∅

theorem synonymsAt_ofList (xs : List (Export Name)) (k : Name) :
    (ofList xs).synonymsAt k = xs.flatMap (Export.synonymsOf k) :=
  foldl_add_eq_append (synonymsAt · k) (fun e x => synonymsAt_add e x k) xs ∅

theorem newtypesAt_ofList (xs : List (Export Name)) (k : Name) :
    (ofList xs).newtypesAt k = xs.flatMap (Export.newtypesOf k) :=
  foldl_add_eq_append (newtypesAt · k) (fun e x => newtypesAt_add e x k) xs ∅

end Exports

/-! ### What they say -/

/-- What a list of exports says of each name: as many candidates as there are exports of it, all of
which refer to it, and the fixity on which its values agree. -/
def Contents.exported (xs : List (Export Name)) : Contents where
  terms k := List.replicate (xs.countP (Export.isTerm k)) ⟨.imported, k⟩
  types k := List.replicate (xs.countP (Export.isType k)) ⟨.imported, k⟩
  fixity k := agreedFixity (xs.flatMap (Export.valuesOf k))

theorem Contents.records_exported (xs : List (Export Name)) (s : Referent) (k : Name) :
    (exported xs).records s k =
      List.replicate (xs.countP (Export.introduces s k)) ⟨s.imported, k⟩ := by
  cases s <;> rfl

/-- Records that differ neither in their source nor in what they refer to are equal. -/
theorem append_eq_replicate {σ α β : Type} {source : σ} {k : Name} {as : List α} {bs : List β}
    {f : α → Name} {g : β → Name} (hf : ∀ a ∈ as, f a = k) (hg : ∀ b ∈ bs, g b = k) :
    as.map (fun a => (⟨source, f a⟩ : Record σ)) ++ bs.map (fun b => ⟨source, g b⟩) =
      List.replicate (as.length + bs.length) ⟨source, k⟩ := by
  rw [List.map_congr_left fun a ha => congrArg (Record.mk source) (hf a ha),
    List.map_congr_left fun b hb => congrArg (Record.mk source) (hg b hb), List.map_const',
    List.map_const', List.replicate_append_replicate]

namespace Exports

theorem contents_ofList (xs : List (Export Name)) : (ofList xs).contents = .exported xs := by
  have hnewtypes : ∀ k, ∀ n ∈ xs.flatMap (Export.newtypesOf k), n = k := by
    intro k n hn
    obtain ⟨x, -, hn⟩ := List.mem_flatMap.mp hn
    exact Export.eq_of_mem_newtypesOf hn
  ext1 <;> funext k
  · have hvalues : ∀ v ∈ xs.flatMap (Export.valuesOf k), v.name = k := by
      intro v hv
      obtain ⟨x, -, hv⟩ := List.mem_flatMap.mp hv
      exact Export.name_of_mem_valuesOf hv
    show ((ofList xs).valuesAt k).map _ ++ ((ofList xs).newtypesAt k).map _ =
      List.replicate (xs.countP (Export.isTerm k)) _
    rw [valuesAt_ofList, newtypesAt_ofList, Export.countP_isTerm]
    exact append_eq_replicate hvalues (hnewtypes k)
  · have hsynonyms : ∀ n ∈ xs.flatMap (Export.synonymsOf k), n = k := by
      intro n hn
      obtain ⟨x, -, hn⟩ := List.mem_flatMap.mp hn
      exact Export.eq_of_mem_synonymsOf hn
    show ((ofList xs).synonymsAt k).map _ ++ ((ofList xs).newtypesAt k).map _ =
      List.replicate (xs.countP (Export.isType k)) _
    rw [synonymsAt_ofList, newtypesAt_ofList, Export.countP_isType]
    exact append_eq_replicate hsynonyms (hnewtypes k)
  · exact congrArg agreedFixity (valuesAt_ofList xs k)

/-- **Exports that are built up put into scope what they say.** -/
theorem holds_ofList (xs : List (Export Name)) : (ofList xs).env.Holds (.exported xs) := by
  rw [← contents_ofList]
  exact (ofList xs).holds_env

end Exports

theorem agreedFixity_eq_of_perm {vs ws : List ValueExport} (h : vs.Perm ws) :
    agreedFixity vs = agreedFixity ws := by
  ext f
  have hnil : vs = [] ↔ ws = [] := ⟨fun hvs => (hvs ▸ h).nil_eq.symm, fun hws => (hws ▸ h).eq_nil⟩
  rw [agreedFixity_eq_some_iff, agreedFixity_eq_some_iff, ne_eq, ne_eq, hnil]
  simp only [h.mem_iff]

/-- **The order of exports makes no difference to what they say.** -/
theorem Contents.exported_eq_of_perm {xs ys : List (Export Name)} (h : xs.Perm ys) :
    exported xs = exported ys := by
  ext1 <;> funext k
  · exact congrArg (List.replicate · _) (h.countP_eq _)
  · exact congrArg (List.replicate · _) (h.countP_eq _)
  · exact agreedFixity_eq_of_perm (h.flatMap_right _)

/-! ### Interfaces -/

namespace Interface

/-- Adds an export of the module itself. -/
def add (i : Interface) : Export Identifier → Interface
  | .value base fixity => i.addValue base fixity
  | .synonym base => i.addSynonym base
  | .newtype base => i.addNewtype base

/-- One step in building an interface. -/
inductive Step where
  /-- An export of the module itself, by its base. -/
  | own (x : Export Identifier)
  /-- An export of any name, which is added to the exports as they are. -/
  | any (x : Export Name)
deriving DecidableEq

/-- The export that a step adds to the interface of `owner`. -/
def Step.toExport (owner : ModuleName) : Step → Export Name
  | .own x => x.map (.qualified owner)
  | .any x => x

/-- The interface after one more step. -/
def extend (i : Interface) : Step → Interface
  | .own x => i.add x
  | .any x => { i with exports := i.exports.add x }

/-- The interface of `owner` that is built in the given steps. -/
def build (owner : ModuleName) (steps : List Step) : Interface := steps.foldl extend (empty owner)

theorem add_eq (i : Interface) (x : Export Identifier) :
    i.add x = ⟨i.owner, i.exports.add (x.map (.qualified i.owner))⟩ := by
  cases x <;> rfl

theorem extend_eq (i : Interface) (s : Step) :
    i.extend s = ⟨i.owner, i.exports.add (s.toExport i.owner)⟩ := by
  cases s with
  | own x => exact i.add_eq x
  | any x => rfl

theorem foldl_extend_eq (steps : List Step) (i : Interface) : steps.foldl extend i =
    ⟨i.owner, (steps.map (Step.toExport i.owner)).foldl Exports.add i.exports⟩ := by
  induction steps generalizing i with
  | nil => rfl
  | cons s steps ih => rw [List.foldl_cons, ih, extend_eq, List.map_cons, List.foldl_cons]

/-- **An interface that is built is the list of its exports.** -/
theorem build_eq (owner : ModuleName) (steps : List Step) :
    build owner steps = ⟨owner, Exports.ofList (steps.map (Step.toExport owner))⟩ :=
  foldl_extend_eq steps (empty owner)

end Interface

end Scoping
