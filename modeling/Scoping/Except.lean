/-!
# Steps that may fail

How steps that may fail come together: one after another, and along a list. Collecting the results
of a step along a list succeeds with all of them, or fails as the first that fails.

## Main results

* `exists_of_bind_eq_ok`, `exists_of_map_eq_ok` — taking a success apart
* `mapM_eq_ok_iff`, `mapM_eq_error_iff` — collecting along a list
-/

namespace Scoping

variable {α β ε : Type} {f g : α → Except ε β} {l : List α} {e : ε}

/-! ### One after another -/

/-- Two steps succeed if both do. -/
theorem exists_of_bind_eq_ok {r : Except ε α} {b : β} (h : r >>= f = .ok b) :
    ∃ a, r = .ok a ∧ f a = .ok b := by
  cases r with
  | error e => contradiction
  | ok a => exact ⟨a, rfl, h⟩

theorem exists_of_map_eq_ok {r : Except ε α} {f : α → β} {b : β} (h : r.map f = .ok b) :
    ∃ a, r = .ok a ∧ f a = b := by
  cases r with
  | error e => contradiction
  | ok a => exact ⟨a, rfl, Except.ok.inj h⟩

theorem map_eq_error_iff {r : Except ε α} {f : α → β} : r.map f = .error e ↔ r = .error e := by
  cases r <;> simp [Except.map]

theorem exists_ok_iff {r : Except ε α} : (∃ a, r = .ok a) ↔ ¬∃ e, r = .error e := by
  cases r <;> simp

/-! ### Along a list -/

/-- **Collecting succeeds with the results of all steps.** -/
theorem mapM_eq_ok_iff {l' : List β} : l.mapM f = .ok l' ↔ l.map f = l'.map .ok := by
  induction l generalizing l' with
  | nil => cases l' <;> simp [pure, Except.pure]
  | cons x l ih =>
    rw [List.mapM_cons, List.map_cons]
    constructor
    · intro h
      obtain ⟨y, hy, h⟩ := exists_of_bind_eq_ok h
      obtain ⟨ys, hys, h⟩ := exists_of_bind_eq_ok h
      obtain rfl : y :: ys = l' := Except.ok.inj h
      rw [hy, ih.mp hys, List.map_cons]
    · intro h
      cases l' with
      | nil => contradiction
      | cons y ys =>
        obtain ⟨hy, hys⟩ := List.cons.inj h
        rw [hy, ih.mpr hys]
        rfl

theorem mapM_eq_ok {r : α → β} (h : ∀ x ∈ l, f x = .ok (r x)) : l.mapM f = .ok (l.map r) := by
  rw [mapM_eq_ok_iff, List.map_map]
  exact List.map_congr_left h

theorem exists_ok_of_mapM {l' : List β} (h : l.mapM f = .ok l') : ∀ x ∈ l, ∃ y, f x = .ok y := by
  intro x hx
  have hmem : f x ∈ l'.map .ok := mapM_eq_ok_iff.mp h ▸ List.mem_map_of_mem hx
  obtain ⟨y, -, hy⟩ := List.mem_map.mp hmem
  exact ⟨y, hy.symm⟩

/-- Whatever is collected is the result of a step. -/
theorem exists_of_mem_of_mapM {l' : List β} (h : l.mapM f = .ok l') {y : β} (hy : y ∈ l') :
    ∃ x ∈ l, f x = .ok y := by
  have hmem : .ok y ∈ l.map f := mapM_eq_ok_iff.mp h ▸ List.mem_map_of_mem hy
  exact List.mem_map.mp hmem

/-- Collecting makes nothing of nothing only. -/
theorem ne_nil_of_mapM {l' : List β} (h : l.mapM f = .ok l') (hl : l ≠ []) : l' ≠ [] := by
  rintro rfl
  have hmap : l.map f = [] := mapM_eq_ok_iff.mp h
  exact hl (List.map_eq_nil_iff.mp hmap)

theorem mapM_congr (h : ∀ x ∈ l, f x = g x) : l.mapM f = l.mapM g := by
  induction l with
  | nil => rfl
  | cons x l ih =>
    rw [List.forall_mem_cons] at h
    rw [List.mapM_cons, List.mapM_cons, h.1, ih h.2]

/-- **Collecting fails with the first failure.** What comes after it is not looked at. -/
theorem mapM_eq_error_iff : l.mapM f = .error e ↔ ∃ before x after, l = before ++ x :: after ∧
    (∀ y ∈ before, ∃ b, f y = .ok b) ∧ f x = .error e := by
  induction l with
  | nil => simp [pure, Except.pure]
  | cons y l ih =>
    rw [List.mapM_cons]
    cases hy : f y with
    | error e' =>
      constructor
      · intro h
        obtain rfl : e' = e := Except.error.inj h
        exact ⟨[], y, l, rfl, by simp, hy⟩
      · rintro ⟨before, x, after, hl, hbefore, hx⟩
        cases before with
        | nil =>
          obtain ⟨rfl, -⟩ := List.cons.inj hl
          exact congrArg Except.error (Except.error.inj (hy.symm.trans hx))
        | cons z before =>
          obtain ⟨rfl, -⟩ := List.cons.inj hl
          obtain ⟨b, hb⟩ := hbefore y (List.mem_cons_self ..)
          exact nomatch hy.symm.trans hb
    | ok b =>
      have hrest : (do
          let b ← Except.ok b
          let bs ← l.mapM f
          return b :: bs) = Except.error e ↔ l.mapM f = .error e := by
        cases l.mapM f <;> simp [bind, Except.bind, pure, Except.pure]
      rw [hrest, ih]
      constructor
      · rintro ⟨before, x, after, rfl, hbefore, hx⟩
        exact ⟨y :: before, x, after, rfl, List.forall_mem_cons.mpr ⟨⟨b, hy⟩, hbefore⟩, hx⟩
      · rintro ⟨before, x, after, hl, hbefore, hx⟩
        cases before with
        | nil =>
          obtain ⟨rfl, -⟩ := List.cons.inj hl
          exact nomatch hy.symm.trans hx
        | cons z before =>
          obtain ⟨rfl, hrest⟩ := List.cons.inj hl
          exact ⟨before, x, after, hrest, (List.forall_mem_cons.mp hbefore).2, hx⟩

end Scoping
