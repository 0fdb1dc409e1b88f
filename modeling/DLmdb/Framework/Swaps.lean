import DLmdb.Framework.KeyedWrites

/-!
# Chains of swaps

The writes to one key that go through form a chain: each compare-and-swap among them
expects what the one before it left. That is what a client builds on: a counter that
loses no increment, a lock that is not taken twice.
-/

namespace DLmdb.Framework

variable {κ ν : Type}

/-- From `x` the writes lead to `y`, each swap expecting what it finds. -/
def Linked : Option ν → List (KeyedWrite κ ν) → Option ν → Prop
  | x, [], y => x = y
  | x, w :: ws, y =>
      (∀ k expected value, w = .cas k expected value → expected = x) ∧ Linked w.written ws y

theorem Linked.append {x y z : Option ν} {ws ws' : List (KeyedWrite κ ν)}
    (h : Linked x ws y) (h' : Linked y ws' z) : Linked x (ws ++ ws') z := by
  induction ws generalizing x with
  | nil =>
      have hxy : x = y := h
      rw [hxy]
      exact h'
  | cons w ws ih => exact ⟨h.1, ih h.2⟩

/-- A chain passes through a value at every point. -/
theorem Linked.split {x z : Option ν} {ws ws' : List (KeyedWrite κ ν)}
    (h : Linked x (ws ++ ws') z) : ∃ y, Linked x ws y ∧ Linked y ws' z := by
  induction ws generalizing x with
  | nil => exact ⟨x, rfl, h⟩
  | cons w ws ih =>
      obtain ⟨y, hws, hws'⟩ := ih h.2
      exact ⟨y, ⟨h.1, hws⟩, hws'⟩

/-- A chain that leads somewhere else contains a write of what it leads to. -/
theorem Linked.exists_written {x y : Option ν} {ws : List (KeyedWrite κ ν)} (h : Linked x ws y)
    (hne : x ≠ y) : ∃ w ∈ ws, w.written = y := by
  induction ws generalizing x with
  | nil => exact absurd h hne
  | cons w ws ih =>
      by_cases hw : w.written = y
      · exact ⟨w, List.mem_cons_self, hw⟩
      · obtain ⟨w', hmem, hwritten⟩ := ih h.2 hw
        exact ⟨w', List.mem_cons_of_mem w hmem, hwritten⟩

/-- **Between two swaps** of which the second does not expect what the first wrote,
something wrote what the second expects. -/
theorem Linked.between_swaps {x z : Option ν} {ws ws' ws'' : List (KeyedWrite κ ν)} {k k' : κ}
    {expected expected' : Option ν} {value value' : ν}
    (h : Linked x (ws ++ .cas k expected value :: (ws' ++ .cas k' expected' value' :: ws'')) z)
    (hne : some value ≠ expected') : ∃ w ∈ ws', w.written = expected' := by
  obtain ⟨y, -, -, hlater⟩ := h.split
  obtain ⟨y', hbetween, hsecond, -⟩ := Linked.split hlater
  have hy' : expected' = y' := hsecond k' expected' value' rfl
  subst hy'
  exact hbetween.exists_written hne

variable [DecidableEq κ] [DecidableEq ν]

omit [DecidableEq κ] in
/-- **The writes that go through are linked.** -/
theorem linked_taken (ws : List (KeyedWrite κ ν)) (x : Option ν) :
    Linked x (taken x ws) (chain ws x) := by
  induction ws generalizing x with
  | nil => rfl
  | cons w ws ih =>
      show Linked x (taken x (w :: ws)) (chain ws (w.act x))
      cases h : w.fires x with
      | true =>
          rw [KeyedWrite.act_of_fires h]
          simp only [taken, h, if_true]
          refine ⟨?_, ih w.written⟩
          rintro k expected value rfl
          exact (of_decide_eq_true h).symm
      | false =>
          rw [KeyedWrite.act_of_not_fires h]
          simp only [taken, h]
          exact ih x

omit [DecidableEq κ] in
/-- What a chain of writes leaves was there, or one of them wrote it. -/
theorem chain_mem {P : ν → Prop} {ws : List (KeyedWrite κ ν)} {x : Option ν}
    (hx : ∀ v ∈ x, P v) (hws : ∀ w ∈ ws, ∀ v ∈ w.written, P v) : ∀ v ∈ chain ws x, P v := by
  induction ws generalizing x with
  | nil => exact hx
  | cons w ws ih =>
      refine ih (x := w.act x) ?_ (fun w' hw' => hws w' (List.mem_cons_of_mem _ hw'))
      cases hf : w.fires x with
      | true =>
          rw [KeyedWrite.act_of_fires hf]
          exact hws w List.mem_cons_self
      | false =>
          rw [KeyedWrite.act_of_not_fires hf]
          exact hx

omit [DecidableEq κ] in
/-- Assignments all go through. -/
theorem taken_of_isAssign {ws : List (KeyedWrite κ ν)} (h : ∀ w ∈ ws, w.isAssign = true)
    (x : Option ν) : taken x ws = ws := by
  induction ws generalizing x with
  | nil => rfl
  | cons w ws ih =>
      have hfires : w.fires x = true := by
        have hw := h w List.mem_cons_self
        cases w with
        | assign key value => rfl
        | cas key expected value => cases hw
      simp only [taken, hfires, if_true]
      rw [ih (fun w' hw' => h w' (List.mem_cons_of_mem _ hw'))]

end DLmdb.Framework
