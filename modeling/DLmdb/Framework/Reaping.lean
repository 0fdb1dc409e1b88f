import DLmdb.Framework.KeyedWrites

/-!
# Lazy removal of dead values

A store may at any time drop a key whose value is dead. `Reaped` relates contents
before and after such removals; `Alike` relates the contents of two stores that went
through the same writes and dropped different dead keys. A write takes like stores
to like stores as long as it goes through in both or in neither.
-/

namespace DLmdb.Framework

variable {κ ν : Type} (dead : ν → Prop)

/-- `τ` is `σ` with some dead values gone. -/
def Reaped (σ τ : Contents κ ν) : Prop :=
  ∀ k, τ k = σ k ∨ τ k = none ∧ ∃ v, σ k = some v ∧ dead v

/-- `σ` and `τ` differ by dead values that one of them no longer has. -/
def Alike (σ τ : Contents κ ν) : Prop :=
  ∀ k, σ k = τ k ∨ (σ k = none ∧ ∃ v, τ k = some v ∧ dead v) ∨
    (τ k = none ∧ ∃ v, σ k = some v ∧ dead v)

variable {dead}

theorem Reaped.refl (σ : Contents κ ν) : Reaped dead σ σ := fun _ => Or.inl rfl

theorem Reaped.trans {σ τ υ : Contents κ ν} (h : Reaped dead σ τ) (h' : Reaped dead τ υ) :
    Reaped dead σ υ := by
  intro k
  rcases h' k with heq | ⟨hnone, v, hv, hdead⟩
  · rw [heq]
    exact h k
  · rcases h k with heq | ⟨hnone', -⟩
    · exact Or.inr ⟨hnone, v, heq ▸ hv, hdead⟩
    · rw [hv] at hnone'
      cases hnone'

theorem Reaped.imp {dead' : ν → Prop} {σ τ : Contents κ ν} (h : Reaped dead σ τ)
    (hdead : ∀ v, dead v → dead' v) : Reaped dead' σ τ := by
  intro k
  rcases h k with heq | ⟨hnone, v, hv, hd⟩
  · exact Or.inl heq
  · exact Or.inr ⟨hnone, v, hv, hdead v hd⟩

theorem Alike.refl (σ : Contents κ ν) : Alike dead σ σ := fun _ => Or.inl rfl

theorem Alike.symm {σ τ : Contents κ ν} (h : Alike dead σ τ) : Alike dead τ σ := by
  intro k
  rcases h k with heq | hleft | hright
  · exact Or.inl heq.symm
  · exact Or.inr (Or.inr hleft)
  · exact Or.inr (Or.inl hright)

/-- Removing dead values on one side keeps stores alike. -/
theorem Alike.reaped_left {σ σ' τ : Contents κ ν} (h : Alike dead σ τ)
    (hr : Reaped dead σ σ') : Alike dead σ' τ := by
  intro k
  rcases hr k with heq | ⟨hnone, v, hv, hdead⟩
  · rw [heq]
    exact h k
  · rcases h k with hsame | ⟨hgone, -⟩ | ⟨hgone, -⟩
    · exact Or.inr (Or.inl ⟨hnone, v, hsame ▸ hv, hdead⟩)
    · rw [hv] at hgone
      cases hgone
    · exact Or.inl (by rw [hnone, hgone])

theorem Alike.reaped {σ σ' τ τ' : Contents κ ν} (h : Alike dead σ τ) (hr : Reaped dead σ σ')
    (hr' : Reaped dead τ τ') : Alike dead σ' τ' :=
  ((h.reaped_left hr).symm.reaped_left hr').symm

/-- Where both stores have the key, or neither has it, they hold the same. -/
theorem Alike.eq_of_isSome {σ τ : Contents κ ν} (h : Alike dead σ τ) {k : κ}
    (hk : (σ k).isSome = (τ k).isSome) : σ k = τ k := by
  rcases h k with heq | ⟨hnone, v, hv, -⟩ | ⟨hnone, v, hv, -⟩
  · exact heq
  · rw [hnone, hv] at hk
    cases hk
  · rw [hnone, hv] at hk
    cases hk

variable [DecidableEq κ] [DecidableEq ν]

/-- Writes run on the reaped contents overwrite both sides alike. -/
theorem Reaped.leaves {σ τ : Contents κ ν} (h : Reaped dead σ τ) (ws : List (KeyedWrite κ ν)) :
    Reaped dead (fun k => leaves τ ws k (σ k)) (τ.run ws) := by
  intro k
  rw [run_eq_leaves]
  beta_reduce
  rcases leaves_cases τ ws k with hid | ⟨y, hy⟩
  · rw [hid, hid]
    exact h k
  · rw [hy, hy]
    exact Or.inl rfl

/-- **A write that goes through in both stores or in neither** keeps them alike. -/
theorem Alike.step {σ τ : Contents κ ν} (h : Alike dead σ τ) {w : KeyedWrite κ ν}
    (hw : w.fires (σ w.key) = w.fires (τ w.key)) : Alike dead (σ.step w) (τ.step w) := by
  intro k
  by_cases hk : w.key = k
  · subst hk
    rw [Contents.step_key, Contents.step_key]
    cases hf : w.fires (σ w.key) with
    | true =>
        rw [KeyedWrite.act_of_fires hf, KeyedWrite.act_of_fires (hw ▸ hf)]
        exact Or.inl rfl
    | false =>
        rw [KeyedWrite.act_of_not_fires hf, KeyedWrite.act_of_not_fires (hw ▸ hf)]
        exact h w.key
  · rw [Contents.step_other σ hk, Contents.step_other τ hk]
    exact h k

theorem Alike.run_assigns {σ τ : Contents κ ν} (h : Alike dead σ τ)
    {ws : List (KeyedWrite κ ν)} (hws : ∀ w ∈ ws, w.isAssign = true) :
    Alike dead (σ.run ws) (τ.run ws) := by
  induction ws generalizing σ τ with
  | nil => exact h
  | cons w ws ih =>
      have hw : w.fires (σ w.key) = w.fires (τ w.key) := by
        have hassign := hws w List.mem_cons_self
        cases w with
        | assign key value => rfl
        | cas key expected value => cases hassign
      exact ih (h.step hw) (fun w' hw' => hws w' (List.mem_cons_of_mem _ hw'))

end DLmdb.Framework
