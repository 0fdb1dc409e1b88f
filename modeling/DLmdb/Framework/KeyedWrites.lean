import Mathlib.Tactic.Common
import Mathlib.Data.List.Basic
import Mathlib.Logic.Function.Basic

/-!
# Keyed writes and their replay

Abstract contents of a store, and the two kinds of write a log of commands puts
on it: an unconditional assignment of one key (a value, or absence), and a
compare-and-swap of one key. Every write reads and changes its own key only, so a
run of writes is, key by key, a chain of acts on one optional value (`run_apply`).

The replay question of log-based recovery is then local to a key. Writing the
same operations again onto the contents they led to is harmless at a key that one
of them assigns; at a key that is only compared and swapped it is harmless
exactly when the swaps the stored value sets off lead back to it
(`run_run_eq_iff`).
-/

namespace DLmdb.Framework

variable {κ ν : Type}

/-- What a store holds. -/
abbrev Contents (κ ν : Type) := κ → Option ν

inductive KeyedWrite (κ ν : Type) where
  | assign (key : κ) (value : Option ν)
  | cas (key : κ) (expected : Option ν) (value : ν)
deriving DecidableEq

namespace KeyedWrite

def key : KeyedWrite κ ν → κ
  | .assign key _ => key
  | .cas key _ _ => key

/-- The value the write leaves when it goes through. -/
def written : KeyedWrite κ ν → Option ν
  | .assign _ value => value
  | .cas _ _ value => some value

def isAssign : KeyedWrite κ ν → Bool
  | .assign _ _ => true
  | .cas _ _ _ => false

variable [DecidableEq κ] [DecidableEq ν]

/-- Does the write go through where its key holds `x`? -/
def fires : KeyedWrite κ ν → Option ν → Bool
  | .assign _ _, _ => true
  | .cas _ expected _, x => x = expected

/-- What the write does to the value of its key. -/
def act (w : KeyedWrite κ ν) (x : Option ν) : Option ν :=
  if w.fires x then w.written else x

omit [DecidableEq κ] in
theorem act_of_fires {w : KeyedWrite κ ν} {x : Option ν} (h : w.fires x = true) :
    w.act x = w.written := by
  simp [act, h]

omit [DecidableEq κ] in
theorem act_of_not_fires {w : KeyedWrite κ ν} {x : Option ν} (h : w.fires x = false) :
    w.act x = x := by
  simp [act, h]

omit [DecidableEq κ] in
theorem act_of_isAssign {w : KeyedWrite κ ν} (h : w.isAssign = true) (x y : Option ν) :
    w.act x = w.act y := by
  cases w with
  | assign key value => rfl
  | cas key expected value => simp [isAssign] at h

end KeyedWrite

variable [DecidableEq κ] [DecidableEq ν]

namespace Contents

def step (σ : Contents κ ν) (w : KeyedWrite κ ν) : Contents κ ν :=
  Function.update σ w.key (w.act (σ w.key))

def run (σ : Contents κ ν) (ws : List (KeyedWrite κ ν)) : Contents κ ν := ws.foldl step σ

@[simp] theorem run_nil (σ : Contents κ ν) : run σ [] = σ := rfl

@[simp] theorem run_cons (σ : Contents κ ν) (w : KeyedWrite κ ν) (ws : List (KeyedWrite κ ν)) :
    run σ (w :: ws) = run (step σ w) ws := rfl

theorem run_append (σ : Contents κ ν) (ws ws' : List (KeyedWrite κ ν)) :
    run σ (ws ++ ws') = run (run σ ws) ws' := by
  simp only [run, List.foldl_append]

theorem step_key (σ : Contents κ ν) (w : KeyedWrite κ ν) :
    step σ w w.key = w.act (σ w.key) := by
  simp [step]

theorem step_other (σ : Contents κ ν) {w : KeyedWrite κ ν} {k : κ} (h : w.key ≠ k) :
    step σ w k = σ k := by
  simp [step, Function.update_of_ne h.symm]

theorem step_assign (σ : Contents κ ν) (k : κ) (x : Option ν) :
    σ.step (.assign k x) = Function.update σ k x := rfl

theorem step_cas_hit {σ : Contents κ ν} {k : κ} {expected : Option ν} (h : σ k = expected)
    (v : ν) : σ.step (.cas k expected v) = Function.update σ k (some v) := by
  have hfires : (KeyedWrite.cas k expected v).fires (σ k) = true := decide_eq_true h
  show Function.update σ k ((KeyedWrite.cas k expected v).act (σ k)) = _
  rw [KeyedWrite.act_of_fires hfires]
  rfl

theorem step_cas_miss {σ : Contents κ ν} {k : κ} {expected : Option ν} (h : σ k ≠ expected)
    (v : ν) : σ.step (.cas k expected v) = σ := by
  have hfires : (KeyedWrite.cas k expected v).fires (σ k) = false := decide_eq_false h
  show Function.update σ k ((KeyedWrite.cas k expected v).act (σ k)) = σ
  rw [KeyedWrite.act_of_not_fires hfires, Function.update_eq_self]

end Contents

/-! ## Writing out a list of pairs -/

/-- One assignment a pair, in order. -/
def copyWrites (items : List (κ × ν)) : List (KeyedWrite κ ν) :=
  items.map (fun e => .assign e.1 (some e.2))

theorem run_copyWrites_of_not_mem (σ : Contents κ ν) {items : List (κ × ν)} {k : κ}
    (h : ∀ v, (k, v) ∉ items) : σ.run (copyWrites items) k = σ k := by
  induction items generalizing σ with
  | nil => rfl
  | cons e items ih =>
      have hne : e.1 ≠ k := by
        intro he
        exact h e.2 (by rw [← he]; exact List.mem_cons_self)
      show (σ.step (.assign e.1 (some e.2))).run (copyWrites items) k = σ k
      rw [ih _ (fun v hv => h v (List.mem_cons_of_mem _ hv))]
      exact Contents.step_other σ hne

/-- Pairs with distinct keys are all there once they are written out. -/
theorem run_copyWrites_of_mem (σ : Contents κ ν) {items : List (κ × ν)}
    (hd : items.Pairwise (fun a b => a.1 ≠ b.1)) {k : κ} {v : ν} (h : (k, v) ∈ items) :
    σ.run (copyWrites items) k = some v := by
  induction items generalizing σ with
  | nil => cases h
  | cons e items ih =>
      obtain ⟨hne, hd⟩ := List.pairwise_cons.mp hd
      show (σ.step (.assign e.1 (some e.2))).run (copyWrites items) k = some v
      rcases List.mem_cons.mp h with rfl | hmem
      · -- no later pair has this key
        rw [run_copyWrites_of_not_mem _ (fun w hw => hne (k, w) hw rfl)]
        exact Contents.step_key σ (.assign k (some v))
      · exact ih _ hd hmem

/-! ## One key at a time -/

/-- The writes to `k`. -/
def onKey (k : κ) (ws : List (KeyedWrite κ ν)) : List (KeyedWrite κ ν) :=
  ws.filter (fun w => w.key = k)

/-- The value the writes lead to from `x`, all of them on one key. -/
def chain (ws : List (KeyedWrite κ ν)) (x : Option ν) : Option ν :=
  ws.foldl (fun x w => w.act x) x

/-- Those among the writes that go through, in order, from `x`. -/
def taken : Option ν → List (KeyedWrite κ ν) → List (KeyedWrite κ ν)
  | _, [] => []
  | x, w :: ws => if w.fires x then w :: taken w.written ws else taken x ws

/-- **A run is a chain at each key.** -/
theorem run_apply (σ : Contents κ ν) (ws : List (KeyedWrite κ ν)) (k : κ) :
    σ.run ws k = chain (onKey k ws) (σ k) := by
  induction ws generalizing σ with
  | nil => rfl
  | cons w ws ih =>
      rw [Contents.run_cons, ih]
      by_cases h : w.key = k
      · subst h
        simp [onKey, chain, Contents.step_key]
      · -- a write elsewhere is in no chain of `k`
        simp [onKey, h, Contents.step_other σ h]

omit [DecidableEq κ] in
/-- The last write that goes through decides the value. -/
theorem chain_eq_taken (ws : List (KeyedWrite κ ν)) (x : Option ν) :
    chain ws x = ((taken x ws).getLast?.map KeyedWrite.written).getD x := by
  induction ws generalizing x with
  | nil => rfl
  | cons w ws ih =>
      show chain ws (w.act x) = _
      cases h : w.fires x with
      | true =>
          rw [KeyedWrite.act_of_fires h, ih]
          simp only [taken, h, if_true]
          rw [List.getLast?_cons]
          cases (taken w.written ws).getLast? <;> rfl
      | false =>
          rw [KeyedWrite.act_of_not_fires h, ih]
          simp [taken, h]

/-- What the writes, run from `σ`, leave under `k` in the place of `x`: the last one that
goes through decides. -/
def leaves (σ : Contents κ ν) (ws : List (KeyedWrite κ ν)) (k : κ) (x : Option ν) : Option ν :=
  ((taken (σ k) (onKey k ws)).getLast?.map KeyedWrite.written).getD x

theorem run_eq_leaves (σ : Contents κ ν) (ws : List (KeyedWrite κ ν)) (k : κ) :
    σ.run ws k = leaves σ ws k (σ k) := by
  rw [run_apply, chain_eq_taken]
  rfl

/-- The writes leave `x` there, or something that does not depend on `x`. -/
theorem leaves_cases (σ : Contents κ ν) (ws : List (KeyedWrite κ ν)) (k : κ) :
    (∀ x, leaves σ ws k x = x) ∨ ∃ y, ∀ x, leaves σ ws k x = y := by
  unfold leaves
  cases (taken (σ k) (onKey k ws)).getLast? with
  | none => exact Or.inl fun _ => rfl
  | some w => exact Or.inr ⟨w.written, fun _ => rfl⟩

omit [DecidableEq κ] in
/-- From an assignment on, the starting value is forgotten. -/
theorem chain_of_assign {ws : List (KeyedWrite κ ν)} (h : ∃ w ∈ ws, w.isAssign = true)
    (x y : Option ν) : chain ws x = chain ws y := by
  induction ws generalizing x y with
  | nil => simp at h
  | cons w ws ih =>
      show chain ws (w.act x) = chain ws (w.act y)
      by_cases hw : w.isAssign = true
      · rw [KeyedWrite.act_of_isAssign hw x y]
      · -- the first write keeps the two values apart, the assignment comes later
        obtain ⟨a, ha, hassign⟩ := h
        rcases List.mem_cons.mp ha with rfl | hmem
        · exact absurd hassign hw
        · exact ih ⟨a, hmem, hassign⟩ _ _

omit [DecidableEq κ] in
theorem chain_append (ws ws' : List (KeyedWrite κ ν)) (x : Option ν) :
    chain (ws ++ ws') x = chain ws' (chain ws x) := List.foldl_append

omit [DecidableEq ν] in
theorem onKey_append (k : κ) (ws ws' : List (KeyedWrite κ ν)) :
    onKey k (ws ++ ws') = onKey k ws ++ onKey k ws' := List.filter_append _ _

omit [DecidableEq κ] in
/-- Where every write assigns, one may start further back: if the last writes take `x` to
where all of them take `y`, then so do all of them. -/
theorem chain_from_further_back {ws ws' : List (KeyedWrite κ ν)}
    (h : ∀ w ∈ ws ++ ws', w.isAssign = true) {x y : Option ν}
    (hlast : chain ws' x = chain (ws ++ ws') y) : chain (ws ++ ws') x = chain (ws ++ ws') y := by
  cases hall : ws ++ ws' with
  | nil =>
      obtain ⟨rfl, rfl⟩ := List.append_eq_nil_iff.mp hall
      exact hlast
  | cons w rest =>
      have hw : w ∈ ws ++ ws' := by
        rw [hall]
        exact List.mem_cons_self
      exact chain_of_assign ⟨w, List.mem_cons_self, h w hw⟩ x y

/-! ## Replay -/

/-- The writes can be replayed on `σ` without changing it: each key is assigned by
one of them, or the last swap that its value sets off, if any, writes that value
back. -/
def Replayable (ws : List (KeyedWrite κ ν)) (σ : Contents κ ν) : Prop :=
  ∀ k, (∃ w ∈ onKey k ws, w.isAssign = true) ∨
    ∀ w ∈ (taken (σ k) (onKey k ws)).getLast?, w.written = σ k

/-- Writes without a compare-and-swap can be replayed on anything. -/
theorem Replayable.of_isAssign {ws : List (KeyedWrite κ ν)}
    (h : ∀ w ∈ ws, w.isAssign = true) (σ : Contents κ ν) : Replayable ws σ := by
  intro k
  cases hk : onKey k ws with
  | nil =>
      right
      rintro w ⟨⟩
  | cons w rest =>
      have hw : w ∈ onKey k ws := by
        rw [hk]
        exact List.mem_cons_self
      exact Or.inl ⟨w, List.mem_cons_self, h w (List.mem_of_mem_filter hw)⟩

/-- **Replay is harmless exactly on replayable contents.** -/
theorem run_run_eq_iff (σ : Contents κ ν) (ws : List (KeyedWrite κ ν)) :
    (σ.run ws).run ws = σ.run ws ↔ Replayable ws (σ.run ws) := by
  constructor
  · intro h k
    by_cases hassign : ∃ w ∈ onKey k ws, w.isAssign = true
    · exact Or.inl hassign
    · refine Or.inr fun w hw => ?_
      have hk := congrFun h k
      rw [run_apply (σ.run ws), chain_eq_taken, Option.mem_def.mp hw] at hk
      exact hk
  · intro h
    ext k : 1
    rw [run_apply (σ.run ws)]
    rcases h k with hassign | hlast
    · rw [chain_of_assign hassign _ (σ k), ← run_apply]
    · rw [chain_eq_taken]
      cases hl : (taken (σ.run ws k) (onKey k ws)).getLast? with
      | none => rfl
      | some w => exact hlast w hl

end DLmdb.Framework
