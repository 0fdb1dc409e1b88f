import Mathlib.Tactic.Common
import Mathlib.Data.List.Basic

/-!
# Fallible calls and the trace of their atomic effects

A call on a running component does two things: it returns (or fails), and on the
way it changes durable and in-memory state in a sequence of atomic effects. A
`Call` records both. The effects stay when the call fails later on, exactly as
the fields of a live object do; what a failed call undoes is only what it never
published. A crash in the middle of a call is a prefix of its effects.
-/

namespace DLmdb.Framework

/-! ## Inverting `Except` -/

theorem bind_eq_ok {err α β : Type} {x : Except err α} {f : α → Except err β} {b : β} :
    (x >>= f) = .ok b ↔ ∃ a, x = .ok a ∧ f a = .ok b := by
  cases x with
  | error e => simp [bind, Except.bind]
  | ok a => simp [bind, Except.bind]

theorem bind_eq_error {err α β : Type} {x : Except err α} {f : α → Except err β} {e : err} :
    (x >>= f) = .error e ↔ x = .error e ∨ ∃ a, x = .ok a ∧ f a = .error e := by
  cases x with
  | error e' => simp [bind, Except.bind]
  | ok a => simp [bind, Except.bind]

theorem mapError_eq_ok {err err' α : Type} {x : Except err α} {f : err → err'} {a : α} :
    x.mapError f = .ok a ↔ x = .ok a := by
  cases x <;> simp [Except.mapError]

/-! ## Calls -/

/-- What a call did, in code order, and how it ended. -/
structure Call (ε err α : Type) where
  effects : List ε
  result : Except err α

namespace Call

variable {ε err α β σ : Type}

instance : Monad (Call ε err) where
  pure a := ⟨[], .ok a⟩
  bind c f :=
    match c.result with
    | .ok a => ⟨c.effects ++ (f a).effects, (f a).result⟩
    | .error e => ⟨c.effects, .error e⟩

/-- One atomic effect. -/
def emit (e : ε) : Call ε err Unit := ⟨[e], .ok ()⟩

/-- A step without effects of its own: the `?` on a `Result`. -/
def ofExcept (x : Except err α) : Call ε err α := ⟨[], x⟩

/-- The call with its `Result` as a value: no `?` after it. -/
def attempt (c : Call ε err α) : Call ε err (Except err α) := ⟨c.effects, .ok c.result⟩

/-- The call, its value ignored. -/
def ignore (c : Call ε err α) : Call ε err Unit := ⟨c.effects, c.result.map fun _ => ()⟩

theorem isOk_ignore (c : Call ε err α) : c.ignore.result.isOk = c.result.isOk := by
  show (c.result.map _).isOk = _
  cases c.result <;> rfl

/-- The call with its error converted: the `?` that goes through a `From`. -/
def mapError {err' : Type} (f : err → err') (c : Call ε err α) : Call ε err' α :=
  ⟨c.effects, c.result.mapError f⟩

/-- The call stopped after its first `j` effects, as its caller sees it: `e`. -/
def stoppedAt (c : Call ε err α) (j : ℕ) (e : err) : Call ε err β := ⟨c.effects.take j, .error e⟩

@[simp] theorem effects_pure (a : α) : (pure a : Call ε err α).effects = [] := rfl
@[simp] theorem result_ofExcept (x : Except err α) :
    (ofExcept x : Call ε err α).result = x := rfl

theorem bind_of_ok {c : Call ε err α} {f : α → Call ε err β} {a : α}
    (h : c.result = .ok a) :
    (c >>= f) = ⟨c.effects ++ (f a).effects, (f a).result⟩ := by
  show (match c.result with
        | .ok a => (⟨c.effects ++ (f a).effects, (f a).result⟩ : Call ε err β)
        | .error e => ⟨c.effects, .error e⟩) = _
  rw [h]

theorem bind_of_error {c : Call ε err α} {f : α → Call ε err β} {e : err}
    (h : c.result = .error e) : (c >>= f) = ⟨c.effects, .error e⟩ := by
  show (match c.result with
        | .ok a => (⟨c.effects ++ (f a).effects, (f a).result⟩ : Call ε err β)
        | .error e => ⟨c.effects, .error e⟩) = _
  rw [h]

@[simp] theorem ok_bind (a : α) (f : α → Call ε err β) : (ofExcept (.ok a) >>= f) = f a := by
  rw [bind_of_ok (result_ofExcept _)]
  rfl

@[simp] theorem error_bind (e : err) (f : α → Call ε err β) :
    (ofExcept (.error e) >>= f) = ⟨[], .error e⟩ := rfl

@[simp] theorem emit_bind (e : ε) (f : Unit → Call ε err β) :
    (emit e >>= f) = ⟨e :: (f ()).effects, (f ()).result⟩ := rfl

/-- A fallible step with its error converted: the call goes on with the value, or ends
without an effect. -/
theorem mapError_bind_cases {err' : Type} (g : err' → err) (x : Except err' α)
    (f : α → Call ε err β) :
    (∃ a, x = .ok a ∧ (ofExcept (x.mapError g) >>= f) = f a) ∨
      ∃ e, (ofExcept (x.mapError g) >>= f) = ⟨[], .error e⟩ := by
  cases x with
  | ok a => exact Or.inl ⟨a, rfl, ok_bind a f⟩
  | error e => exact Or.inr ⟨g e, error_bind (g e) f⟩

/-- A call that returned went through its first step. -/
theorem result_bind_eq_ok {c : Call ε err α} {f : α → Call ε err β} {b : β} :
    (c >>= f).result = .ok b ↔ ∃ a, c.result = .ok a ∧ (f a).result = .ok b := by
  cases h : c.result with
  | ok a => simp [bind_of_ok h]
  | error e => simp [bind_of_error h]

/-- Returning a function of the value keeps the effects. -/
theorem bind_pure_eq (c : Call ε err α) (f : α → β) :
    (c >>= fun a => pure (f a)) = ⟨c.effects, c.result.map f⟩ := by
  cases h : c.result with
  | ok a =>
      rw [bind_of_ok h, effects_pure, List.append_nil]
      rfl
  | error e =>
      rw [bind_of_error h]
      rfl

/-! ## Running a call, wholly or up to a crash -/

/-- The state once every effect of the call has happened. -/
def after (exec : σ → ε → σ) (s : σ) (c : Call ε err α) : σ := c.effects.foldl exec s

theorem after_bind_of_ok {exec : σ → ε → σ} {s : σ} {c : Call ε err α} {f : α → Call ε err β}
    {a : α} (h : c.result = .ok a) :
    (c >>= f).after exec s = (f a).after exec (c.after exec s) := by
  rw [bind_of_ok h]
  simp [after]

theorem after_bind_of_error {exec : σ → ε → σ} {s : σ} {c : Call ε err α}
    {f : α → Call ε err β} {e : err} (h : c.result = .error e) :
    (c >>= f).after exec s = c.after exec s := by
  rw [bind_of_error h]
  rfl

/-- The state when the process stops after the first `j` effects. -/
def crashAt (exec : σ → ε → σ) (s : σ) (c : Call ε err α) (j : ℕ) : σ :=
  (c.effects.take j).foldl exec s

theorem crashAt_length (exec : σ → ε → σ) (s : σ) (c : Call ε err α) :
    c.crashAt exec s c.effects.length = c.after exec s := by
  simp [crashAt, after]

end Call

end DLmdb.Framework
