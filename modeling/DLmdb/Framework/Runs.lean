import Mathlib.Tactic.Common
import Mathlib.Data.List.Basic

/-!
# Runs of a machine

A machine is a total step function on states and events; what an event may do in a
state is left to the function. Besides the state a run ends in, one asks what holds
at each of its steps: `Along step P` says that every event of the run meets `P` in
the state that finds it.
-/

namespace DLmdb.Framework

variable {σ ε : Type} (step : σ → ε → σ)

/-- The state after the events. -/
def runFrom (s : σ) (es : List ε) : σ := es.foldl step s

/-- Every event, in the state that finds it, satisfies `P`. -/
def Along (P : σ → ε → Prop) : σ → List ε → Prop
  | _, [] => True
  | s, e :: es => P s e ∧ Along P (step s e) es

variable {step}

@[simp] theorem runFrom_nil (s : σ) : runFrom step s [] = s := rfl

@[simp] theorem runFrom_cons (s : σ) (e : ε) (es : List ε) :
    runFrom step s (e :: es) = runFrom step (step s e) es := rfl

instance instDecidableAlong (P : σ → ε → Prop) [∀ s e, Decidable (P s e)] :
    (s : σ) → (es : List ε) → Decidable (Along step P s es)
  | _, [] => inferInstanceAs (Decidable True)
  | s, e :: es =>
      have : Decidable (Along step P (step s e) es) := instDecidableAlong P (step s e) es
      inferInstanceAs (Decidable (P s e ∧ Along step P (step s e) es))

/-- **The invariant rule**: what one step keeps, a run keeps. -/
theorem runFrom_invariant {I : σ → Prop} {P : σ → ε → Prop}
    (hstep : ∀ s e, I s → P s e → I (step s e)) {s : σ} (hs : I s) {es : List ε}
    (hes : Along step P s es) : I (runFrom step s es) := by
  induction es generalizing s with
  | nil => exact hs
  | cons e es ih =>
      obtain ⟨he, hes⟩ := hes
      exact ih (hstep s e hs he) hes

/-- **The step rule**: what the invariant makes of each event, along the whole run. -/
theorem Along.of_invariant {I : σ → Prop} {P Q : σ → ε → Prop}
    (hstep : ∀ s e, I s → P s e → I (step s e) ∧ Q s e) {s : σ} (hs : I s) {es : List ε}
    (hes : Along step P s es) : Along step Q s es := by
  induction es generalizing s with
  | nil => trivial
  | cons e es ih =>
      obtain ⟨he, hes⟩ := hes
      obtain ⟨hs', hq⟩ := hstep s e hs he
      exact ⟨hq, ih hs' hes⟩

theorem Along.and {P Q : σ → ε → Prop} {s : σ} {es : List ε} (hp : Along step P s es)
    (hq : Along step Q s es) : Along step (fun s e => P s e ∧ Q s e) s es := by
  induction es generalizing s with
  | nil => trivial
  | cons e es ih => exact ⟨⟨hp.1, hq.1⟩, ih hp.2 hq.2⟩

theorem along_append {P : σ → ε → Prop} {s : σ} {es es' : List ε} :
    Along step P s (es ++ es') ↔ Along step P s es ∧ Along step P (runFrom step s es) es' := by
  induction es generalizing s with
  | nil => exact (and_iff_right trivial).symm
  | cons e es ih =>
      show P s e ∧ Along step P (step s e) (es ++ es') ↔ _
      rw [ih, ← and_assoc]
      rfl

/-- Some event, in the state that finds it, satisfies `P`. -/
def Sometime (step : σ → ε → σ) (P : σ → ε → Prop) : σ → List ε → Prop
  | _, [] => False
  | s, e :: es => P s e ∨ Sometime step P (step s e) es

/-- Every event that satisfies `P` is followed by one that satisfies `Q`. -/
def Followed (step : σ → ε → σ) (P Q : σ → ε → Prop) : σ → List ε → Prop
  | _, [] => True
  | s, e :: es => (P s e → Sometime step Q (step s e) es) ∧ Followed step P Q (step s e) es

/-- **The reset rule**: where events that satisfy `P` take `I` away, and only events that
satisfy `Q` give it back, `I` holds at the end of a run just when it was there at the
start or given back, and every event that took it away is followed by one that gave it
back. -/
theorem runFrom_iff_followed {I : σ → Prop} {P Q : σ → ε → Prop}
    (hstep : ∀ s e, I (step s e) ↔ Q s e ∨ I s ∧ ¬ P s e) (hne : ∀ s e, Q s e → ¬ P s e) {s : σ}
    {es : List ε} : I (runFrom step s es) ↔
      (I s ∨ Sometime step Q s es) ∧ Followed step P Q s es := by
  induction es generalizing s with
  | nil => simp [Sometime, Followed]
  | cons e es ih =>
      rw [runFrom_cons, ih, hstep, Sometime, Followed]
      have hq := hne s e
      tauto

/-- Every state of the run satisfies `I`, the first and the last included. -/
def Throughout (step : σ → ε → σ) (I : σ → Prop) : σ → List ε → Prop
  | s, [] => I s
  | s, e :: es => I s ∧ Throughout step I (step s e) es

theorem Throughout.first {I : σ → Prop} {s : σ} {es : List ε} (h : Throughout step I s es) :
    I s := by
  cases es with
  | nil => exact h
  | cons e es => exact h.1

theorem Throughout.last {I : σ → Prop} {s : σ} {es : List ε} (h : Throughout step I s es) :
    I (runFrom step s es) := by
  induction es generalizing s with
  | nil => exact h
  | cons e es ih => exact ih h.2

/-- What two successive states of the invariant make of each event. -/
theorem Throughout.along {I : σ → Prop} {Q : σ → ε → Prop} {s : σ} {es : List ε}
    (h : Throughout step I s es) (hq : ∀ s e, I s → I (step s e) → Q s e) :
    Along step Q s es := by
  induction es generalizing s with
  | nil => trivial
  | cons e es ih => exact ⟨hq s e h.1 h.2.first, ih h.2⟩

/-- **The exact rule**: where `P` is just what a step needs to keep `I`, the runs whose
steps meet `P` are the runs that keep `I`. What `J` says holds in any case. -/
theorem along_iff_throughout {I J : σ → Prop} {P : σ → ε → Prop}
    (hJ : ∀ s e, J s → J (step s e)) (hI : ∀ s e, J s → I s → (P s e ↔ I (step s e))) {s : σ}
    (hj : J s) (hi : I s) {es : List ε} : Along step P s es ↔ Throughout step I s es := by
  induction es generalizing s with
  | nil => exact iff_of_true trivial hi
  | cons e es ih =>
      have hstep := hI s e hj hi
      constructor
      · rintro ⟨he, hes⟩
        exact ⟨hi, (ih (hJ s e hj) (hstep.mp he)).mp hes⟩
      · rintro ⟨-, hes⟩
        exact ⟨hstep.mpr hes.first, (ih (hJ s e hj) hes.first).mpr hes⟩

/-- A condition on the events alone. -/
theorem Along.of_forall {P : σ → ε → Prop} {s : σ} {es : List ε}
    (h : ∀ e ∈ es, ∀ s, P s e) : Along step P s es := by
  induction es generalizing s with
  | nil => trivial
  | cons e es ih =>
      refine ⟨h e List.mem_cons_self s, ih ?_⟩
      intro e' he'
      exact h e' (List.mem_cons_of_mem _ he')

/-! ## One machine on another -/

/-- What a run amounts to on another machine, where one step may be any number of steps. -/
def translate (step : σ → ε → σ) {ε' : Type} (f : σ → ε → List ε') : σ → List ε → List ε'
  | _, [] => []
  | s, e :: es => f s e ++ translate step f (step s e) es

/-- **The simulation rule**: where every step amounts to steps of the other machine, so does
every run. -/
theorem runFrom_simulates {σ' ε' : Type} {step' : σ' → ε' → σ'} {f : σ → ε → List ε'}
    {R : σ → σ' → Prop} {P : σ → ε → Prop} {P' : σ' → ε' → Prop}
    (hstep : ∀ s s' e, R s s' → P s e →
      Along step' P' s' (f s e) ∧ R (step s e) (runFrom step' s' (f s e)))
    {s : σ} {s' : σ'} (hs : R s s') {es : List ε} (hes : Along step P s es) :
    Along step' P' s' (translate step f s es) ∧
      R (runFrom step s es) (runFrom step' s' (translate step f s es)) := by
  induction es generalizing s s' with
  | nil => exact ⟨trivial, hs⟩
  | cons e es ih =>
      obtain ⟨he, hes⟩ := hes
      obtain ⟨hfirst, hs'⟩ := hstep s s' e hs he
      obtain ⟨hrest, hlast⟩ := ih hs' hes
      refine ⟨along_append.mpr ⟨hfirst, hrest⟩, ?_⟩
      have happ : runFrom step' s' (f s e ++ translate step f (step s e) es) =
          runFrom step' (runFrom step' s' (f s e)) (translate step f (step s e) es) :=
        List.foldl_append
      rw [runFrom_cons, translate, happ]
      exact hlast

end DLmdb.Framework
