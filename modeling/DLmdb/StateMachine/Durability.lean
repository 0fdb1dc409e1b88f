import DLmdb.StateMachine.Lifecycle
import DLmdb.StateMachine.Recovery

/-!
# Where a crash falls

Every call of the state machine publishes at most one transaction. A crash in the middle
of a call therefore leaves the directory of a crash before the call or of one after it,
and since a restart keeps nothing but the directory, a run with crashes anywhere is a run
whose crashes fall between calls.
-/

namespace DLmdb

open Framework Lmdb

/-! ## One transaction a call -/

theorem SmOp.commits_call (sm : LmdbStateMachine) (op : SmOp) :
    commits (op.call sm).effects = [] ∨ ∃ env, commits (op.call sm).effects = [env] := by
  cases op with
  | applyChunk flt chunk =>
      show commits (DLmdb.applyChunk flt sm chunk).effects = [] ∨ _
      rcases applyChunk_cases flt sm chunk with ⟨env, hcall, -⟩ | ⟨done, rest, err, -, hcall⟩
      · refine Or.inr ⟨env, ?_⟩
        show commits (DLmdb.applyChunk flt sm chunk).effects = [env]
        rw [hcall, commits_applied]
      · rw [hcall]
        exact Or.inl (commits_cacheEffect done)
  | generateSnapshotData dirErr flt lastIncluded =>
      show commits (DLmdb.generateSnapshotData dirErr flt sm.env lastIncluded).effects = [] ∨ _
      rcases generateSnapshotData_cases dirErr flt sm.env lastIncluded with ⟨out, h⟩ | ⟨e, h⟩
      · rw [h]
        exact Or.inl rfl
      · rw [h]
        exact Or.inl rfl
  | applySnapshotFromFile task snapFlt flt metadata file =>
      rcases applySnapshotFromFile_cases task snapFlt flt sm metadata file with
        ⟨db, env, -, -, hcall⟩ | ⟨-, hnone | ⟨db, env, -, -, hone⟩⟩
      · refine Or.inr ⟨env, ?_⟩
        show commits (DLmdb.applySnapshotFromFile task snapFlt flt sm metadata file).effects = [env]
        rw [hcall, commits_installed]
      · exact Or.inl hnone
      · exact Or.inr ⟨env, hone⟩
  | persistLastSnapshotMetadata metadata => exact Or.inl rfl
  | persistLastApplied flt l =>
      show commits (DLmdb.persistLastApplied flt sm l).effects = [] ∨ _
      rcases persistLastApplied_cases flt sm l with ⟨env, h, -⟩ | ⟨e, h⟩
      · refine Or.inr ⟨env, ?_⟩
        show commits (DLmdb.persistLastApplied flt sm l).effects = [env]
        rw [h]
        rfl
      · rw [h]
        exact Or.inl rfl
  | reset flt =>
      show commits (resetStateMachine flt sm).effects = [] ∨ _
      rcases resetStateMachine_cases flt sm with ⟨env, h, -⟩ | ⟨e, h⟩
      · refine Or.inr ⟨env, ?_⟩
        show commits (resetStateMachine flt sm).effects = [env]
        rw [h]
        rfl
      · rw [h]
        exact Or.inl rfl

/-- **A call stopped anywhere** leaves the directory it found, or the one it leaves when
it ends. -/
theorem SmOp.crash_env (sm : LmdbStateMachine) (op : SmOp) (j : ℕ) :
    ((op.call sm).crashAt LmdbStateMachine.exec sm j).env = sm.env ∨
      ((op.call sm).crashAt LmdbStateMachine.exec sm j).env = (sm.after (op.call sm)).env := by
  rcases op.commits_call sm with hnone | ⟨env, hone⟩
  · exact Or.inl (crashAt_env_of_silent hnone sm j)
  · have hafter : (sm.after (op.call sm)).env = env := by
      show ((op.call sm).effects.foldl LmdbStateMachine.exec sm).env = env
      rw [env_foldl, hone]
      rfl
    rw [hafter]
    exact crashAt_env_cases hone sm j

/-! ## Crashes between calls -/

/-- The event is a call, a clean drop, or a crash between two calls. -/
def SmEvent.Whole : SmEvent → Prop
  | .restart (.crash _ j) => j = 0
  | _ => True

/-- `es'` is `es` with every crash in the middle of a call moved: before the call, or
after it. -/
inductive Resolves : List SmEvent → List SmEvent → Prop
  | nil : Resolves [] []
  | keep {e : SmEvent} {es es' : List SmEvent} (whole : e.Whole) (rest : Resolves es es') :
      Resolves (e :: es) (e :: es')
  | before {op : SmOp} {j : ℕ} {es es' : List SmEvent} (rest : Resolves es es') :
      Resolves (.restart (.crash op j) :: es) (.restart (.crash op 0) :: es')
  | after {op : SmOp} {j : ℕ} {es es' : List SmEvent} (rest : Resolves es es') :
      Resolves (.restart (.crash op j) :: es) (.run op :: .restart (.crash op 0) :: es')

theorem Resolves.whole {es es' : List SmEvent} (h : Resolves es es') :
    ∀ e ∈ es', e.Whole := by
  induction h with
  | nil => nofun
  | keep whole rest ih => exact List.forall_mem_cons.mpr ⟨whole, ih⟩
  | before rest ih => exact List.forall_mem_cons.mpr ⟨rfl, ih⟩
  | after rest ih => exact List.forall_mem_cons.mpr ⟨trivial, List.forall_mem_cons.mpr ⟨rfl, ih⟩⟩

namespace History

/-- The state machine after an event is decided by the one before it. -/
theorem step_sm_congr {h h' : History} (hsm : h.sm = h'.sm) (e : SmEvent) :
    (h.step e).sm = (h'.step e).sm := by
  show h.smAfter e = h'.smAfter e
  cases e with
  | run op => simp only [smAfter, hsm]
  | restart stop => simp only [smAfter, hsm]

end History

/-- **Every crash falls between two calls.** Whatever calls, clean drops and crashes a
state machine goes through, its run is one whose crashes are not in the middle of a
call: the same directory, the same fields in memory. -/
theorem crashes_fall_between_calls (h : History) (es : List SmEvent) :
    ∃ es', Resolves es es' ∧ (∀ e ∈ es', e.Whole) ∧
      (runFrom History.step h es').sm = (runFrom History.step h es).sm := by
  suffices hall : ∀ g : History, g.sm = h.sm → ∃ es', Resolves es es' ∧
      (runFrom History.step g es').sm = (runFrom History.step h es).sm by
    obtain ⟨es', hres, hsm⟩ := hall h rfl
    exact ⟨es', hres, hres.whole, hsm⟩
  induction es generalizing h with
  | nil => exact fun g hg => ⟨[], .nil, hg⟩
  | cons e es ih =>
      intro g hg
      have hkeep : e.Whole → ∃ es', Resolves (e :: es) es' ∧
          (runFrom History.step g es').sm = (runFrom History.step h (e :: es)).sm := by
        intro hwhole
        obtain ⟨es', hres, hsm⟩ := ih (h.step e) (g.step e) (History.step_sm_congr hg e)
        exact ⟨e :: es', .keep hwhole hres, hsm⟩
      cases e with
      | run op => exact hkeep trivial
      | restart stop =>
          cases stop with
          | drop flt => exact hkeep trivial
          | crash op j =>
              -- the restart keeps the directory, and that is one of two
              have hstep : (h.step (.restart (.crash op j))).sm =
                  reopened ((op.call h.sm).crashAt LmdbStateMachine.exec h.sm j).env := rfl
              rcases op.crash_env h.sm j with hold | hnew
              · have hbefore : (g.step (.restart (.crash op 0))).sm =
                    (h.step (.restart (.crash op j))).sm := by
                  rw [hstep, hold, ← hg]
                  rfl
                obtain ⟨es', hres, hsm⟩ := ih _ _ hbefore
                exact ⟨_, .before hres, hsm⟩
              · have hafter : ((g.step (.run op)).step (.restart (.crash op 0))).sm =
                    (h.step (.restart (.crash op j))).sm := by
                  rw [hstep, hnew, ← hg]
                  rfl
                obtain ⟨es', hres, hsm⟩ := ih _ _ hafter
                exact ⟨_, .after hres, hsm⟩

end DLmdb
