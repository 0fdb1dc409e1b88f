import DLmdb.StateMachine.Apply

/-!
# Chunking independence

Raft hands the committed log to `apply_chunk` in pieces that differ from replica
to replica. Here the log has a naive sequential meaning (`mapStep`, a plain map
from keys to values and a result for each entry), and any way of cutting it that
goes through computes that meaning, with the same bookkeeping at the end.
-/

namespace DLmdb

open Framework Lmdb

/-! ## The sequential map -/

def mapOp (σ : Contents Bytes Bytes) : BatchOp → Contents Bytes Bytes
  | .insert key value => Function.update σ key (some value)
  | .delete key => Function.update σ key none

/-- One command on a plain map: the new map, and whether the command succeeded. -/
def mapStep (σ : Contents Bytes Bytes) : Command → Contents Bytes Bytes × Bool
  | .insert key value _ => (Function.update σ key (some value), true)
  | .delete key => (Function.update σ key none, true)
  | .compareAndSwap key expected value =>
      if σ key = expected then (Function.update σ key (some value), true) else (σ, false)
  | .batch ops => (ops.foldl mapOp σ, true)
  | .noop => (σ, true)

/-- A log on a plain map: the final map, and one result an entry. -/
def mapRun (σ : Contents Bytes Bytes) : List ApplyEntry → Contents Bytes Bytes × List ApplyResult
  | [] => (σ, [])
  | e :: log =>
      let next := mapStep σ e.command
      let rest := mapRun next.1 log
      (rest.1, ⟨e.index, next.2⟩ :: rest.2)

theorem run_batch (σ : Contents Bytes Bytes) (ops : List BatchOp) :
    σ.run (ops.map BatchOp.write) = ops.foldl mapOp σ := by
  induction ops generalizing σ with
  | nil => rfl
  | cons op ops ih =>
      rw [List.map_cons, Contents.run_cons, ih, List.foldl_cons]
      cases op <;> rfl

/-- The keyed writes of a command are its step on the plain map. -/
theorem mapStep_eq (σ : Contents Bytes Bytes) (c : Command) :
    mapStep σ c = (σ.run c.writes, c.outcome σ) := by
  cases c with
  | insert key value ttlSecs => rfl
  | delete key => rfl
  | compareAndSwap key expected value =>
      by_cases h : σ key = expected
      · simp [mapStep, h, Command.outcome, Command.writes, Contents.step_cas_hit h]
      · simp [mapStep, h, Command.outcome, Command.writes, Contents.step_cas_miss h]
  | batch ops => simp [mapStep, Command.writes, Command.outcome, run_batch]
  | noop => rfl

theorem mapRun_eq (σ : Contents Bytes Bytes) (log : List ApplyEntry) :
    mapRun σ log = (σ.run (logWrites log), resultsOf σ log) := by
  induction log generalizing σ with
  | nil => rfl
  | cons e log ih => simp [mapRun, mapStep_eq, ih, resultsOf, Contents.run_append]

/-! ## Cutting a log -/

/-- **Chunking independence.** Two ways of cutting a log that both go through leave
the same `kv` contents, `last_applied` and term cache and return the same results:
one an entry, in order, under its index, and as the sequential map has them. -/
theorem applyChunks_cut_independent {sm sm₁ sm₂ : LmdbStateMachine}
    {cuts₁ cuts₂ : List (Faults × List ApplyEntry)} {rs₁ rs₂ : List ApplyResult}
    (hcut : cutEntries cuts₁ = cutEntries cuts₂)
    (h₁ : applyChunks sm cuts₁ = .ok (sm₁, rs₁)) (h₂ : applyChunks sm cuts₂ = .ok (sm₂, rs₂)) :
    sm₁.kv = sm₂.kv ∧ sm₁.lastApplied = sm₂.lastApplied ∧ sm₁.entryTerms = sm₂.entryTerms ∧
      rs₁ = rs₂ ∧
      rs₁.map ApplyResult.index = (cutEntries cuts₁).map ApplyEntry.index ∧
      (sm₁.kv.get, rs₁) = mapRun sm.kv.get (cutEntries cuts₁) := by
  have a₁ := applyChunks_applied h₁
  have a₂ := applyChunks_applied h₂
  rw [← hcut] at a₂
  refine ⟨?_, ?_, ?_, ?_, ?_, ?_⟩
  · apply Database.ext_get
    intro k
    rw [a₁.kv, a₂.kv]
  · rw [a₁.lastApplied, a₂.lastApplied]
  · rw [a₁.entryTerms, a₂.entryTerms]
  · rw [a₁.results, a₂.results]
  · rw [a₁.results, map_index_resultsOf]
  · rw [a₁.kv, a₁.results, mapRun_eq]

/-- A swap that depends on an earlier entry of its chunk, cut together and apart. -/
theorem applyChunks_cut_independent_swap :
    let log : List ApplyEntry :=
      [⟨1, 1, .insert [7] [1] none⟩, ⟨2, 1, .compareAndSwap [7] (some [1]) [2]⟩,
        ⟨3, 2, .batch [.delete [7], .insert [8] [3]]⟩]
    ∃ sm₁ sm₂ rs₁ rs₂,
      applyChunks freshStateMachine [(Faults.none, log)] = .ok (sm₁, rs₁) ∧
      applyChunks freshStateMachine
        [(Faults.none, log.take 1), (Faults.none, []), (Faults.none, log.drop 1)] =
          .ok (sm₂, rs₂) ∧
      sm₁.kv = sm₂.kv ∧ rs₁ = rs₂ := by
  intro log
  obtain ⟨sm₁, rs₁, h₁⟩ := applyChunks_noFaults freshStateMachine [log] (by decide)
  obtain ⟨sm₂, rs₂, h₂⟩ :=
    applyChunks_noFaults freshStateMachine [log.take 1, [], log.drop 1] (by decide)
  have h := applyChunks_cut_independent (by rfl) h₁ h₂
  exact ⟨sm₁, sm₂, rs₁, rs₂, h₁, h₂, h.1, h.2.2.2.1⟩

end DLmdb
