import DLmdb.StateMachine.Replay

/-!
# Crash recovery by replay

A node applies a log chunk by chunk, now and then persists `last_applied`, and
crashes, between two calls or in the middle of one: the in-memory fields are gone,
`Drop` does not run, committed transactions survive. `LmdbStateMachine::new` then
reads `last_applied` back and the engine delivers what comes after it.

`apply_chunk` commits the contents and leaves `last_applied` to a later
transaction, unlike `restore_blocking`, which writes the two together. So the
store may be ahead of its marker, and recovery is exact only when the entries in
between can be replayed on contents that already include them.
-/

namespace DLmdb

open Framework Lmdb

/-! ## A node, its calls, a crash -/

/-- A state machine, with what its run has committed so far: how many entries of the
log, and the `last_applied` that was persisted last. -/
structure Node where
  sm : LmdbStateMachine
  applied : ℕ
  persisted : LogId

def Node.fresh : Node := ⟨freshStateMachine, 0, ⟨0, 0⟩⟩

/-- `apply` hands the next `len` entries to `apply_chunk`; `persist` calls
`persist_last_applied` with the current `last_applied`. -/
inductive NodeCall where
  | apply (flt : Faults) (len : ℕ)
  | persist (flt : Faults)

namespace Node

variable (log : RaftLog)

def chunk (s : Node) (len : ℕ) : List ApplyEntry := (log.entries.drop s.applied).take len

def effects (s : Node) : NodeCall → List SmEffect
  | .apply flt len => (applyChunk flt s.sm (s.chunk log len)).effects
  | .persist flt => (persistLastApplied flt s.sm s.sm.lastApplied).effects

/-- The node when the call stops after its first `j` effects. -/
def upTo (s : Node) (c : NodeCall) (j : ℕ) : Node where
  sm := ((s.effects log c).take j).foldl LmdbStateMachine.exec s.sm
  applied :=
    match c with
    | .apply _ len =>
        if commits ((s.effects log c).take j) = [] then s.applied
        else s.applied + (s.chunk log len).length
    | .persist _ => s.applied
  persisted :=
    match c with
    | .apply _ _ => s.persisted
    | .persist _ =>
        if commits ((s.effects log c).take j) = [] then s.persisted else s.sm.lastApplied

/-- The node after the whole call. -/
def step (s : Node) (c : NodeCall) : Node := s.upTo log c (s.effects log c).length

def run (s : Node) (cs : List NodeCall) : Node := cs.foldl (step log) s

/-- What the databases of a node hold, whatever is in memory. -/
structure Durable (s : Node) : Prop where
  kv : s.sm.kv.get = log.contents s.applied
  storable : ∀ e ∈ log.entries.take s.applied, e.command.Storable
  marker : recoveredLastApplied s.sm.env = s.persisted
  behind : log.Covers s.applied s.persisted.index

/-- A node between two calls: its databases, and a `last_applied` in memory that
names an applied position. -/
structure Holds (s : Node) : Prop extends Durable log s where
  memory : log.Covers s.applied s.sm.lastAppliedIndex

end Node

/-! ## What one call publishes -/

theorem commits_cacheEffect (chunk : List ApplyEntry) : commits (chunk.map cacheEffect) = [] := by
  induction chunk with
  | nil => rfl
  | cons e chunk ih => exact ih

theorem commits_highestEffects (highest : Option LogId) :
    commits (highestEffects highest) = [] := by
  cases highest <;> rfl

theorem commits_append (es es' : List SmEffect) :
    commits (es ++ es') = commits es ++ commits es' := List.filterMap_append

/-- The commits of a chunk that applies: one. -/
theorem commits_applied (chunk : List ApplyEntry) (env : SmEnv) :
    commits (chunk.map cacheEffect ++ SmEffect.commit env :: highestEffects (highestOf none chunk)) =
      [env] := by
  rw [commits_append, commits_cacheEffect, List.nil_append]
  show env :: commits (highestEffects (highestOf none chunk)) = [env]
  rw [commits_highestEffects]

namespace Node

variable {log : RaftLog}

theorem take_chunk (s : Node) (len : ℕ) :
    log.entries.take (s.applied + (s.chunk log len).length) =
      log.entries.take s.applied ++ s.chunk log len := by
  rw [List.take_add]
  congr 1
  rw [chunk, List.length_take, ← List.take_eq_take_min]

/-- The contents after one more chunk. -/
theorem contents_chunk (s : Node) (len : ℕ) :
    log.contents (s.applied + (s.chunk log len).length) =
      Contents.run (log.contents s.applied) (logWrites (s.chunk log len)) := by
  rw [RaftLog.contents, take_chunk, logWrites_append, Contents.run_append]
  rfl

theorem Durable.of_env {s s' : Node} (h : s.Durable log) (he : s'.sm.env = s.sm.env)
    (ha : s'.applied = s.applied) (hp : s'.persisted = s.persisted) : s'.Durable log where
  kv := by rw [LmdbStateMachine.kv, he, ha, ← h.kv]; rfl
  storable := by rw [ha]; exact h.storable
  marker := by rw [he, hp]; exact h.marker
  behind := by rw [ha, hp]; exact h.behind

/-- A call stopped before it published anything leaves the databases as they were. -/
theorem Durable.upTo_of_not_published {s : Node} {c : NodeCall} {j : ℕ} (h : s.Durable log)
    (hj : commits ((s.effects log c).take j) = []) : (s.upTo log c j).Durable log := by
  apply h.of_env
  · show (((s.effects log c).take j).foldl LmdbStateMachine.exec s.sm).env = s.sm.env
    rw [env_foldl, hj]
    rfl
  · cases c with
    | apply flt len => exact if_pos hj
    | persist flt => rfl
  · cases c with
    | apply flt len => rfl
    | persist flt => exact if_pos hj

theorem Durable.upTo_of_silent {s : Node} {c : NodeCall} (h : s.Durable log)
    (hc : commits (s.effects log c) = []) (j : ℕ) : (s.upTo log c j).Durable log := by
  apply h.upTo_of_not_published
  have hp := commits_take (s.effects log c) j
  rw [hc] at hp
  exact List.prefix_nil.mp hp

/-- A call that publishes `env`, stopped anywhere: nothing is in, or `env` is. -/
theorem upTo_cases {s : Node} {c : NodeCall} {env : SmEnv}
    (hc : commits (s.effects log c) = [env]) (j : ℕ) :
    commits ((s.effects log c).take j) = [] ∨
      commits ((s.effects log c).take j) = [env] ∧ (s.upTo log c j).sm.env = env := by
  rcases commits_take_single hc j with hnone | hall
  · exact Or.inl hnone
  · refine Or.inr ⟨hall, ?_⟩
    show (((s.effects log c).take j).foldl LmdbStateMachine.exec s.sm).env = env
    rw [env_foldl, hall]
    rfl

theorem Holds.upTo_apply {s : Node} (h : s.Holds log) (flt : Faults) (len j : ℕ) :
    (s.upTo log (.apply flt len) j).Durable log := by
  rcases applyChunk_cases flt s.sm (s.chunk log len) with
    ⟨env, hcall, hst, hkv, hother⟩ | ⟨done, rest, err, hsplit, hcall⟩
  · have hone : commits (s.effects log (.apply flt len)) = [env] := by
      rw [effects, hcall, commits_applied]
    rcases upTo_cases hone j with hnone | ⟨hall, henv⟩
    · exact h.toDurable.upTo_of_not_published hnone
    · -- the chunk is in, the marker is where it was
      have happ : (s.upTo log (.apply flt len) j).applied =
          s.applied + (s.chunk log len).length := by
        show (if commits ((s.effects log (.apply flt len)).take j) = [] then s.applied
          else s.applied + (s.chunk log len).length) = _
        rw [hall]
        rfl
      have hmark : recoveredLastApplied env = recoveredLastApplied s.sm.env := by
        rw [recoveredLastApplied, recoveredLastApplied, hother .metaDb (by decide)]
      refine ⟨?_, ?_, ?_, ?_⟩
      · rw [LmdbStateMachine.kv, henv, hkv, happ, contents_chunk, h.kv]
      · rw [happ, take_chunk]
        intro e he
        rcases List.mem_append.mp he with hold | hnew
        · exact h.storable e hold
        · exact hst e hnew
      · rw [henv, hmark]
        exact h.marker
      · rw [happ]
        exact h.behind.mono (Nat.le_add_right _ _)
  · apply h.toDurable.upTo_of_silent
    rw [effects, hcall, commits_cacheEffect]

theorem Holds.upTo_persist {s : Node} (h : s.Holds log) (flt : Faults) (j : ℕ) :
    (s.upTo log (.persist flt) j).Durable log := by
  rcases persistLastApplied_cases flt s.sm s.sm.lastApplied with
    ⟨env, hcall, hframe, hrec⟩ | ⟨err, hcall⟩
  · have hone : commits (s.effects log (.persist flt)) = [env] := by
      rw [effects, hcall]
      rfl
    rcases upTo_cases hone j with hnone | ⟨hall, henv⟩
    · exact h.toDurable.upTo_of_not_published hnone
    · have hper : (s.upTo log (.persist flt) j).persisted = s.sm.lastApplied := by
        show (if commits ((s.effects log (.persist flt)).take j) = [] then s.persisted
          else s.sm.lastApplied) = _
        rw [hall]
        rfl
      refine ⟨?_, h.storable, ?_, ?_⟩
      · rw [LmdbStateMachine.kv, henv, hframe .kvDb (by decide)]
        exact h.kv
      · rw [henv, hrec, hper]
      · rw [hper]
        exact h.memory
  · apply h.toDurable.upTo_of_silent
    rw [effects, hcall]
    rfl

/-- **A call stopped anywhere** leaves databases that hold a prefix of the log, and a
marker inside that prefix. -/
theorem Holds.upTo {s : Node} (h : s.Holds log) (c : NodeCall) (j : ℕ) :
    (s.upTo log c j).Durable log := by
  cases c with
  | apply flt len => exact h.upTo_apply flt len j
  | persist flt => exact h.upTo_persist flt j

/-! ## Whole runs -/

theorem lastLogId_covers {m : ℕ} {l : LogId} (hl : log.Covers m l.index)
    (s : Node) (hm : s.applied = m) (len : ℕ) :
    log.Covers (m + (s.chunk log len).length) (lastLogId l (s.chunk log len)).index := by
  subst hm
  rcases List.eq_nil_or_concat (s.chunk log len) with hnil | ⟨es, e, hes⟩
  · rw [hnil]
    exact hl
  · refine Or.inr ⟨e, ?_, ?_⟩
    · rw [take_chunk, hes]
      simp
    · rw [hes]
      simp [lastLogId, ApplyEntry.logId]

theorem step_sm (s : Node) (c : NodeCall) :
    (s.step log c).sm = (s.effects log c).foldl LmdbStateMachine.exec s.sm := by
  show ((s.effects log c).take (s.effects log c).length).foldl LmdbStateMachine.exec s.sm = _
  rw [List.take_length]

/-- **One call** keeps the node's invariant, whether it returns `Ok` or `Err`. -/
theorem Holds.step {s : Node} (h : s.Holds log) (c : NodeCall) : (s.step log c).Holds log := by
  refine ⟨h.upTo c _, ?_⟩
  rw [step_sm]
  cases c with
  | apply flt len =>
      rcases applyChunk_cases flt s.sm (s.chunk log len) with
        ⟨env, hcall, -⟩ | ⟨done, rest, err, hsplit, hcall⟩
      · have happ : (s.step log (.apply flt len)).applied =
            s.applied + (s.chunk log len).length := by
          show (if commits ((s.effects log (.apply flt len)).take _) = [] then s.applied
            else s.applied + (s.chunk log len).length) = _
          rw [List.take_length, effects, hcall, commits_applied]
          rfl
        have hres : (applyChunk flt s.sm (s.chunk log len)).result =
            .ok (resultsOf s.sm.kv.get (s.chunk log len)) := by rw [hcall]
        have hmem := (applyChunk_applied hres).lastApplied
        have hidx : ((s.effects log (.apply flt len)).foldl LmdbStateMachine.exec s.sm).lastAppliedIndex
            = (lastLogId s.sm.lastApplied (s.chunk log len)).index := congrArg LogId.index hmem
        rw [happ, hidx]
        exact lastLogId_covers h.memory s rfl len
      · have happ : (s.step log (.apply flt len)).applied = s.applied := by
          show (if commits ((s.effects log (.apply flt len)).take _) = [] then s.applied
            else s.applied + (s.chunk log len).length) = _
          rw [List.take_length, effects, hcall, commits_cacheEffect]
          rfl
        rw [happ, effects, hcall, foldl_cacheEffect]
        exact h.memory
  | persist flt =>
      rcases persistLastApplied_cases flt s.sm s.sm.lastApplied with
        ⟨env, hcall, -⟩ | ⟨err, hcall⟩
      · rw [effects, hcall]
        exact h.memory
      · rw [effects, hcall]
        exact h.memory

theorem Holds.run {s : Node} (h : s.Holds log) (cs : List NodeCall) : (s.run log cs).Holds log := by
  induction cs generalizing s with
  | nil => exact h
  | cons c cs ih => exact ih (h.step c)

/-- Applied entries stay applied. -/
theorem applied_le_step (s : Node) (c : NodeCall) : s.applied ≤ (s.step log c).applied := by
  cases c with
  | apply flt len =>
      show s.applied ≤ if commits ((s.effects log (.apply flt len)).take _) = [] then s.applied
        else s.applied + (s.chunk log len).length
      split
      · exact Nat.le_refl _
      · exact Nat.le_add_right _ _
  | persist flt => exact Nat.le_refl _

theorem applied_le_run (s : Node) (cs : List NodeCall) : s.applied ≤ (s.run log cs).applied := by
  induction cs generalizing s with
  | nil => exact Nat.le_refl _
  | cons c cs ih => exact Nat.le_trans (s.applied_le_step c) (ih (s.step log c))

theorem fresh_holds (log : RaftLog) : Node.fresh.Holds log where
  kv := freshStateMachine_kv
  storable := by simp [Node.fresh]
  marker := by simp [Node.fresh, freshStateMachine, emptyEnv, recoveredLastApplied]
  behind := Or.inl rfl
  memory := Or.inl rfl

end Node

/-! ## Recovery -/

/-- Recovery by replay: whatever `new` makes of the directory `c` leaves behind, the
entries after its `last_applied` take it to the contents of the log. -/
def RecoversByReplay (log : RaftLog) (c : Node) : Prop :=
  ∀ flt sm, LmdbStateMachine.new flt c.sm.env = .ok sm →
    CatchesUp log c.applied sm.lastApplied.index sm

theorem Node.Durable.recoversByReplay_iff {log : RaftLog} {c : Node} (h : c.Durable log) :
    RecoversByReplay log c ↔
      Replayable (logWrites (log.again c.applied c.persisted.index)) (log.contents c.applied) := by
  -- `new` gives back the databases and the marker, and nothing else matters
  have hopen : ∀ {flt sm}, LmdbStateMachine.new flt c.sm.env = .ok sm →
      (CatchesUp log c.applied sm.lastApplied.index sm ↔
        Replayable (logWrites (log.again c.applied c.persisted.index))
          (log.contents c.applied)) := by
    intro flt sm hsm
    obtain ⟨henv, hlast, -⟩ := new_ok hsm
    have hkv : sm.kv = c.sm.kv := by rw [LmdbStateMachine.kv, henv]; rfl
    rw [hlast, h.marker, ← h.kv, ← hkv]
    exact catchesUp_iff (hkv ▸ h.kv) h.storable h.behind
  constructor
  · intro hrec
    obtain ⟨sm, hsm⟩ := new_noFaults c.sm.env
    exact (hopen hsm).mp (hrec Faults.none sm hsm)
  · intro hrep flt sm hsm
    exact (hopen hsm).mpr hrep

/-- **Recovery by replay is exact exactly when the entries between the persisted
`last_applied` and the crash can be replayed.** For every log, every run of calls
from an empty directory, and every point of the next call at which the process
stops. -/
theorem crash_recoversByReplay_iff (log : RaftLog) (calls : List NodeCall) (call : NodeCall)
    (j : ℕ) :
    let c := (Node.fresh.run log calls).upTo log call j
    RecoversByReplay log c ↔
      Replayable (logWrites (log.again c.applied c.persisted.index)) (log.contents c.applied) :=
  (((Node.fresh_holds log).run calls).upTo call j).recoversByReplay_iff

/-- Two swaps of one key, of which only the second goes through the first time. -/
def swapLog : RaftLog where
  entries := [⟨1, 1, .compareAndSwap [7] (some [2]) [3]⟩, ⟨2, 1, .compareAndSwap [7] none [2]⟩]
  increasing := by decide
  positive := by decide

/-- The log in one chunk, and a crash before `last_applied` is persisted: the second
delivery swaps the committed value away. -/
theorem crash_loses_swap :
    ¬ RecoversByReplay swapLog (Node.fresh.upTo swapLog (.apply Faults.none 2) 5) := by
  rw [((Node.fresh_holds swapLog).upTo (.apply Faults.none 2) 5).recoversByReplay_iff]
  intro h
  have hkey := h [7]
  revert hkey
  decide

end DLmdb
