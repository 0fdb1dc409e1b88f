import DLmdb.Db.Reads
import DLmdb.StateMachine.Durability

/-!
# A cluster of nodes

Any number of nodes take one committed log, each in its own chunks. They persist
`last_applied` when they like, take snapshots and install each other's, and are stopped,
cleanly or in the middle of a call, and opened again. Beside all this clients read, and
reads remove what they find expired. The engine decides when things happen; fixed is
what it hands over: the entries that follow `last_applied`, a position the node has
applied as the label of a snapshot, and a snapshot with the metadata it was made with.
-/

namespace DLmdb

open Framework Lmdb

/-! ## The machine -/

structure Cluster where
  committed : ℕ
  node : ℕ → LmdbStateMachine
  snapshots : List (SnapshotMetadata × SnapshotFile)

/-- What the engine calls on a node. -/
inductive EngineCall where
  | apply (flt : Faults) (len : ℕ)
  | persist (flt : Faults)
  | generate (dirErr : Option String) (flt : Faults) (lastIncluded : LogId)
  | install (task : TaskEnd) (snapFlt flt : Faults) (snapshot : ℕ)
  | reset (flt : Faults)

/-- A read that found its bytes expired is seen when it removes its key. -/
inductive ClusterEvent where
  | commit (len : ℕ)
  | call (i : ℕ) (c : EngineCall)
  | reap (i : ℕ) (flt : Faults) (key : Bytes) (now : UInt64)
  | drop (i : ℕ) (flt : Faults)
  | crash (i : ℕ) (c : EngineCall) (j : ℕ)

/-- A restore task that dies has not committed. -/
def EngineCall.RestoreEnds : EngineCall → Prop
  | .install (.died _ j) _ _ _ => j = 0
  | _ => True

/-- Restore tasks that die have not committed, and a read that removes its key does not
find a live value there. -/
def ClusterEvent.Orderly (s : Cluster) : ClusterEvent → Prop
  | .commit _ => True
  | .call _ c => c.RestoreEnds
  | .reap i _ key now => ∀ v ∈ (s.node i).kv.get key, ExpiredAt v now
  | .drop _ _ => True
  | .crash _ c _ => c.RestoreEnds

instance (log : RaftLog) (m : ℕ) (r : UInt64) : Decidable (log.Covers m r) :=
  inferInstanceAs (Decidable (r = 0 ∨ ∃ e ∈ log.entries.take m, e.index = r))

namespace Cluster

def start : Cluster := ⟨0, fun _ => freshStateMachine, []⟩

variable (log : RaftLog)

/-- The committed entries that follow what node `i` has applied. -/
def due (s : Cluster) (i : ℕ) : List ApplyEntry :=
  log.again s.committed (s.node i).lastAppliedIndex

/-- The call on the state machine of node `i`, if the engine can make it. -/
def op (s : Cluster) (i : ℕ) : EngineCall → Option SmOp
  | .apply flt len => some (.applyChunk flt ((s.due log i).take len))
  | .persist flt => some (.persistLastApplied flt (s.node i).lastApplied)
  | .generate dirErr flt l =>
      if log.Covers s.committed l.index ∧ l.index ≤ (s.node i).lastAppliedIndex then
        some (.generateSnapshotData dirErr flt l)
      else none
  | .install task snapFlt flt snapshot =>
      s.snapshots[snapshot]?.map fun p => .applySnapshotFromFile task snapFlt flt p.1 p.2
  | .reset flt => some (.reset flt)

/-- The snapshot that a call leaves for others. -/
def made (sm : LmdbStateMachine) : SmOp → List (SnapshotMetadata × SnapshotFile)
  | .generateSnapshotData dirErr flt l =>
      match (generateSnapshotData dirErr flt sm.env l).result with
      | .ok (checksum, file) => [(⟨some l, checksum⟩, file)]
      | .error _ => []
  | _ => []

/-- Node `i` replaced. -/
def withNode (s : Cluster) (i : ℕ) (sm : LmdbStateMachine) : Cluster :=
  { s with node := Function.update s.node i sm }

def step (s : Cluster) : ClusterEvent → Cluster
  | .commit len => { s with committed := s.committed + len }
  | .call i c =>
      match s.op log i c with
      | some op =>
          { s.withNode i ((s.node i).after (op.call (s.node i))) with
            snapshots := s.snapshots ++ made (s.node i) op }
      | none => s
  | .reap i flt key _ => s.withNode i ((s.node i).after ((s.node i).deleteLocal flt key))
  | .drop i flt => s.withNode i (reopened ((Stop.drop flt).leaves (s.node i)))
  | .crash i c j =>
      match s.op log i c with
      | some op => s.withNode i (reopened ((Stop.crash op j).leaves (s.node i)))
      | none => s

end Cluster

/-! ## What a call does -/

/-- What a call of the engine makes of the store, `last_applied` and its marker on disk. -/
inductive Moves (chunk : List ApplyEntry) (snapshots : List (SnapshotMetadata × SnapshotFile))
    (sm sm' : LmdbStateMachine) : Prop
  | same (kv : sm'.kv = sm.kv) (lastApplied : sm'.lastApplied = sm.lastApplied)
      (marker : recoveredLastApplied sm'.env = recoveredLastApplied sm.env)
  | applied (kv : sm'.kv.get = Contents.run sm.kv.get (logWrites chunk))
      (lastApplied : sm'.lastApplied = lastLogId sm.lastApplied chunk)
      (marker : recoveredLastApplied sm'.env = recoveredLastApplied sm.env)
  | persisted (kv : sm'.kv = sm.kv) (lastApplied : sm'.lastApplied = sm.lastApplied)
      (marker : recoveredLastApplied sm'.env = sm.lastApplied)
  | installed (p : SnapshotMetadata × SnapshotFile) (mem : p ∈ snapshots) (kv : p.2 .kvDb = some sm'.kv)
      (lastApplied : sm'.lastApplied = p.1.lastIncluded.getD sm.lastApplied)
      (marker : recoveredLastApplied sm'.env =
        p.1.lastIncluded.getD (recoveredLastApplied sm.env))
  | cleared (kv : sm'.kv = ∅) (lastApplied : sm'.lastApplied = ⟨0, 0⟩)
      (marker : recoveredLastApplied sm'.env = ⟨0, 0⟩)

theorem applyChunk_moves (flt : Faults) (sm : LmdbStateMachine) (chunk : List ApplyEntry)
    (snapshots : List (SnapshotMetadata × SnapshotFile)) :
    Moves chunk snapshots sm (sm.after (applyChunk flt sm chunk)) := by
  cases hr : (applyChunk flt sm chunk).result with
  | ok rs =>
      have happ := applyChunk_applied hr
      refine .applied happ.kv happ.lastApplied ?_
      rw [recoveredLastApplied, recoveredLastApplied, happ.other .metaDb (by decide)]
  | error e =>
      obtain ⟨terms, hterms⟩ := applyChunk_failed hr
      rw [hterms]
      exact .same rfl rfl rfl

theorem persistLastApplied_moves (flt : Faults) (sm : LmdbStateMachine)
    (chunk : List ApplyEntry) (snapshots : List (SnapshotMetadata × SnapshotFile)) :
    Moves chunk snapshots sm (sm.after (persistLastApplied flt sm sm.lastApplied)) := by
  rcases persistLastApplied_cases flt sm sm.lastApplied with ⟨env, h, hframe, hmark⟩ | ⟨e, h⟩
  · rw [h]
    exact .persisted (hframe .kvDb (by decide)) rfl hmark
  · rw [h]
    exact .same rfl rfl rfl

theorem generateSnapshotData_moves (dirErr : Option String) (flt : Faults)
    (sm : LmdbStateMachine) (l : LogId) (chunk : List ApplyEntry)
    (snapshots : List (SnapshotMetadata × SnapshotFile)) :
    Moves chunk snapshots sm (sm.after (generateSnapshotData dirErr flt sm.env l)) := by
  rcases generateSnapshotData_cases dirErr flt sm.env l with ⟨out, h⟩ | ⟨e, h⟩
  · rw [h]
    exact .same rfl rfl rfl
  · rw [h]
    exact .same rfl rfl rfl

theorem resetStateMachine_moves (flt : Faults) (sm : LmdbStateMachine)
    (chunk : List ApplyEntry) (snapshots : List (SnapshotMetadata × SnapshotFile)) :
    Moves chunk snapshots sm (sm.after (resetStateMachine flt sm)) := by
  rcases resetStateMachine_cases flt sm with ⟨env, h, hempty⟩ | ⟨e, h⟩
  · rw [h]
    refine .cleared (hempty .kvDb) rfl ?_
    show recoveredLastApplied env = _
    simp [recoveredLastApplied, hempty]
  · rw [h]
    exact .same rfl rfl rfl

/-- An install that returns `Err`, unless its restore task died later, has only stopped and
started serving. -/
theorem applySnapshotFromFile_fails {task : TaskEnd} (htask : ∀ text j, task = .died text j → j = 0)
    {snapFlt flt : Faults} {sm : LmdbStateMachine} {metadata : SnapshotMetadata}
    {file : SnapshotFile} {e : EngineError}
    (hr : (applySnapshotFromFile task snapFlt flt sm metadata file).result = .error e) :
    ∃ b, sm.after (applySnapshotFromFile task snapFlt flt sm metadata file) =
      { sm with running := b } := by
  cases task with
  | returned =>
      rcases applySnapshotFromFile_error hr with ⟨-, heff⟩ | ⟨hne, -⟩
      · refine ⟨true, ?_⟩
        show List.foldl _ sm _ = _
        rw [heff]
        rfl
      · exact absurd rfl hne
  | died text j =>
      -- stopped before the commit: all that happened is that serving stopped
      obtain rfl := htask text j rfl
      exact ⟨false, rfl⟩

theorem applySnapshotFromFile_moves {task : TaskEnd} (htask : ∀ text j, task = .died text j → j = 0)
    (snapFlt flt : Faults) (sm : LmdbStateMachine) (chunk : List ApplyEntry)
    {snapshots : List (SnapshotMetadata × SnapshotFile)} {p : SnapshotMetadata × SnapshotFile}
    (hp : p ∈ snapshots) :
    Moves chunk snapshots sm (sm.after (applySnapshotFromFile task snapFlt flt sm p.1 p.2)) := by
  cases hr : (applySnapshotFromFile task snapFlt flt sm p.1 p.2).result with
  | ok u =>
      obtain ⟨db, hfile, hinst⟩ := applySnapshotFromFile_installed hr
      refine .installed p hp ?_ hinst.lastApplied hinst.marker
      rw [hfile]
      exact congrArg some hinst.kv.symm
  | error e =>
      obtain ⟨b, hb⟩ := applySnapshotFromFile_fails htask hr
      rw [hb]
      exact .same rfl rfl rfl

namespace Cluster

/-- What holds of every node still does when one is replaced by another that has it. -/
theorem forall_withNode (s : Cluster) {i : ℕ} (P : LmdbStateMachine → Prop)
    (h : ∀ i', P (s.node i')) {sm : LmdbStateMachine} (hsm : P sm) :
    ∀ i', P ((s.withNode i sm).node i') := by
  intro i'
  show P (Function.update s.node i sm i')
  by_cases hi : i' = i
  · subst hi
    rw [Function.update_self]
    exact hsm
  · rw [Function.update_of_ne hi]
    exact h i'

variable {log : RaftLog}

/-- **Every call of the engine**, whether it returns `Ok` or `Err`. -/
theorem call_moves {s : Cluster} {i : ℕ} {c : EngineCall} {op : SmOp}
    (hop : s.op log i c = some op) (hc : c.RestoreEnds) :
    ∃ len, Moves ((s.due log i).take len) s.snapshots (s.node i)
      ((s.node i).after (op.call (s.node i))) := by
  cases c with
  | apply flt len =>
      cases hop
      exact ⟨len, applyChunk_moves flt (s.node i) _ s.snapshots⟩
  | persist flt =>
      cases hop
      exact ⟨0, persistLastApplied_moves flt (s.node i) _ s.snapshots⟩
  | generate dirErr flt l =>
      rw [Cluster.op] at hop
      split at hop
      · cases hop
        exact ⟨0, generateSnapshotData_moves dirErr flt (s.node i) l _ s.snapshots⟩
      · cases hop
  | install task snapFlt flt n =>
      obtain ⟨p, hp, rfl⟩ := Option.map_eq_some_iff.mp hop
      refine ⟨0, applySnapshotFromFile_moves ?_ snapFlt flt (s.node i) _
        (List.mem_of_getElem? hp)⟩
      rintro text j rfl
      exact hc
  | reset flt =>
      cases hop
      exact ⟨0, resetStateMachine_moves flt (s.node i) _ s.snapshots⟩

/-- A new snapshot is the node's environment, under a label the node has applied. -/
theorem mem_made {s : Cluster} {i : ℕ} {c : EngineCall} {op : SmOp}
    (hop : s.op log i c = some op) {p : SnapshotMetadata × SnapshotFile}
    (hp : p ∈ made (s.node i) op) :
    ∃ dirErr flt l, c = .generate dirErr flt l ∧ log.Covers s.committed l.index ∧
      l.index ≤ (s.node i).lastAppliedIndex ∧ p.1.lastIncluded = some l ∧
      p.2 = fun d => some ((s.node i).env d) := by
  cases c with
  | generate dirErr flt l =>
      rw [Cluster.op] at hop
      split at hop
      · rename_i hl
        cases hop
        rw [made] at hp
        split at hp
        · rename_i checksum file hgen
          rw [List.mem_singleton.mp hp]
          exact ⟨dirErr, flt, l, rfl, hl.1, hl.2, rfl, generateSnapshotData_ok hgen⟩
        · cases hp
      · cases hop
  | install task snapFlt flt n =>
      obtain ⟨q, -, rfl⟩ := Option.map_eq_some_iff.mp hop
      cases hp
  | apply flt len =>
      cases hop
      cases hp
  | persist flt =>
      cases hop
      cases hp
  | reset flt =>
      cases hop
      cases hp

/-- A read takes its key away, or fails to. -/
theorem reap_cases (sm : LmdbStateMachine) (flt : Faults) (key : Bytes) :
    sm.after (sm.deleteLocal flt key) = sm ∨
      sm.after (sm.deleteLocal flt key) = sm.withoutKey key := by
  rcases deleteLocal_cases flt sm key with ⟨env, -, hafter⟩ | ⟨e, hcall⟩
  · exact Or.inr hafter
  · rw [hcall]
    exact Or.inl rfl

theorem withoutKey_marker (sm : LmdbStateMachine) (key : Bytes) :
    recoveredLastApplied (sm.withoutKey key).env = recoveredLastApplied sm.env := by
  have hne : SmDb.metaDb ≠ SmDb.kvDb := by decide
  have hmeta : (sm.withoutKey key).env .metaDb = sm.env .metaDb := by
    show Function.update sm.env SmDb.kvDb (sm.kv.erase key) SmDb.metaDb = _
    rw [Function.update_of_ne hne]
  rw [recoveredLastApplied, recoveredLastApplied, hmeta]

/-- A clean drop persists, or tries to. -/
theorem drop_env (sm : LmdbStateMachine) (flt : Faults) :
    (Stop.drop flt).leaves sm = (sm.after (persistLastApplied flt sm sm.lastApplied)).env := by
  show ((dropStateMachine flt sm).effects.foldl LmdbStateMachine.exec sm).env = _
  rw [dropStateMachine, Call.bind_of_ok (by rfl)]
  simp [LmdbStateMachine.after, Call.after, Call.attempt]

end Cluster

end DLmdb
