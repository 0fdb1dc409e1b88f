import DLmdb.Cluster.Nodes
import DLmdb.Framework.Swaps

/-!
# Where a stored value comes from

Entries come twice, snapshots are older than their copies, stores lose keys to reads and go
back in time at a restart. One thing none of it does is to make a value up: whatever a node
holds under a key, at any moment, some committed entry wrote there.
-/

namespace DLmdb

open Framework Lmdb

/-- A committed entry writes `v` under `k`. -/
def RaftLog.Wrote (log : RaftLog) (c : ℕ) (k v : Bytes) : Prop :=
  ∃ w ∈ onKey k (logWrites (log.entries.take c)), w.written = some v

theorem RaftLog.Wrote.mono {log : RaftLog} {c c' : ℕ} {k v : Bytes} (h : log.Wrote c k v)
    (hc : c ≤ c') : log.Wrote c' k v := by
  obtain ⟨w, hw, hwritten⟩ := h
  obtain ⟨hmem, hkey⟩ := List.mem_filter.mp hw
  obtain ⟨e, he, hw⟩ := List.mem_flatMap.mp hmem
  refine ⟨w, List.mem_filter.mpr ⟨List.mem_flatMap.mpr ⟨e, ?_, hw⟩, hkey⟩, hwritten⟩
  exact (List.take_subset_take_left log.entries hc) he

/-- All that the store holds was written by committed entries. -/
def Sourced (log : RaftLog) (c : ℕ) (σ : Contents Bytes Bytes) : Prop :=
  ∀ k, ∀ v ∈ σ k, log.Wrote c k v

namespace Sourced

variable {log : RaftLog} {c : ℕ} {σ : Contents Bytes Bytes}

theorem mono (h : Sourced log c σ) {c' : ℕ} (hc : c ≤ c') : Sourced log c' σ :=
  fun k v hv => (h k v hv).mono hc

theorem run (h : Sourced log c σ) {chunk : List ApplyEntry}
    (hchunk : ∀ e ∈ chunk, e ∈ log.entries.take c) : Sourced log c (σ.run (logWrites chunk)) := by
  intro k
  rw [run_apply]
  refine chain_mem (h k) ?_
  intro w hw v hv
  obtain ⟨hmem, hkey⟩ := List.mem_filter.mp hw
  obtain ⟨e, he, hw⟩ := List.mem_flatMap.mp hmem
  exact ⟨w, List.mem_filter.mpr ⟨List.mem_flatMap.mpr ⟨e, hchunk e he, hw⟩, hkey⟩, hv⟩

/-- A call of the engine. -/
theorem moves {sm sm' : LmdbStateMachine} {chunk : List ApplyEntry}
    {snapshots : List (SnapshotMetadata × SnapshotFile)} (h : Sourced log c sm.kv.get)
    (hsnap : ∀ p ∈ snapshots, ∀ db, p.2 .kvDb = some db → Sourced log c db.get)
    (hchunk : ∀ e ∈ chunk, e ∈ log.entries.take c) (hmoves : Moves chunk snapshots sm sm') :
    Sourced log c sm'.kv.get := by
  cases hmoves with
  | same kv lastApplied marker =>
      rw [kv]
      exact h
  | applied kv lastApplied marker =>
      rw [kv]
      exact h.run hchunk
  | persisted kv lastApplied marker =>
      rw [kv]
      exact h
  | installed p mem kv lastApplied marker => exact hsnap p mem _ kv
  | cleared kv lastApplied marker =>
      rw [kv]
      intro k v hv
      rw [Database.get_empty] at hv
      cases hv

theorem withoutKey {sm : LmdbStateMachine} (h : Sourced log c sm.kv.get) (key : Bytes) :
    Sourced log c (sm.withoutKey key).kv.get := by
  intro k v hv
  rw [withoutKey_kv] at hv
  split at hv
  · cases hv
  · exact h k v hv

end Sourced

/-- Node and snapshots hold nothing else. -/
structure SourcedCluster (log : RaftLog) (s : Cluster) : Prop where
  node : ∀ i, Sourced log s.committed (s.node i).kv.get
  snapshot : ∀ p ∈ s.snapshots, ∀ db, p.2 .kvDb = some db → Sourced log s.committed db.get

namespace SourcedCluster

variable {log : RaftLog} {s : Cluster}

theorem start (log : RaftLog) : SourcedCluster log Cluster.start where
  node := by
    intro i k v hv
    have hnone : (Cluster.start.node i).kv.get k = none := by
      show freshStateMachine.kv.get k = none
      rw [freshStateMachine_kv]
    rw [hnone] at hv
    cases hv
  snapshot := by simp [Cluster.start]

theorem withNode (h : SourcedCluster log s) (i : ℕ) {sm : LmdbStateMachine}
    (hsm : Sourced log s.committed sm.kv.get) : SourcedCluster log (s.withNode i sm) where
  node := s.forall_withNode (fun sm => Sourced log s.committed sm.kv.get) h.node hsm
  snapshot := h.snapshot

theorem after (h : SourcedCluster log s) {i : ℕ} {c : EngineCall} {op : SmOp}
    (hop : s.op log i c = some op) (hc : c.RestoreEnds) :
    Sourced log s.committed ((s.node i).after (op.call (s.node i))).kv.get := by
  obtain ⟨len, hmoves⟩ := Cluster.call_moves hop hc
  refine (h.node i).moves h.snapshot ?_ hmoves
  intro e he
  exact (List.mem_filter.mp (List.mem_of_mem_take he)).1

/-- **One event**, however orderly the reads are. -/
theorem step (h : SourcedCluster log s) {e : ClusterEvent} (he : e.Orderly s) :
    SourcedCluster log (s.step log e) := by
  cases e with
  | commit len =>
      have hle := Nat.le_add_right s.committed len
      exact ⟨fun i => (h.node i).mono hle, fun p hp db hdb => (h.snapshot p hp db hdb).mono hle⟩
  | call i c =>
      cases hop : s.op log i c with
      | none =>
          rw [Cluster.step, hop]
          exact h
      | some op =>
          rw [Cluster.step, hop]
          refine ⟨(h.withNode i (h.after hop he)).node, ?_⟩
          intro p hp db hdb
          rcases List.mem_append.mp hp with hold | hnew
          · exact h.snapshot p hold db hdb
          · -- a snapshot is a copy of its node
            obtain ⟨-, -, -, -, -, -, -, hfile⟩ := Cluster.mem_made hop hnew
            rw [hfile] at hdb
            cases hdb
            exact h.node i
  | reap i flt key now =>
      refine h.withNode i ?_
      rcases Cluster.reap_cases (s.node i) flt key with hsame | hgone
      · rw [hsame]
        exact h.node i
      · rw [hgone]
        exact (h.node i).withoutKey key
  | drop i flt =>
      refine h.withNode i ?_
      rw [Cluster.drop_env]
      have hsaved : Sourced log s.committed
          ((s.node i).after (persistLastApplied flt (s.node i) (s.node i).lastApplied)).kv.get :=
        (h.node i).moves h.snapshot (List.forall_mem_nil _)
          (persistLastApplied_moves flt (s.node i) [] s.snapshots)
      exact hsaved
  | crash i c j =>
      cases hop : s.op log i c with
      | none =>
          rw [Cluster.step, hop]
          exact h
      | some op =>
          rw [Cluster.step, hop]
          refine h.withNode i ?_
          show Sourced log s.committed
            (reopened ((op.call (s.node i)).crashAt LmdbStateMachine.exec (s.node i) j).env).kv.get
          rcases op.crash_env (s.node i) j with hold | hnew
          · rw [hold]
            exact h.node i
          · rw [hnew]
            exact h.after hop he

/-- **No run makes a value up.** -/
theorem run {es : List ClusterEvent}
    (hes : Along (Cluster.step log) (fun s e => e.Orderly s) Cluster.start es) :
    SourcedCluster log (runFrom (Cluster.step log) Cluster.start es) :=
  runFrom_invariant (fun _ _ h he => h.step he) (start log) hes

end SourcedCluster

end DLmdb
