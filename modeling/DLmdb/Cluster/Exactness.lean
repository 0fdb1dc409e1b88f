import DLmdb.Cluster.Convergence

/-!
# Exact nodes

The other half of the story: swaps are not replayed harmlessly, so a key that the log does
swap is safe only while no entry comes a second time. That is so as long as every stop
finds the position on disk current, and every snapshot is labelled with the position its
copy was taken at. Then each node is, at every moment, the run of the log up to its
`last_applied`.
-/

namespace DLmdb

open Framework Lmdb

/-! ## The condition -/

/-- The position on disk is the one in memory. -/
def LmdbStateMachine.Settled (sm : LmdbStateMachine) : Prop :=
  (recoveredLastApplied sm.env).index = sm.lastAppliedIndex

instance (sm : LmdbStateMachine) : Decidable sm.Settled :=
  inferInstanceAs (Decidable (_ = _))

/-- The directory `env` is that of a settled state: `sm`, or `sm'`. -/
def SettledAs (env : SmEnv) (sm sm' : LmdbStateMachine) : Prop :=
  env = sm.env ∧ sm.Settled ∨ env = sm'.env ∧ sm'.Settled

/-- Snapshots are labelled with the position of their copy, reads remove nothing, and a
process that ends, cleanly or not, leaves the directory of a settled state. -/
def ClusterEvent.Exact (log : RaftLog) (s : Cluster) : ClusterEvent → Prop
  | .commit _ => True
  | .call i (.generate _ _ l) => l.index = (s.node i).lastAppliedIndex
  | .call _ c => c.RestoreEnds
  | .reap i _ key _ => (s.node i).kv.get key = none
  | .drop i flt => ((s.node i).after (persistLastApplied flt (s.node i)
      (s.node i).lastApplied)).Settled
  | .crash i c j => c.RestoreEnds ∧ ∀ op, s.op log i c = some op →
      SettledAs ((op.call (s.node i)).crashAt LmdbStateMachine.exec (s.node i) j).env (s.node i)
        ((s.node i).after (op.call (s.node i)))

theorem ClusterEvent.Exact.restoreEnds {log : RaftLog} {s : Cluster} {i : ℕ} {c : EngineCall}
    (h : (ClusterEvent.call i c).Exact log s) : c.RestoreEnds := by
  cases c with
  | generate dirErr flt l => trivial
  | apply flt len => exact h
  | persist flt => exact h
  | install task snapFlt flt snapshot => exact h
  | reset flt => exact h

/-! ## A store at a position -/

namespace RaftLog

variable {log : RaftLog} {c : ℕ}

/-- The committed entries up to position `r`. -/
def reached (log : RaftLog) (c : ℕ) (r : UInt64) : List ApplyEntry :=
  (log.entries.take c).filter (fun e => ¬ r < e.index)

theorem reached_eq_upTo {r : UInt64} (hr : log.Covers c r) : log.reached c r = log.upTo r := by
  have hlater : (log.entries.drop c).filter (fun e => e.index ≤ r) = [] := by
    rw [List.filter_eq_nil_iff]
    intro e he hle
    have hlt := hr.lt_drop e he
    exact UInt64.lt_irrefl _ (UInt64.lt_of_lt_of_le hlt (of_decide_eq_true hle))
  rw [upTo, ← List.take_append_drop c log.entries, List.filter_append, hlater, List.append_nil,
    reached]
  simp only [UInt64.not_lt]

theorem reached_zero (log : RaftLog) (c : ℕ) : log.reached c 0 = [] := by
  rw [reached, List.filter_eq_nil_iff]
  intro e he hle
  exact of_decide_eq_true hle (log.positive e (List.mem_of_mem_take he))

theorem reached_after {l : LogId} {chunk rest : List ApplyEntry}
    (h : log.again c l.index = chunk ++ rest) :
    log.reached c (lastLogId l chunk).index = log.reached c l.index ++ chunk := by
  refine List.append_cancel_right (?_ : _ ++ rest = _ ++ rest)
  calc log.reached c (lastLogId l chunk).index ++ rest
    _ = log.entries.take c := by
        rw [← again_after h]
        exact (log.take_split c _).symm
    _ = log.reached c l.index ++ log.again c l.index := log.take_split c l.index
    _ = log.reached c l.index ++ chunk ++ rest := by rw [h, List.append_assoc]

/-- A store that holds the log up to position `r`. -/
structure HeldAt (log : RaftLog) (c : ℕ) (r : UInt64) (σ : Contents Bytes Bytes) : Prop where
  covers : log.Covers c r
  value : σ = Contents.run (fun _ => none) (logWrites (log.reached c r))

namespace HeldAt

variable {r : UInt64} {σ : Contents Bytes Bytes}

theorem start (log : RaftLog) (c : ℕ) : log.HeldAt c 0 (fun _ => none) where
  covers := Or.inl rfl
  value := by rw [reached_zero]; rfl

theorem commit (h : log.HeldAt c r σ) (n : ℕ) : log.HeldAt (c + n) r σ where
  covers := h.covers.mono (Nat.le_add_right c n)
  value := by
    rw [reached_eq_upTo (h.covers.mono (Nat.le_add_right c n)), ← reached_eq_upTo h.covers]
    exact h.value

theorem deliver {l : LogId} {chunk rest : List ApplyEntry} (h : log.HeldAt c l.index σ)
    (hsplit : log.again c l.index = chunk ++ rest) :
    log.HeldAt c (lastLogId l chunk).index (σ.run (logWrites chunk)) where
  covers := h.covers.after hsplit
  value := by rw [reached_after hsplit, logWrites_append, Contents.run_append, ← h.value]

end HeldAt

end RaftLog

/-! ## Nodes and snapshots -/

/-- What a snapshot holds is what its label says. -/
def LabelledExactly (log : RaftLog) (c : ℕ) (p : SnapshotMetadata × SnapshotFile) : Prop :=
  ∃ l db, p.1.lastIncluded = some l ∧ p.2 .kvDb = some db ∧ log.HeldAt c l.index db.get

/-- Node and snapshots hold what their positions say. -/
structure ExactCluster (log : RaftLog) (s : Cluster) : Prop where
  node : ∀ i, log.HeldAt s.committed (s.node i).lastAppliedIndex (s.node i).kv.get
  snapshot : ∀ p ∈ s.snapshots, LabelledExactly log s.committed p

section

variable {log : RaftLog} {c : ℕ} {sm sm' : LmdbStateMachine}

theorem heldAt_moves {chunk rest : List ApplyEntry}
    {snapshots : List (SnapshotMetadata × SnapshotFile)}
    (h : log.HeldAt c sm.lastAppliedIndex sm.kv.get)
    (hsnap : ∀ p ∈ snapshots, LabelledExactly log c p)
    (hdue : log.again c sm.lastAppliedIndex = chunk ++ rest)
    (hmoves : Moves chunk snapshots sm sm') : log.HeldAt c sm'.lastAppliedIndex sm'.kv.get := by
  cases hmoves with
  | same kv lastApplied marker =>
      have hindex : sm'.lastAppliedIndex = sm.lastAppliedIndex := congrArg LogId.index lastApplied
      rw [hindex, kv]
      exact h
  | applied kv lastApplied marker =>
      have hindex : sm'.lastAppliedIndex = (lastLogId sm.lastApplied chunk).index :=
        congrArg LogId.index lastApplied
      rw [hindex, kv]
      exact RaftLog.HeldAt.deliver (l := sm.lastApplied) h hdue
  | persisted kv lastApplied marker =>
      have hindex : sm'.lastAppliedIndex = sm.lastAppliedIndex := congrArg LogId.index lastApplied
      rw [hindex, kv]
      exact h
  | installed p mem kv lastApplied marker =>
      obtain ⟨l, db, hlabel, hfile, hheld⟩ := hsnap p mem
      rw [hlabel, Option.getD_some] at lastApplied
      have hindex : sm'.lastAppliedIndex = l.index := congrArg LogId.index lastApplied
      have hkv : sm'.kv = db := Option.some.inj (kv.symm.trans hfile)
      rw [hindex, hkv]
      exact hheld
  | cleared kv lastApplied marker =>
      have hindex : sm'.lastAppliedIndex = 0 := congrArg LogId.index lastApplied
      have hget : (∅ : Database).get = fun _ => none := by
        funext k
        exact Database.get_empty k
      rw [hindex, kv, hget]
      exact RaftLog.HeldAt.start log c

/-- A settled state comes back as it was. -/
theorem heldAt_reopened (h : log.HeldAt c sm.lastAppliedIndex sm.kv.get) (hs : sm.Settled) :
    log.HeldAt c (reopened sm.env).lastAppliedIndex (reopened sm.env).kv.get := by
  show log.HeldAt c (recoveredLastApplied sm.env).index sm.kv.get
  rw [hs]
  exact h

end

/-! ## The cluster -/

namespace ExactCluster

variable {log : RaftLog} {s : Cluster}

theorem start (log : RaftLog) : ExactCluster log Cluster.start where
  node := by
    intro i
    show log.HeldAt 0 0 freshStateMachine.kv.get
    rw [freshStateMachine_kv]
    exact RaftLog.HeldAt.start log 0
  snapshot := by simp [Cluster.start]

theorem withNode (h : ExactCluster log s) (i : ℕ) {sm : LmdbStateMachine}
    (hsm : log.HeldAt s.committed sm.lastAppliedIndex sm.kv.get) :
    ExactCluster log (s.withNode i sm) where
  node := s.forall_withNode (fun sm => log.HeldAt s.committed sm.lastAppliedIndex sm.kv.get)
    h.node hsm
  snapshot := h.snapshot

theorem after (h : ExactCluster log s) {i : ℕ} {c : EngineCall} {op : SmOp}
    (hop : s.op log i c = some op) (hc : c.RestoreEnds) :
    log.HeldAt s.committed ((s.node i).after (op.call (s.node i))).lastAppliedIndex
      ((s.node i).after (op.call (s.node i))).kv.get := by
  obtain ⟨len, hmoves⟩ := Cluster.call_moves hop hc
  exact heldAt_moves (h.node i) h.snapshot (List.take_append_drop len _).symm hmoves

theorem made (h : ExactCluster log s) {i : ℕ} {c : EngineCall} {op : SmOp}
    (hop : s.op log i c = some op) (hexact : (ClusterEvent.call i c).Exact log s) :
    ∀ p ∈ Cluster.made (s.node i) op, LabelledExactly log s.committed p := by
  intro p hp
  obtain ⟨dirErr, flt, l, rfl, -, -, hlabel, hfile⟩ := Cluster.mem_made hop hp
  refine ⟨l, (s.node i).kv, hlabel, ?_, ?_⟩
  · rw [hfile]
    rfl
  · have hl : l.index = (s.node i).lastAppliedIndex := hexact
    rw [hl]
    exact h.node i

/-- **One event** that meets the condition. -/
theorem step (h : ExactCluster log s) {e : ClusterEvent} (he : e.Exact log s) :
    ExactCluster log (s.step log e) := by
  cases e with
  | commit len =>
      refine ⟨fun i => (h.node i).commit len, ?_⟩
      intro p hp
      obtain ⟨l, db, hlabel, hfile, hheld⟩ := h.snapshot p hp
      exact ⟨l, db, hlabel, hfile, hheld.commit len⟩
  | call i c =>
      cases hop : s.op log i c with
      | none =>
          rw [Cluster.step, hop]
          exact h
      | some op =>
          rw [Cluster.step, hop]
          refine ⟨(h.withNode i (h.after hop he.restoreEnds)).node, ?_⟩
          intro p hp
          rcases List.mem_append.mp hp with hold | hnew
          · exact h.snapshot p hold
          · exact h.made hop he p hnew
  | reap i flt key now =>
      refine h.withNode i ?_
      rcases Cluster.reap_cases (s.node i) flt key with hsame | hgone
      · rw [hsame]
        exact h.node i
      · -- nothing was there to remove
        have hkv : ((s.node i).withoutKey key).kv.get = (s.node i).kv.get := by
          funext k
          rw [withoutKey_kv]
          split
          · rename_i heq
            subst heq
            exact he.symm
          · rfl
        rw [hgone]
        show log.HeldAt s.committed (s.node i).lastAppliedIndex ((s.node i).withoutKey key).kv.get
        rw [hkv]
        exact h.node i
  | drop i flt =>
      refine h.withNode i ?_
      rw [Cluster.drop_env]
      refine heldAt_reopened ?_ he
      exact heldAt_moves (h.node i) h.snapshot (List.take_append_drop 0 _).symm
        (persistLastApplied_moves flt (s.node i) _ s.snapshots)
  | crash i c j =>
      cases hop : s.op log i c with
      | none =>
          rw [Cluster.step, hop]
          exact h
      | some op =>
          rw [Cluster.step, hop]
          refine h.withNode i ?_
          show log.HeldAt s.committed
            (reopened ((op.call (s.node i)).crashAt LmdbStateMachine.exec (s.node i) j).env).lastAppliedIndex
            (reopened ((op.call (s.node i)).crashAt LmdbStateMachine.exec (s.node i) j).env).kv.get
          rcases he.2 op hop with ⟨hold, hsettled⟩ | ⟨hnew, hsettled⟩
          · rw [hold]
            exact heldAt_reopened (h.node i) hsettled
          · rw [hnew]
            exact heldAt_reopened (h.after hop he.1) hsettled

end ExactCluster

/-! ## Positions go forward -/

/-- The call does not take node `i` back: it is no reset, and installs no snapshot whose
label the node is past. -/
def EngineCall.Ahead (s : Cluster) (i : ℕ) : EngineCall → Prop
  | .install _ _ _ n => ∀ p ∈ s.snapshots[n]?, ∀ l ∈ p.1.lastIncluded,
      (s.node i).lastAppliedIndex ≤ l.index
  | .reset _ => False
  | _ => True

/-- Node `j` is not taken back. -/
def ClusterEvent.Ahead (j : ℕ) (s : Cluster) : ClusterEvent → Prop
  | .call i c => i = j → c.Ahead s i
  | .crash i c _ => i = j → c.Ahead s i
  | _ => True

section

variable {log : RaftLog} {s : Cluster}

/-- A call whose memory is the old one, or at a later position. -/
theorem Cluster.op_forward {i : ℕ} {c : EngineCall} {op : SmOp} (hop : s.op log i c = some op)
    (hc : c.RestoreEnds) (hahead : c.Ahead s i) :
    (s.node i).lastAppliedIndex ≤ ((s.node i).after (op.call (s.node i))).lastAppliedIndex := by
  cases c with
  | apply flt len =>
      cases hop
      show _ ≤ ((s.node i).after (applyChunk flt (s.node i) _)).lastAppliedIndex
      cases hr : (applyChunk flt (s.node i) ((s.due log i).take len)).result with
      | ok rs =>
          have hindex := congrArg LogId.index (applyChunk_applied hr).lastApplied
          rw [show LmdbStateMachine.lastAppliedIndex _ = _ from hindex]
          exact RaftLog.le_lastLogId (l := (s.node i).lastApplied)
            (List.take_append_drop len (s.due log i)).symm
      | error e =>
          obtain ⟨terms, hterms⟩ := applyChunk_failed hr
          rw [hterms]
          exact UInt64.le_refl _
  | persist flt =>
      cases hop
      show _ ≤ ((s.node i).after (persistLastApplied flt (s.node i) _)).lastAppliedIndex
      rcases persistLastApplied_cases flt (s.node i) (s.node i).lastApplied with
        ⟨env, h, -, -⟩ | ⟨e, h⟩
      · rw [h]
        exact UInt64.le_refl _
      · rw [h]
        exact UInt64.le_refl _
  | generate dirErr flt l =>
      rw [Cluster.op] at hop
      split at hop
      · cases hop
        show _ ≤ ((s.node i).after
          (generateSnapshotData dirErr flt (s.node i).env l)).lastAppliedIndex
        rcases generateSnapshotData_cases dirErr flt (s.node i).env l with ⟨out, h⟩ | ⟨e, h⟩
        · rw [h]
          exact UInt64.le_refl _
        · rw [h]
          exact UInt64.le_refl _
      · cases hop
  | install task snapFlt flt n =>
      obtain ⟨p, hp, rfl⟩ := Option.map_eq_some_iff.mp hop
      show _ ≤ ((s.node i).after
        (applySnapshotFromFile task snapFlt flt (s.node i) p.1 p.2)).lastAppliedIndex
      cases hr : (applySnapshotFromFile task snapFlt flt (s.node i) p.1 p.2).result with
      | ok u =>
          obtain ⟨db, -, hinst⟩ := applySnapshotFromFile_installed hr
          have hindex := congrArg LogId.index hinst.lastApplied
          rw [show LmdbStateMachine.lastAppliedIndex _ = _ from hindex]
          cases hl : p.1.lastIncluded with
          | none => exact UInt64.le_refl _
          | some l => exact hahead p hp l hl
      | error e =>
          obtain ⟨b, hb⟩ := applySnapshotFromFile_fails (by rintro text j rfl; exact hc) hr
          rw [hb]
          exact UInt64.le_refl _
  | reset flt => exact hahead.elim

/-- Only the node that is replaced moves. -/
theorem Cluster.withNode_forward {i j : ℕ} {sm : LmdbStateMachine}
    (h : i = j → (s.node i).lastAppliedIndex ≤ sm.lastAppliedIndex) :
    (s.node j).lastAppliedIndex ≤ ((s.withNode i sm).node j).lastAppliedIndex := by
  show _ ≤ (Function.update s.node i sm j).lastAppliedIndex
  by_cases hij : i = j
  · subst hij
    rw [Function.update_self]
    exact h rfl
  · rw [Function.update_of_ne (Ne.symm hij)]
    exact UInt64.le_refl _

/-- A settled state comes back at its position. -/
theorem LmdbStateMachine.Settled.reopened_index {sm : LmdbStateMachine} (h : sm.Settled) :
    (reopened sm.env).lastAppliedIndex = sm.lastAppliedIndex := h

/-- **One event** takes no node back, if it meets the conditions. -/
theorem ClusterEvent.Exact.forward {e : ClusterEvent} (he : e.Exact log s) {j : ℕ}
    (hahead : e.Ahead j s) :
    (s.node j).lastAppliedIndex ≤ ((s.step log e).node j).lastAppliedIndex := by
  cases e with
  | commit len => exact UInt64.le_refl _
  | call i c =>
      cases hop : s.op log i c with
      | none =>
          rw [Cluster.step, hop]
          exact UInt64.le_refl _
      | some op =>
          rw [Cluster.step, hop]
          refine Cluster.withNode_forward ?_
          intro hij
          exact Cluster.op_forward hop he.restoreEnds (hahead hij)
  | reap i flt key now =>
      refine Cluster.withNode_forward ?_
      intro hij
      rcases Cluster.reap_cases (s.node i) flt key with hsame | hgone
      · rw [hsame]
        exact UInt64.le_refl _
      · rw [hgone]
        exact UInt64.le_refl _
  | drop i flt =>
      refine Cluster.withNode_forward ?_
      intro hij
      have hsettled : ((s.node i).after (persistLastApplied flt (s.node i)
        (s.node i).lastApplied)).Settled := he
      have hop : s.op log i (.persist flt) =
        some (.persistLastApplied flt (s.node i).lastApplied) := rfl
      rw [Cluster.drop_env, hsettled.reopened_index]
      exact Cluster.op_forward hop trivial trivial
  | crash i c n =>
      cases hop : s.op log i c with
      | none =>
          rw [Cluster.step, hop]
          exact UInt64.le_refl _
      | some op =>
          rw [Cluster.step, hop]
          refine Cluster.withNode_forward ?_
          intro hij
          show _ ≤ (reopened
            ((op.call (s.node i)).crashAt LmdbStateMachine.exec (s.node i) n).env).lastAppliedIndex
          rcases he.2 op hop with ⟨hold, hsettled⟩ | ⟨hnew, hsettled⟩
          · rw [hold, hsettled.reopened_index]
            exact UInt64.le_refl _
          · rw [hnew, hsettled.reopened_index]
            exact Cluster.op_forward hop he.1 (hahead hij)

/-- **A run** takes a node back only by a reset or an older snapshot. -/
theorem Cluster.run_forward {es : List ClusterEvent} {j : ℕ}
    (hes : Along (Cluster.step log) (fun s e => e.Exact log s) s es)
    (hahead : Along (Cluster.step log) (fun s e => e.Ahead j s) s es) :
    (s.node j).lastAppliedIndex ≤
      ((runFrom (Cluster.step log) s es).node j).lastAppliedIndex := by
  refine runFrom_invariant (I := fun s' : Cluster =>
    (s.node j).lastAppliedIndex ≤ (s'.node j).lastAppliedIndex) ?_ (UInt64.le_refl _)
    (hes.and hahead)
  rintro s' e hle ⟨he, hj⟩
  exact UInt64.le_trans hle (he.forward hj)

end

/-! ## Every run -/

/-- **Nodes are exact** in every run whose stops find the position on disk current, whose
snapshots bear the position of their copy and whose reads remove nothing: the store of each
node is one application of the log up to its `last_applied`, swaps included. Two nodes at
one position hold the same. -/
theorem cluster_exact (log : RaftLog) {es : List ClusterEvent}
    (hes : Along (Cluster.step log) (fun s e => e.Exact log s) Cluster.start es) :
    let s := runFrom (Cluster.step log) Cluster.start es
    (∀ i, (s.node i).kv.get = Contents.run (fun _ => none)
      (logWrites (log.upTo (s.node i).lastAppliedIndex))) ∧
    ∀ i j, (s.node i).lastAppliedIndex = (s.node j).lastAppliedIndex →
      (s.node i).kv = (s.node j).kv := by
  intro s
  have hs : ExactCluster log s :=
    runFrom_invariant (fun _ _ h he => h.step he) (ExactCluster.start log) hes
  have hvalue : ∀ i, (s.node i).kv.get = Contents.run (fun _ => none)
      (logWrites (log.upTo (s.node i).lastAppliedIndex)) := by
    intro i
    rw [← RaftLog.reached_eq_upTo (hs.node i).covers]
    exact (hs.node i).value
  refine ⟨hvalue, ?_⟩
  intro i j hij
  apply Database.ext_get
  intro k
  rw [hvalue i, hvalue j, hij]

/-- Two swaps, one chunk, a snapshot at its position, and a crash of the node that installed
it: no swap comes again. -/
theorem cluster_exact_swaps :
    let es : List ClusterEvent :=
      [.commit 2, .call 0 (.apply Faults.none 2), .call 0 (.generate none Faults.none ⟨2, 1⟩),
        .call 1 (.install .returned Faults.none Faults.none 0),
        .crash 1 (.persist Faults.none) 0, .drop 0 Faults.none]
    let s := runFrom (Cluster.step swapLog) Cluster.start es
    (s.node 0).kv = (s.node 1).kv ∧ (s.node 1).kv.get [7] = some [2] := by
  intro es s
  have hexact := @cluster_exact swapLog es (by
    refine ⟨trivial, trivial, ?_, trivial, ⟨trivial, ?_⟩, ?_, trivial⟩
    · show (2 : UInt64) = _
      decide
    · rintro op ⟨⟩
      exact Or.inl ⟨rfl, by decide⟩
    · show LmdbStateMachine.Settled _
      decide)
  refine ⟨hexact.2 0 1 (by decide), ?_⟩
  rw [hexact.1 1]
  decide

end DLmdb
