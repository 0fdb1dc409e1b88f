import DLmdb.StateMachine.Snapshot

/-!
# What a failed call leaves behind

`apply_snapshot_from_file` stops serving first and restores in a task of its own: when
the task itself dies, its join error leaves the function before serving is resumed.
`apply_chunk` undoes its transaction when it fails, but not the terms it cached for the
entries before the failure. Which entries those are is said here by counting storage
operations, without the loop.
-/

namespace DLmdb

open Framework Lmdb

/-! ## A failed install -/

/-- The data of the node, on disk and in memory. -/
structure DataUnchanged (sm sm' : LmdbStateMachine) : Prop where
  kv : sm'.kv = sm.kv
  persisted : recoveredLastApplied sm'.env = recoveredLastApplied sm.env
  lastApplied : sm'.lastApplied = sm.lastApplied
  snapshotMeta : sm'.snapshotMeta = sm.snapshotMeta
  entryTerms : sm'.entryTerms = sm.entryTerms

/-- The node is as it was, and serves. -/
structure ServesUnchanged (sm sm' : LmdbStateMachine) : Prop extends DataUnchanged sm sm' where
  running : sm'.running = true

/-- The call returned an error, and published nothing. -/
def FailedBeforeCommit {α : Type} (c : SmCall α) : Prop :=
  (∃ e, c.result = .error e) ∧ commits c.effects = []

/-- **The effects of a failed install**: serving stops, and resumes if the task came to
its end; a task that died may have committed. -/
theorem applySnapshotFromFile_error {task : TaskEnd} {snapFlt flt : Faults}
    {sm : LmdbStateMachine} {metadata : SnapshotMetadata} {file : SnapshotFile} {e : EngineError}
    (h : (applySnapshotFromFile task snapFlt flt sm metadata file).result = .error e) :
    (task = .returned ∧ (applySnapshotFromFile task snapFlt flt sm metadata file).effects =
        [.storeRunning false, .storeRunning true]) ∨
      task ≠ .returned ∧
        ((applySnapshotFromFile task snapFlt flt sm metadata file).effects =
            [.storeRunning false] ∨
          ∃ env, (applySnapshotFromFile task snapFlt flt sm metadata file).effects =
            [.storeRunning false, .commit env]) := by
  rcases restoreBlocking_cases snapFlt flt sm.env metadata file with
    ⟨db, env', -, hcall, -⟩ | ⟨e', hcall⟩
  · cases task with
    | returned =>
        -- the restore went through: the call returns `Ok`
        rw [applySnapshotFromFile, hcall] at h
        cases hlast : metadata.lastIncluded with
        | some l =>
            rw [hlast] at h
            cases h
        | none =>
            rw [hlast] at h
            cases h
    | died text j =>
        have heff : (applySnapshotFromFile (.died text j) snapFlt flt sm metadata file).effects =
            .storeRunning false :: [SmEffect.commit env'].take j := by
          rw [applySnapshotFromFile, hcall]
          rfl
        refine Or.inr ⟨by simp, ?_⟩
        rw [heff]
        cases j with
        | zero => exact Or.inl rfl
        | succ j =>
            refine Or.inr ⟨env', ?_⟩
            rw [List.take_succ_cons, List.take_nil]
  · cases task with
    | returned =>
        refine Or.inl ⟨rfl, ?_⟩
        rw [applySnapshotFromFile, hcall]
        rfl
    | died text j =>
        refine Or.inr ⟨by simp, Or.inl ?_⟩
        rw [applySnapshotFromFile, hcall]
        show SmEffect.storeRunning false :: ([] : List SmEffect).take j = _
        rw [List.take_nil]

theorem applySnapshotFromFile_failed {task : TaskEnd} {snapFlt flt : Faults}
    {sm : LmdbStateMachine} {metadata : SnapshotMetadata} {file : SnapshotFile}
    (h : FailedBeforeCommit (applySnapshotFromFile task snapFlt flt sm metadata file)) :
    (task = .returned ∧ (applySnapshotFromFile task snapFlt flt sm metadata file).effects =
        [.storeRunning false, .storeRunning true]) ∨
      task ≠ .returned ∧ (applySnapshotFromFile task snapFlt flt sm metadata file).effects =
        [.storeRunning false] := by
  obtain ⟨⟨e, herr⟩, hnone⟩ := h
  rcases applySnapshotFromFile_error herr with hreturned | ⟨htask, hoff | ⟨env, hcommit⟩⟩
  · exact Or.inl hreturned
  · exact Or.inr ⟨htask, hoff⟩
  · rw [hcommit] at hnone
    cases hnone

/-- **A failed install leaves the data alone, and leaves a serving node exactly when the
blocking task came to its end.** -/
theorem failed_install_serves_iff {task : TaskEnd} {snapFlt flt : Faults}
    {sm : LmdbStateMachine} {metadata : SnapshotMetadata} {file : SnapshotFile}
    (h : FailedBeforeCommit (applySnapshotFromFile task snapFlt flt sm metadata file)) :
    let sm' := sm.after (applySnapshotFromFile task snapFlt flt sm metadata file)
    DataUnchanged sm sm' ∧ (ServesUnchanged sm sm' ↔ task = .returned) := by
  intro sm'
  rcases applySnapshotFromFile_failed h with ⟨htask, heff⟩ | ⟨htask, heff⟩
  · have hafter : sm' = { sm with running := true } := by
      show List.foldl _ sm _ = _
      rw [heff]
      rfl
    have hdata : DataUnchanged sm sm' := by
      rw [hafter]
      exact ⟨rfl, rfl, rfl, rfl, rfl⟩
    exact ⟨hdata, iff_of_true ⟨hdata, by rw [hafter]⟩ htask⟩
  · have hafter : sm' = { sm with running := false } := by
      show List.foldl _ sm _ = _
      rw [heff]
      rfl
    have hdata : DataUnchanged sm sm' := by
      rw [hafter]
      exact ⟨rfl, rfl, rfl, rfl, rfl⟩
    refine ⟨hdata, iff_of_false ?_ htask⟩
    intro hserves
    have hoff := hserves.running
    rw [hafter] at hoff
    cases hoff

/-- A snapshot path whose environment has no databases. -/
def noSnapshot : SnapshotFile := fun _ => none

/-- Installing it fails, and the node serves on. -/
theorem failed_install_serves_at :
    let sm' := freshStateMachine.after
      (applySnapshotFromFile .returned Faults.none Faults.none freshStateMachine ⟨none, []⟩ noSnapshot)
    DataUnchanged freshStateMachine sm' ∧
      (ServesUnchanged freshStateMachine sm' ↔ TaskEnd.returned = .returned) :=
  failed_install_serves_iff ⟨⟨_, rfl⟩, rfl⟩

/-- The task panics at its start: an error is returned, nothing was published, and the
node has stopped serving. -/
theorem panicked_install_stops_serving :
    let c := applySnapshotFromFile (.died "task panicked" 0) Faults.none Faults.none
      freshStateMachine ⟨some ⟨3, 1⟩, []⟩ (fun d => some (emptyEnv d))
    freshStateMachine.running = true ∧ FailedBeforeCommit c ∧
      (freshStateMachine.after c).running = false ∧
      ¬ ServesUnchanged freshStateMachine (freshStateMachine.after c) := by
  intro c
  refine ⟨rfl, ⟨⟨.fatal "task panicked", rfl⟩, rfl⟩, rfl, ?_⟩
  intro hserves
  cases hserves.running

/-! ## Where a chunk fails -/

/-- The storage operations a command takes on contents `σ`: a swap that matches takes
two. -/
def Command.operations (σ : Contents Bytes Bytes) : Command → ℕ
  | .insert _ _ _ => 1
  | .delete _ => 1
  | .compareAndSwap key expected _ => if σ key = expected then 2 else 1
  | .batch ops => ops.length
  | .noop => 0

/-- The command's operations go through, the first of them being the `n`-th of its call. -/
def GoesThrough (flt : Faults) (n : ℕ) (σ : Contents Bytes Bytes) (c : Command) : Prop :=
  c.Storable ∧ ∀ i < c.operations σ, flt (n + i) = none

instance (flt : Faults) (n : ℕ) (σ : Contents Bytes Bytes) (c : Command) :
    Decidable (GoesThrough flt n σ c) := by
  unfold GoesThrough
  infer_instance

/-- The entries before the first one with an operation that fails. -/
def entriesThrough (flt : Faults) : ℕ → Contents Bytes Bytes → List ApplyEntry → List ApplyEntry
  | _, _, [] => []
  | n, σ, e :: chunk =>
      if GoesThrough flt n σ e.command then
        e :: entriesThrough flt (n + e.command.operations σ) (σ.run e.command.writes) chunk
      else []

/-- The entries that a call is done with when it fails: beginning the transaction is its
first operation. -/
def doneBeforeFailure (flt : Faults) (sm : LmdbStateMachine) (chunk : List ApplyEntry) :
    List ApplyEntry :=
  if flt 0 = none then entriesThrough flt 1 sm.kv.get chunk else []

theorem applyOp_goes_iff {t : Txn SmDb} {op : BatchOp} :
    (∃ t', applyOp t op = .ok t') ↔ t.faults t.ops = none ∧ op.Storable := by
  cases op with
  | insert key value => exact Txn.put_goes_iff
  | delete key => exact Txn.delete_goes_iff

theorem applyOp_ops {t t' : Txn SmDb} {op : BatchOp} (h : applyOp t op = .ok t') :
    t'.ops = t.ops + 1 := by
  cases op with
  | insert key value => exact Txn.put_ops h
  | delete key => exact Txn.delete_ops h

theorem applyOps_ops {ops : List BatchOp} {t t' : Txn SmDb} (h : applyOps ops t = .ok t') :
    t'.ops = t.ops + ops.length := by
  induction ops generalizing t with
  | nil =>
      cases h
      rfl
  | cons op ops ih =>
      obtain ⟨t₁, h₁, h₂⟩ := bind_eq_ok.mp h
      rw [ih h₂, applyOp_ops h₁, List.length_cons]
      omega

theorem applyOps_goes_iff {ops : List BatchOp} {t : Txn SmDb} :
    (∃ t', applyOps ops t = .ok t') ↔
      (∀ op ∈ ops, op.Storable) ∧ ∀ i < ops.length, t.faults (t.ops + i) = none := by
  induction ops generalizing t with
  | nil => exact iff_of_true ⟨t, rfl⟩ (by simp)
  | cons op ops ih =>
      rw [List.forall_mem_cons, List.length_cons, Nat.forall_lt_succ_left, Nat.add_zero]
      constructor
      · rintro ⟨t', h⟩
        obtain ⟨t₁, h₁, h₂⟩ := bind_eq_ok.mp h
        obtain ⟨hfault, hop⟩ := applyOp_goes_iff.mp ⟨t₁, h₁⟩
        obtain ⟨hops, hfaults⟩ := ih.mp ⟨t', h₂⟩
        refine ⟨⟨hop, hops⟩, hfault, ?_⟩
        intro i hi
        have hnext := hfaults i hi
        rwa [(applyOp_wrote h₁).2.faults, applyOp_ops h₁, Nat.add_assoc, Nat.add_comm 1] at hnext
      · rintro ⟨⟨hop, hops⟩, hfault, hfaults⟩
        obtain ⟨t₁, h₁⟩ := applyOp_goes_iff.mpr ⟨hfault, hop⟩
        have hrest : ∃ t', applyOps ops t₁ = .ok t' := by
          refine ih.mpr ⟨hops, ?_⟩
          intro i hi
          rw [(applyOp_wrote h₁).2.faults, applyOp_ops h₁, Nat.add_assoc, Nat.add_comm 1]
          exact hfaults i hi
        obtain ⟨t', h₂⟩ := hrest
        exact ⟨t', bind_eq_ok.mpr ⟨t₁, h₁, h₂⟩⟩

/-- No fault in the next operation, and in the next two. -/
theorem faults_one {flt : Faults} {n : ℕ} : (∀ i < 1, flt (n + i) = none) ↔ flt n = none := by
  simp

theorem faults_two {flt : Faults} {n : ℕ} :
    (∀ i < 2, flt (n + i) = none) ↔ flt n = none ∧ flt (n + 1) = none := by
  rw [Nat.forall_lt_succ_right, faults_one]

/-- The swap arm: a read, and a `put` if it matches. -/
theorem swap_goes_iff {t : Txn SmDb} {e : ApplyEntry} {key value : Bytes}
    {expected : Option Bytes} (hc : e.command = .compareAndSwap key expected value) :
    (∃ t' r, applyEntry t e = .ok (t', r)) ↔
      GoesThrough t.faults t.ops (t.env .kvDb).get (.compareAndSwap key expected value) := by
  unfold applyEntry GoesThrough
  simp only [hc, casMatch_eq, Command.Storable, Command.operations]
  by_cases hm : (t.env .kvDb).get key = expected
  · rw [if_pos hm, faults_two]
    constructor
    · rintro ⟨t', r, h⟩
      obtain ⟨⟨t₁, current⟩, h₁, h₂⟩ := bind_eq_ok.mp h
      obtain ⟨⟨hfault, hne⟩, rfl, rfl⟩ := Txn.get_eq_ok_iff.mp h₁
      simp only [hm, decide_true, if_true] at h₂
      obtain ⟨t₂, h₃, -⟩ := bind_eq_ok.mp h₂
      obtain ⟨hfault', hk⟩ := Txn.put_goes_iff.mp ⟨t₂, h₃⟩
      exact ⟨⟨hne, fun _ => hk⟩, hfault, hfault'⟩
    · rintro ⟨⟨hne, hvalid⟩, hfault, hfault'⟩
      have hk : ValidKey key := by
        by_contra hk
        exact hk (hvalid (by rw [← hm, Database.get_of_not_valid hk]))
      obtain ⟨t₂, h₃⟩ := Txn.put_goes_iff (t := { t with ops := t.ops + 1 }) (d := SmDb.kvDb)
        (v := value) |>.mpr ⟨hfault', hk⟩
      refine ⟨t₂, .success e.index, bind_eq_ok.mpr
        ⟨_, Txn.get_eq_ok_iff.mpr ⟨⟨hfault, hne⟩, rfl, rfl⟩, ?_⟩⟩
      simp only [hm, decide_true, if_true]
      exact bind_eq_ok.mpr ⟨t₂, h₃, rfl⟩
  · rw [if_neg hm, faults_one]
    constructor
    · rintro ⟨t', r, h⟩
      obtain ⟨⟨t₁, current⟩, h₁, -⟩ := bind_eq_ok.mp h
      obtain ⟨⟨hfault, hne⟩, -, -⟩ := Txn.get_eq_ok_iff.mp h₁
      refine ⟨⟨hne, fun hnone => ?_⟩, hfault⟩
      by_contra hk
      exact hm (by rw [hnone, Database.get_of_not_valid hk])
    · rintro ⟨⟨hne, -⟩, hfault⟩
      refine ⟨{ t with ops := t.ops + 1 }, .failure e.index, bind_eq_ok.mpr
        ⟨_, Txn.get_eq_ok_iff.mpr ⟨⟨hfault, hne⟩, rfl, rfl⟩, ?_⟩⟩
      simp only [hm, decide_false]
      rfl

/-- The other arms return the result of their last operation. -/
theorem exists_bind_pure {α β γ : Type} {x : Except HeedError α} {f : α → β} {r : γ} :
    (∃ b c, (x >>= fun a => (.ok (f a, r) : Except HeedError (β × γ))) = .ok (b, c)) ↔
      ∃ a, x = .ok a := by
  cases x <;> simp [bind, Except.bind]

/-- **An entry applies exactly when its operations go through.** -/
theorem applyEntry_goes_iff {t : Txn SmDb} {e : ApplyEntry} :
    (∃ t' r, applyEntry t e = .ok (t', r)) ↔
      GoesThrough t.faults t.ops (t.env .kvDb).get e.command := by
  cases hc : e.command with
  | insert key value ttlSecs =>
      unfold applyEntry
      simp only [hc]
      rw [GoesThrough, Command.operations, faults_one, and_comm]
      exact exists_bind_pure.trans Txn.put_goes_iff
  | delete key =>
      unfold applyEntry
      simp only [hc]
      rw [GoesThrough, Command.operations, faults_one, and_comm]
      exact exists_bind_pure.trans Txn.delete_goes_iff
  | compareAndSwap key expected value => exact swap_goes_iff hc
  | batch ops =>
      unfold applyEntry
      simp only [hc]
      exact exists_bind_pure.trans applyOps_goes_iff
  | noop =>
      unfold applyEntry
      simp only [hc]
      exact iff_of_true ⟨t, _, rfl⟩ ⟨trivial, by simp [Command.operations]⟩

theorem applyEntry_ops {t t' : Txn SmDb} {e : ApplyEntry} {r : ApplyResult}
    (h : applyEntry t e = .ok (t', r)) :
    t'.ops = t.ops + e.command.operations (t.env .kvDb).get := by
  unfold applyEntry at h
  cases hc : e.command with
  | insert key value ttlSecs =>
      simp only [hc] at h
      obtain ⟨t₁, h₁, h₂⟩ := bind_eq_ok.mp h
      cases h₂
      exact Txn.put_ops h₁
  | delete key =>
      simp only [hc] at h
      obtain ⟨t₁, h₁, h₂⟩ := bind_eq_ok.mp h
      cases h₂
      exact Txn.delete_ops h₁
  | compareAndSwap key expected value =>
      simp only [hc, casMatch_eq] at h
      obtain ⟨⟨t₁, current⟩, h₁, h₂⟩ := bind_eq_ok.mp h
      obtain ⟨-, rfl, rfl⟩ := Txn.get_eq_ok_iff.mp h₁
      rw [Command.operations]
      by_cases hm : (t.env .kvDb).get key = expected
      · simp only [hm, decide_true, if_true] at h₂
        obtain ⟨t₂, h₃, h₄⟩ := bind_eq_ok.mp h₂
        cases h₄
        rw [if_pos hm, Txn.put_ops h₃]
      · simp only [hm, decide_false] at h₂
        cases h₂
        rw [if_neg hm]
  | batch ops =>
      simp only [hc] at h
      obtain ⟨t₁, h₁, h₂⟩ := bind_eq_ok.mp h
      cases h₂
      exact applyOps_ops h₁
  | noop =>
      simp only [hc] at h
      cases h
      rfl

/-- **The loop caches the terms of the entries that go through**, however it ends. -/
theorem applyLoop_effects (chunk : List ApplyEntry) (t : Txn SmDb) (results : List ApplyResult)
    (highest : Option LogId) :
    (applyLoop chunk t results highest).effects =
      (entriesThrough t.faults t.ops (t.env .kvDb).get chunk).map cacheEffect := by
  induction chunk generalizing t results highest with
  | nil => rfl
  | cons e chunk ih =>
      rw [applyLoop, entriesThrough]
      by_cases hgoes : GoesThrough t.faults t.ops (t.env .kvDb).get e.command
      · obtain ⟨t₁, r, hx⟩ := applyEntry_goes_iff.mpr hgoes
        obtain ⟨-, hw, -⟩ := applyEntry_wrote hx
        rw [if_pos hgoes, hx, smLmdb, Except.mapError, Call.ok_bind, List.map_cons]
        show cacheEffect e :: (applyLoop chunk t₁ _ _).effects = _
        rw [ih, hw.faults, hw.kv, applyEntry_ops hx]
      · rw [if_neg hgoes]
        cases hx : applyEntry t e with
        | ok p => exact absurd (applyEntry_goes_iff.mp ⟨p.1, p.2, hx⟩) hgoes
        | error err => rfl

/-- **What a failed chunk leaves**: the terms of the entries before the failure. -/
theorem applyChunk_failed_after {flt : Faults} {sm : LmdbStateMachine} {chunk : List ApplyEntry}
    {err : EngineError} (h : (applyChunk flt sm chunk).result = .error err) :
    sm.after (applyChunk flt sm chunk) =
      { sm with entryTerms := cacheTerms sm.entryTerms (doneBeforeFailure flt sm chunk) } := by
  have heff : (applyChunk flt sm chunk).effects =
      (doneBeforeFailure flt sm chunk).map cacheEffect := by
    unfold doneBeforeFailure
    cases hflt : flt 0 with
    | some e =>
        have hb : Txn.begin flt sm.env = .error e := by
          simp [Txn.begin, Txn.tick, hflt]
        rw [applyChunk, hb]
        rfl
    | none =>
        have hb : Txn.begin flt sm.env = .ok ⟨flt, 1, sm.env⟩ := by
          simp [Txn.begin, Txn.tick, hflt]
        have hloop := applyLoop_effects chunk ⟨flt, 1, sm.env⟩ [] none
        unfold applyChunk at h ⊢
        rw [hb, smLmdb, Except.mapError, Call.ok_bind] at h ⊢
        rw [if_pos rfl]
        cases hl : (applyLoop chunk ⟨flt, 1, sm.env⟩ [] none).result with
        | error err' =>
            rw [Call.bind_of_error hl]
            exact hloop
        | ok p =>
            -- then it is the commit that failed
            obtain ⟨t', rs, highest⟩ := p
            rw [Call.bind_of_ok hl] at h ⊢
            cases hcm : t'.commit with
            | ok env =>
                simp only [hcm, smLmdb, Except.mapError, Call.ok_bind, Call.emit_bind] at h
                cases highest <;> cases h
            | error err' =>
                simp only [hcm, smLmdb, Except.mapError, Call.error_bind, List.append_nil]
                exact hloop
  show List.foldl _ sm _ = _
  rw [heff, foldl_cacheEffect]

/-! ## When that is no change -/

/-- The term of the last entry of the log with this index. -/
def lastTerm (log : List ApplyEntry) (index : UInt64) : Option UInt64 :=
  log.foldl (fun term e => if e.index = index then some e.term else term) none

/-- The cache has the terms of the log already. -/
def AlreadyCached (terms : Std.ExtTreeMap UInt64 UInt64 compare) (log : List ApplyEntry) : Prop :=
  ∀ e ∈ log, terms[e.index]? = lastTerm log e.index

instance (terms : Std.ExtTreeMap UInt64 UInt64 compare) (log : List ApplyEntry) :
    Decidable (AlreadyCached terms log) := by
  unfold AlreadyCached
  infer_instance

theorem lastTerm_concat (log : List ApplyEntry) (e : ApplyEntry) (index : UInt64) :
    lastTerm (log ++ [e]) index = if e.index = index then some e.term else lastTerm log index := by
  simp [lastTerm]

theorem lastTerm_eq_none_iff {log : List ApplyEntry} {index : UInt64} :
    lastTerm log index = none ↔ ∀ e ∈ log, e.index ≠ index := by
  induction log using List.reverseRecOn with
  | nil => simp [lastTerm]
  | append_singleton log e ih =>
      rw [lastTerm_concat]
      by_cases he : e.index = index
      · simp [he]
      · simp [he, ih, or_imp, forall_and]

theorem mem_of_lastTerm {log : List ApplyEntry} {index term : UInt64}
    (h : lastTerm log index = some term) : ∃ e ∈ log, e.index = index ∧ e.term = term := by
  induction log using List.reverseRecOn with
  | nil => cases h
  | append_singleton log e ih =>
      rw [lastTerm_concat] at h
      split at h
      · rename_i he
        exact ⟨e, by simp, he, Option.some.inj h⟩
      · obtain ⟨e', hmem, he'⟩ := ih h
        exact ⟨e', List.mem_append_left _ hmem, he'⟩

/-- What the cache says of an index, once a log has gone into it. -/
theorem getElem?_cacheTerms (terms : Std.ExtTreeMap UInt64 UInt64 compare)
    (log : List ApplyEntry) (index : UInt64) :
    (cacheTerms terms log)[index]? = (lastTerm log index).or terms[index]? := by
  induction log using List.reverseRecOn with
  | nil => rfl
  | append_singleton log e ih =>
      have hstep : cacheTerms terms (log ++ [e]) =
          (cacheTerms terms log).insert e.index e.term := by
        simp [cacheTerms]
      rw [hstep, Std.ExtTreeMap.getElem?_insert, ih, lastTerm_concat]
      by_cases he : e.index = index
      · simp [he]
      · simp [he]

theorem cacheTerms_eq_iff {terms : Std.ExtTreeMap UInt64 UInt64 compare}
    {log : List ApplyEntry} : cacheTerms terms log = terms ↔ AlreadyCached terms log := by
  constructor
  · intro h e he
    rw [← h, getElem?_cacheTerms]
    cases hlast : lastTerm log e.index with
    | none => exact absurd rfl (lastTerm_eq_none_iff.mp hlast e he)
    | some term => rfl
  · intro h
    refine Std.ExtTreeMap.ext_getElem? ?_
    intro index
    rw [getElem?_cacheTerms]
    cases hlast : lastTerm log index with
    | none => rfl
    | some term =>
        obtain ⟨e, he, rfl, -⟩ := mem_of_lastTerm hlast
        rw [h e he, hlast]
        rfl

/-- A failed chunk is undone exactly when the cache had the terms of the entries before
the failure. -/
theorem applyChunk_undone_iff {flt : Faults} {sm : LmdbStateMachine} {chunk : List ApplyEntry}
    {err : EngineError} (h : (applyChunk flt sm chunk).result = .error err) :
    sm.after (applyChunk flt sm chunk) = sm ↔
      AlreadyCached sm.entryTerms (doneBeforeFailure flt sm chunk) := by
  rw [applyChunk_failed_after h, ← cacheTerms_eq_iff]
  constructor
  · intro hsame
    exact congrArg LmdbStateMachine.entryTerms hsame
  · intro hsame
    rw [hsame]

end DLmdb
