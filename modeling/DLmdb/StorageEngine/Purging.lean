import DLmdb.StateMachine.Snapshot
import DLmdb.StateMachine.Recovery
import DLmdb.StorageEngine.LogRuns

/-!
# What the log keeps for recovery

A node has two environments, one under its log and one under its state machine, and a
transaction spans only one of them. `purge` drops log entries at once, up to an index
the state machine has applied; the `last_applied` a restart begins from is the one
persisted last. After a crash the entries in between have to be in the log.
-/

namespace DLmdb

open Framework Lmdb

variable {Entry HardState : Type} (fmt : Formats Entry HardState)

/-! ## A node with its log -/

/-- The log, the state machine, and the index of the last persisted entry. -/
structure RaftNode where
  wal : LmdbWal
  sm : LmdbStateMachine
  last : UInt64

def RaftNode.fresh : RaftNode := ⟨freshWal, freshStateMachine, 0⟩

inductive RaftCall (Entry : Type) where
  | persistEntries (flt : Faults) (entries : List Entry)
  | applyChunk (flt : Faults) (chunk : List ApplyEntry)
  | persistLastApplied (flt : Faults)
  | generateSnapshot (dirErr : Option String) (flt : Faults) (lastIncluded : LogId)
  | purge (flt : Faults) (cutoffIndex : LogId)

/-- What the two directories hold. -/
structure Disk where
  wal : WalEnv
  sm : SmEnv

/-- Each index is one more than the one before it; `i` comes before the first. -/
def Follows : UInt64 → List UInt64 → Prop
  | _, [] => True
  | i, j :: js => j.toNat = i.toNat + 1 ∧ Follows j js

instance instDecidableFollows : (i : UInt64) → (js : List UInt64) → Decidable (Follows i js)
  | _, [] => inferInstanceAs (Decidable True)
  | i, j :: js =>
      have : Decidable (Follows j js) := instDecidableFollows j js
      inferInstanceAs (Decidable (j.toNat = i.toNat + 1 ∧ Follows j js))

/-- The last of the indices, `i` if there is none. -/
def lastOf (i : UInt64) (js : List UInt64) : UInt64 := js.foldl (fun _ j => j) i

namespace RaftNode

/-- The node after the whole call. -/
def step (s : RaftNode) : RaftCall Entry → RaftNode
  | .persistEntries flt es =>
      { s with
        wal := s.wal.after (s.wal.persistEntries fmt flt es)
        last :=
          match (s.wal.persistEntries fmt flt es).result with
          | .ok _ => lastOf s.last (es.map fmt.index)
          | .error _ => s.last }
  | .applyChunk flt chunk => { s with sm := s.sm.after (applyChunk flt s.sm chunk) }
  | .persistLastApplied flt =>
      { s with sm := s.sm.after (persistLastApplied flt s.sm s.sm.lastApplied) }
  | .generateSnapshot dirErr flt l =>
      { s with sm := s.sm.after (generateSnapshotData dirErr flt s.sm.env l) }
  | .purge flt c => { s with wal := s.wal.after (s.wal.purge fmt flt c) }

/-- The directories when the process stops after the first `j` effects of the call. -/
def crashAt (s : RaftNode) (j : ℕ) : RaftCall Entry → Disk
  | .persistEntries flt es =>
      ⟨((s.wal.persistEntries fmt flt es).crashAt LmdbWal.exec s.wal j).env, s.sm.env⟩
  | .applyChunk flt chunk =>
      ⟨s.wal.env, ((applyChunk flt s.sm chunk).crashAt LmdbStateMachine.exec s.sm j).env⟩
  | .persistLastApplied flt =>
      ⟨s.wal.env, ((persistLastApplied flt s.sm s.sm.lastApplied).crashAt
        LmdbStateMachine.exec s.sm j).env⟩
  | .generateSnapshot dirErr flt l =>
      ⟨s.wal.env, ((generateSnapshotData dirErr flt s.sm.env l).crashAt
        LmdbStateMachine.exec s.sm j).env⟩
  | .purge flt c => ⟨((s.wal.purge fmt flt c).crashAt LmdbWal.exec s.wal j).env, s.sm.env⟩

/-- The index of the last entry that the last snapshot covers. -/
def snapshotIndex (s : RaftNode) : Option UInt64 :=
  s.sm.snapshotMeta.bind (fun m => m.lastIncluded.map LogId.index)

/-- Entries extend the log from index 1 on; what is applied is the next persisted entries;
a snapshot covers applied entries only; a purge stays behind `last_applied` and the last
snapshot. -/
def Valid (s : RaftNode) : RaftCall Entry → Prop
  | .persistEntries _ es => Follows s.last (es.map fmt.index)
  | .applyChunk _ chunk =>
      Follows s.sm.lastAppliedIndex (chunk.map ApplyEntry.index) ∧ ∀ e ∈ chunk, e.index ≤ s.last
  | .persistLastApplied _ => True
  | .generateSnapshot _ _ l => l.index ≤ s.sm.lastAppliedIndex
  | .purge _ c => c.index ≤ s.sm.lastAppliedIndex ∧ ∃ i ∈ s.snapshotIndex, c.index ≤ i

instance (s : RaftNode) : (c : RaftCall Entry) → Decidable (s.Valid fmt c)
  | .persistEntries _ es => inferInstanceAs (Decidable (Follows s.last (es.map fmt.index)))
  | .applyChunk _ chunk =>
      inferInstanceAs (Decidable (Follows s.sm.lastAppliedIndex (chunk.map ApplyEntry.index) ∧
        ∀ e ∈ chunk, e.index ≤ s.last))
  | .persistLastApplied _ => inferInstanceAs (Decidable True)
  | .generateSnapshot _ _ l => inferInstanceAs (Decidable (l.index ≤ s.sm.lastAppliedIndex))
  | .purge _ c =>
      inferInstanceAs (Decidable (c.index ≤ s.sm.lastAppliedIndex ∧
        ∃ i ∈ s.snapshotIndex, c.index ≤ i))

/-- The index a restart would begin after. -/
def marker (s : RaftNode) : UInt64 := (recoveredLastApplied s.sm.env).index

/-- A purge of which no storage operation fails stays behind the persisted
`last_applied`. -/
def PurgesPersisted (s : RaftNode) : RaftCall Entry → Prop
  | .purge flt c => (∀ n < 4, flt n = none) → c.index ≤ s.marker
  | _ => True

end RaftNode

/-- **Recovery finds its entries.** Whatever the two constructors make of the directories,
every index after the recovered `last_applied`, up to the recovered last index, is in
the log; and the purge boundary is not beyond the recovered `last_applied`. -/
def Disk.KeepsTail (d : Disk) : Prop :=
  ∀ walFlt smFlt wal sm, LmdbWal.new walFlt d.wal = .ok wal →
    LmdbStateMachine.new smFlt d.sm = .ok sm →
      (∀ i, sm.lastAppliedIndex < i → i ≤ wal.lastIndex →
        ∃ e, wal.entry fmt Faults.none i = .ok (some e)) ∧
      ∀ b, wal.loadPurgeBoundary fmt Faults.none = .ok (some b) → b.index ≤ sm.lastAppliedIndex

variable {fmt}

/-! ## Consecutive indices -/

theorem le_lastOf {i : UInt64} {js : List UInt64} (h : Follows i js) : i ≤ lastOf i js := by
  induction js generalizing i with
  | nil => exact UInt64.le_refl i
  | cons j js ih =>
      obtain ⟨hj, hjs⟩ := h
      have hij : i ≤ j := by
        rw [UInt64.le_iff_toNat_le]
        omega
      exact UInt64.le_trans hij (ih hjs)

theorem lastOf_le {i last : UInt64} {js : List UInt64} (hi : i ≤ last)
    (hjs : ∀ j ∈ js, j ≤ last) : lastOf i js ≤ last := by
  induction js generalizing i with
  | nil => exact hi
  | cons j js ih =>
      exact ih (hjs j List.mem_cons_self) (fun j' hj' => hjs j' (List.mem_cons_of_mem _ hj'))

theorem lastLogId_index (l : LogId) (chunk : List ApplyEntry) :
    (lastLogId l chunk).index = lastOf l.index (chunk.map ApplyEntry.index) := by
  induction chunk generalizing l with
  | nil => rfl
  | cons e chunk ih => exact ih e.logId

/-! ## A log without gaps -/

/-- Of the indices from 1 to `last`, those after `purged` are there, and none beyond. -/
structure Filled (f : UInt64 → Option Entry) (purged last : UInt64) : Prop where
  present : ∀ i, purged < i → i ≤ last → ∃ e, f i = some e
  within : ∀ i e, f i = some e → i ≤ last

theorem Filled.overwrite {f : UInt64 → Option Entry} {purged last : UInt64}
    (h : Filled f purged last) {index : Entry → UInt64} {e : Entry}
    (he : (index e).toNat = last.toNat + 1) :
    Filled (LogModel.overwrite index f e) purged (index e) where
  present i hlo hhi := by
    by_cases hi : i = index e
    · subst hi
      exact ⟨e, Function.update_self ..⟩
    · have hle : i ≤ last := by
        have hne : i.toNat ≠ (index e).toNat := fun heq => hi (UInt64.toNat_inj.mp heq)
        rw [UInt64.le_iff_toNat_le] at hhi ⊢
        omega
      rw [LogModel.overwrite, Function.update_of_ne hi]
      exact h.present i hlo hle
  within i e' hi := by
    by_cases hie : i = index e
    · exact UInt64.le_of_eq hie
    · rw [LogModel.overwrite, Function.update_of_ne hie] at hi
      have hle := h.within i e' hi
      rw [UInt64.le_iff_toNat_le] at hle ⊢
      omega

theorem Filled.persist {f : UInt64 → Option Entry} {purged last : UInt64}
    (h : Filled f purged last) {index : Entry → UInt64} {es : List Entry}
    (hes : Follows last (es.map index)) :
    Filled (es.foldl (LogModel.overwrite index) f) purged (lastOf last (es.map index)) := by
  induction es generalizing f last with
  | nil => exact h
  | cons e es ih =>
      obtain ⟨he, hes⟩ := hes
      exact ih (h.overwrite he) hes

theorem Filled.purge {f : UInt64 → Option Entry} {purged last : UInt64}
    (h : Filled f purged last) {purged' c : UInt64} (hpurged : purged ≤ purged')
    (hc : c ≤ purged') :
    Filled (fun i => if i < saturatingSucc c then none else f i) purged' last where
  present i hlo hhi := by
    have hkeep : ¬ i < saturatingSucc c := fun hlt =>
      UInt64.not_le.mpr (UInt64.lt_of_le_of_lt hc hlo) (le_of_lt_saturatingSucc hlt)
    obtain ⟨e, he⟩ := h.present i (UInt64.lt_of_le_of_lt hpurged hlo) hhi
    exact ⟨e, (if_neg hkeep).trans he⟩
  within i e hi := by
    have hi : (if i < saturatingSucc c then none else f i) = some e := hi
    split at hi
    · cases hi
    · exact h.within i e hi

/-! ## Recovery from a log without gaps -/

/-- The log environment holds the entries after `purged`, and its purge boundary is not
beyond. -/
structure Tail (fmt : Formats Entry HardState) (env : WalEnv) (m : LogModel Entry HardState)
    (purged last : UInt64) : Prop where
  represents : Represents fmt env m
  filled : Filled m.entries purged last
  boundary : ∀ b, m.boundary = some b → b.index ≤ purged

/-- **A log purged no further than the marker** keeps what recovery needs. -/
theorem Tail.keepsTail {env : WalEnv} {m : LogModel Entry HardState} {purged last : UInt64}
    (h : Tail fmt env m purged last) {smEnv : SmEnv}
    (hmarker : purged ≤ (recoveredLastApplied smEnv).index) :
    Disk.KeepsTail fmt ⟨env, smEnv⟩ := by
  intro walFlt smFlt wal sm hwal hsm
  obtain ⟨hwalEnv, hlast⟩ := LmdbWal.new_ok hwal
  obtain ⟨-, hlastApplied, -⟩ := new_ok hsm
  have hmark : sm.lastAppliedIndex = (recoveredLastApplied smEnv).index :=
    congrArg LogId.index hlastApplied
  have hrep : Represents fmt wal.env m := by
    rw [hwalEnv]
    exact h.represents
  rw [hmark]
  constructor
  · intro i hlo hhi
    have hbound : wal.lastIndex ≤ last := by
      rw [hlast]
      rcases h.represents.log.lastIndexOf_cases with hzero | ⟨e, he⟩
      · rw [hzero, UInt64.le_iff_toNat_le]
        exact Nat.zero_le _
      · exact h.filled.within _ e he
    obtain ⟨e, he⟩ := h.filled.present i (UInt64.lt_of_le_of_lt hmarker hlo)
      (UInt64.le_trans hhi hbound)
    have hentry := (hrep.entry_answered Faults.none i).eq_ok
    rw [he] at hentry
    exact ⟨e, hentry⟩
  · intro b hb
    rw [(hrep.loadPurgeBoundary_answered Faults.none).eq_ok] at hb
    exact UInt64.le_trans (h.boundary b (Except.ok.inj hb)) hmarker

/-- Conversely the boundary has to be behind the marker. -/
theorem Represents.boundary_le_of_keepsTail {env : WalEnv} {m : LogModel Entry HardState}
    (h : Represents fmt env m) {smEnv : SmEnv} (hkeeps : Disk.KeepsTail fmt ⟨env, smEnv⟩)
    {b : LogId} (hb : m.boundary = some b) : b.index ≤ (recoveredLastApplied smEnv).index := by
  obtain ⟨wal, hwal⟩ := LmdbWal.new_noFaults env
  obtain ⟨sm, hsm⟩ := new_noFaults smEnv
  obtain ⟨-, hboundary⟩ := hkeeps Faults.none Faults.none wal sm hwal hsm
  have hrep : Represents fmt wal.env m := by
    rw [(LmdbWal.new_ok hwal).1]
    exact h
  have hload := (hrep.loadPurgeBoundary_answered Faults.none).eq_ok
  rw [hb] at hload
  have hle := hboundary b hload
  have hmark : sm.lastAppliedIndex = (recoveredLastApplied smEnv).index :=
    congrArg LogId.index (new_ok hsm).2.1
  rw [hmark] at hle
  exact hle

/-! ## The calls on the log -/

theorem Tail.persistEntries {wal : LmdbWal} {m : LogModel Entry HardState}
    {purged last : UInt64} (h : Tail fmt wal.env m purged last) (flt : Faults) {es : List Entry}
    (hes : Follows last (es.map fmt.index)) :
    Outcome wal (fun env => Tail fmt env (m.apply fmt.index (.persistEntries es)) purged
      (lastOf last (es.map fmt.index))) (wal.persistEntries fmt flt es) :=
  (h.represents.persistEntries flt es).mono
    (fun _ henv => ⟨henv, h.filled.persist hes, h.boundary⟩)

theorem Tail.purge {wal : LmdbWal} {m : LogModel Entry HardState} {purged last : UInt64}
    (h : Tail fmt wal.env m purged last) (flt : Faults) {c : LogId} {purged' : UInt64}
    (hpurged : purged ≤ purged') (hc : c.index ≤ purged') :
    Outcome wal (fun env => Tail fmt env (m.purgeBefore (saturatingSucc c.index) c) purged' last)
      (wal.purge fmt flt c) := by
  apply (h.represents.purge flt c).mono
  intro env henv
  refine ⟨henv, h.filled.purge hpurged hc, ?_⟩
  intro b hb
  rw [← Option.some.inj hb]
  exact hc

/-! ## The calls on the state machine -/

/-- Wherever the call stops, the marker is where it was, or at the `last_applied` the
call found in memory. -/
def MarksApplied {α : Type} (sm : LmdbStateMachine) (c : SmCall α) : Prop :=
  ∀ j, recoveredLastApplied (c.crashAt LmdbStateMachine.exec sm j).env =
      recoveredLastApplied sm.env ∨
    recoveredLastApplied (c.crashAt LmdbStateMachine.exec sm j).env = sm.lastApplied

/-- What the marker and `last_applied` are both beyond, the marker stays beyond. -/
theorem MarksApplied.le {α : Type} {sm : LmdbStateMachine} {c : SmCall α}
    (h : MarksApplied sm c) {i : UInt64} (hm : i ≤ (recoveredLastApplied sm.env).index)
    (ha : i ≤ sm.lastAppliedIndex) (j : ℕ) :
    i ≤ (recoveredLastApplied (c.crashAt LmdbStateMachine.exec sm j).env).index := by
  rcases h j with hsame | hmoved
  · rw [hsame]
    exact hm
  · rw [hmoved]
    exact ha

theorem MarksApplied.after_le {α : Type} {sm : LmdbStateMachine} {c : SmCall α}
    (h : MarksApplied sm c) {i : UInt64} (hm : i ≤ (recoveredLastApplied sm.env).index)
    (ha : i ≤ sm.lastAppliedIndex) : i ≤ (recoveredLastApplied (sm.after c).env).index := by
  have hle := h.le hm ha c.effects.length
  rw [Call.crashAt_length] at hle
  exact hle

/-- A chunk never moves the marker. -/
theorem applyChunk_marks (flt : Faults) (sm : LmdbStateMachine) (chunk : List ApplyEntry) :
    MarksApplied sm (applyChunk flt sm chunk) := by
  intro j
  left
  rcases applyChunk_cases flt sm chunk with
    ⟨env, hcall, -, -, hother⟩ | ⟨done, rest, err, -, hcall⟩
  · have hone : commits (applyChunk flt sm chunk).effects = [env] := by
      rw [hcall, commits_applied]
    rcases crashAt_env_cases hone sm j with hold | hnew
    · rw [hold]
    · rw [hnew, recoveredLastApplied, recoveredLastApplied, hother .metaDb (by decide)]
  · have hnone : commits (applyChunk flt sm chunk).effects = [] := by
      rw [hcall, commits_cacheEffect]
    rw [crashAt_env_of_silent hnone]

theorem persistLastApplied_marks (flt : Faults) (sm : LmdbStateMachine) :
    MarksApplied sm (persistLastApplied flt sm sm.lastApplied) := by
  intro j
  rcases persistLastApplied_cases flt sm sm.lastApplied with ⟨env, hcall, -, hrec⟩ | ⟨err, hcall⟩
  · have hone : commits (persistLastApplied flt sm sm.lastApplied).effects = [env] := by
      rw [hcall]
      rfl
    rcases crashAt_env_cases hone sm j with hold | hnew
    · exact Or.inl (congrArg recoveredLastApplied hold)
    · exact Or.inr ((congrArg recoveredLastApplied hnew).trans hrec)
  · have hnone : commits (persistLastApplied flt sm sm.lastApplied).effects = [] := by
      rw [hcall]
      rfl
    exact Or.inl (congrArg recoveredLastApplied (crashAt_env_of_silent hnone sm j))

theorem generateSnapshotData_marks (dirErr : Option String) (flt : Faults)
    (sm : LmdbStateMachine) (l : LogId) :
    MarksApplied sm (generateSnapshotData dirErr flt sm.env l) := by
  intro j
  have hnone : commits (generateSnapshotData dirErr flt sm.env l).effects = [] := by
    rcases generateSnapshotData_cases dirErr flt sm.env l with ⟨out, h⟩ | ⟨e, h⟩
    · rw [h]
      rfl
    · rw [h]
      rfl
  exact Or.inl (congrArg recoveredLastApplied (crashAt_env_of_silent hnone sm j))

theorem applyChunk_lastApplied (flt : Faults) (sm : LmdbStateMachine)
    (chunk : List ApplyEntry) :
    (sm.after (applyChunk flt sm chunk)).lastAppliedIndex =
        lastOf sm.lastAppliedIndex (chunk.map ApplyEntry.index) ∨
      (sm.after (applyChunk flt sm chunk)).lastAppliedIndex = sm.lastAppliedIndex := by
  rcases applyChunk_cases flt sm chunk with ⟨env, hcall, -⟩ | ⟨done, rest, err, -, hcall⟩
  · left
    have hres : (applyChunk flt sm chunk).result = .ok (resultsOf sm.kv.get chunk) := by
      rw [hcall]
    have hlast := (applyChunk_applied hres).lastApplied
    exact (congrArg LogId.index hlast).trans (lastLogId_index _ _)
  · right
    rw [LmdbStateMachine.after, Call.after, hcall, foldl_cacheEffect]

theorem persistLastApplied_lastApplied (flt : Faults) (sm : LmdbStateMachine) :
    (sm.after (persistLastApplied flt sm sm.lastApplied)).lastAppliedIndex =
      sm.lastAppliedIndex := by
  rcases persistLastApplied_cases flt sm sm.lastApplied with ⟨env, hcall, -⟩ | ⟨err, hcall⟩
  · rw [hcall]
    rfl
  · rw [hcall]
    rfl

theorem generateSnapshotData_lastApplied (dirErr : Option String) (flt : Faults)
    (sm : LmdbStateMachine) (l : LogId) :
    (sm.after (generateSnapshotData dirErr flt sm.env l)).lastAppliedIndex =
      sm.lastAppliedIndex := by
  rcases generateSnapshotData_cases dirErr flt sm.env l with ⟨out, h⟩ | ⟨e, h⟩
  · rw [h]
    rfl
  · rw [h]
    rfl

/-! ## Runs -/

namespace RaftNode

/-- **The invariant**: the log holds the entries after `purged`, an index that was applied,
and what was applied was persisted. -/
structure Inv (fmt : Formats Entry HardState) (s : RaftNode) (m : LogModel Entry HardState)
    (purged : UInt64) : Prop where
  tail : Tail fmt s.wal.env m purged s.last
  applied : purged ≤ s.sm.lastAppliedIndex
  persisted : s.sm.lastAppliedIndex ≤ s.last

theorem fresh_inv (fmt : Formats Entry HardState) : fresh.Inv fmt LogModel.empty 0 where
  tail :=
    { represents := empty_represents fmt
      filled :=
        { present := fun _ hlo hhi => absurd hlo (UInt64.not_lt.mpr hhi)
          within := fun _ _ h => by cases h }
      boundary := fun _ h => by cases h }
  applied := UInt64.le_refl 0
  persisted := UInt64.le_refl 0

variable {s : RaftNode} {m : LogModel Entry HardState} {purged : UInt64}

/-- The later of two indices. -/
theorem exists_later (a b : UInt64) : ∃ c, a ≤ c ∧ b ≤ c ∧ (c = a ∨ c = b) := by
  rcases UInt64.le_total a b with hab | hba
  · exact ⟨b, hab, UInt64.le_refl b, Or.inr rfl⟩
  · exact ⟨a, UInt64.le_refl a, hba, Or.inl rfl⟩

/-- A call on the state machine that leaves `last_applied` among the persisted entries and
never takes it back. -/
theorem Inv.sm_call (h : s.Inv fmt m purged) {α : Type} {c : SmCall α}
    (hmarks : MarksApplied s.sm c) (hlo : s.sm.lastAppliedIndex ≤ (s.sm.after c).lastAppliedIndex)
    (hhi : (s.sm.after c).lastAppliedIndex ≤ s.last) :
    ({ s with sm := s.sm.after c } : RaftNode).Inv fmt m purged ∧
      (purged ≤ s.marker → purged ≤ ({ s with sm := s.sm.after c } : RaftNode).marker) :=
  ⟨⟨h.tail, UInt64.le_trans h.applied hlo, hhi⟩, fun hm => hmarks.after_le hm h.applied⟩

theorem Inv.persistEntries (h : s.Inv fmt m purged) (flt : Faults) {es : List Entry}
    (hes : Follows s.last (es.map fmt.index)) :
    ∃ m', (s.step fmt (.persistEntries flt es)).Inv fmt m' purged := by
  have hout := h.tail.persistEntries flt hes
  have hstep : s.step fmt (.persistEntries flt es) =
      { s with
        wal := s.wal.after (s.wal.persistEntries fmt flt es)
        last :=
          match (s.wal.persistEntries fmt flt es).result with
          | .ok _ => lastOf s.last (es.map fmt.index)
          | .error _ => s.last } := rfl
  rw [hstep]
  cases hres : (s.wal.persistEntries fmt flt es).result with
  | ok u =>
      exact ⟨_, hout.after_ok hres, h.applied, UInt64.le_trans h.persisted (le_lastOf hes)⟩
  | error e =>
      rw [hout.after_error hres]
      exact ⟨m, h.tail, h.applied, h.persisted⟩

/-- A purge moves `purged` up to its cutoff, unless it fails or was there already. -/
theorem Inv.purge (h : s.Inv fmt m purged) (flt : Faults) {c : LogId}
    (hc : c.index ≤ s.sm.lastAppliedIndex) :
    ∃ m' purged', (s.step fmt (.purge flt c)).Inv fmt m' purged' ∧
      (purged' = purged ∨ purged' = c.index ∧ (s.wal.purge fmt flt c).result = .ok ()) := by
  cases hres : (s.wal.purge fmt flt c).result with
  | ok u =>
      obtain ⟨later, hpurged, hle, hlater⟩ := exists_later purged c.index
      have hout := h.tail.purge flt hpurged hle
      have happlied : later ≤ s.sm.lastAppliedIndex := by
        rcases hlater with rfl | rfl
        · exact h.applied
        · exact hc
      refine ⟨_, later, ⟨hout.after_ok hres, happlied, h.persisted⟩, ?_⟩
      rcases hlater with rfl | rfl
      · exact Or.inl rfl
      · exact Or.inr ⟨rfl, rfl⟩
  | error e =>
      have hout := h.tail.represents.purge flt c
      refine ⟨m, purged, ⟨?_, h.applied, h.persisted⟩, Or.inl rfl⟩
      show Tail fmt (s.wal.after (s.wal.purge fmt flt c)).env m purged s.last
      rw [hout.after_error hres]
      exact h.tail

/-- A valid chunk moves `last_applied` forward, over persisted entries. -/
theorem applyChunk_lastApplied_le (h : s.sm.lastAppliedIndex ≤ s.last) (flt : Faults)
    {chunk : List ApplyEntry}
    (hfollows : Follows s.sm.lastAppliedIndex (chunk.map ApplyEntry.index))
    (hpersisted : ∀ e ∈ chunk, e.index ≤ s.last) :
    s.sm.lastAppliedIndex ≤ (s.sm.after (applyChunk flt s.sm chunk)).lastAppliedIndex ∧
      (s.sm.after (applyChunk flt s.sm chunk)).lastAppliedIndex ≤ s.last := by
  rcases applyChunk_lastApplied flt s.sm chunk with hmoved | hsame
  · rw [hmoved]
    refine ⟨le_lastOf hfollows, lastOf_le h ?_⟩
    intro j hj
    obtain ⟨e, he, rfl⟩ := List.mem_map.mp hj
    exact hpersisted e he
  · rw [hsame]
    exact ⟨UInt64.le_refl _, h⟩

/-- **One call** keeps the invariant. What is purged stays behind the marker, if the call
purges behind the marker. -/
theorem Inv.step (h : s.Inv fmt m purged) {c : RaftCall Entry} (hc : s.Valid fmt c) :
    ∃ m' purged', (s.step fmt c).Inv fmt m' purged' ∧
      (purged ≤ s.marker → s.PurgesPersisted c → purged' ≤ (s.step fmt c).marker) := by
  cases c with
  | persistEntries flt es =>
      obtain ⟨m', hinv⟩ := h.persistEntries flt hc
      exact ⟨m', purged, hinv, fun hm _ => hm⟩
  | applyChunk flt chunk =>
      obtain ⟨hlo, hhi⟩ := applyChunk_lastApplied_le h.persisted flt hc.1 hc.2
      obtain ⟨hinv, hmarker⟩ := h.sm_call (applyChunk_marks flt s.sm chunk) hlo hhi
      exact ⟨m, purged, hinv, fun hm _ => hmarker hm⟩
  | persistLastApplied flt =>
      have hlast := persistLastApplied_lastApplied flt s.sm
      obtain ⟨hinv, hmarker⟩ := h.sm_call (persistLastApplied_marks flt s.sm)
        (UInt64.le_of_eq hlast.symm) (UInt64.le_trans (UInt64.le_of_eq hlast) h.persisted)
      exact ⟨m, purged, hinv, fun hm _ => hmarker hm⟩
  | generateSnapshot dirErr flt l =>
      have hlast := generateSnapshotData_lastApplied dirErr flt s.sm l
      obtain ⟨hinv, hmarker⟩ := h.sm_call (generateSnapshotData_marks dirErr flt s.sm l)
        (UInt64.le_of_eq hlast.symm) (UInt64.le_trans (UInt64.le_of_eq hlast) h.persisted)
      exact ⟨m, purged, hinv, fun hm _ => hmarker hm⟩
  | purge flt c =>
      obtain ⟨m', purged', hinv, hpurged⟩ := h.purge flt hc.1
      refine ⟨m', purged', hinv, ?_⟩
      intro hm hp
      rcases hpurged with rfl | ⟨rfl, hres⟩
      · exact hm
      · exact hp ((purge_result fmt flt s.wal c).mp hres)

/-- **A crash anywhere in a call** that purges behind the marker. -/
theorem Inv.crash_keepsTail (h : s.Inv fmt m purged) (hm : purged ≤ s.marker)
    {c : RaftCall Entry} (hc : s.Valid fmt c) (hp : s.PurgesPersisted c) (j : ℕ) :
    (s.crashAt fmt j c).KeepsTail fmt := by
  cases c with
  | persistEntries flt es =>
      rcases (h.tail.persistEntries flt hc).crashAt j with hold | ⟨-, hnew⟩
      · rw [crashAt, hold]
        exact h.tail.keepsTail hm
      · exact hnew.keepsTail hm
  | applyChunk flt chunk =>
      exact h.tail.keepsTail ((applyChunk_marks flt s.sm chunk).le hm h.applied j)
  | persistLastApplied flt =>
      exact h.tail.keepsTail ((persistLastApplied_marks flt s.sm).le hm h.applied j)
  | generateSnapshot dirErr flt l =>
      exact h.tail.keepsTail ((generateSnapshotData_marks dirErr flt s.sm l).le hm h.applied j)
  | purge flt c =>
      obtain ⟨later, hpurged, hle, hlater⟩ := exists_later purged c.index
      rcases (h.tail.purge flt hpurged hle).crashAt j with hold | ⟨hres, hnew⟩
      · rw [crashAt, hold]
        exact h.tail.keepsTail hm
      · apply hnew.keepsTail
        rcases hlater with rfl | rfl
        · exact hm
        · exact hp ((purge_result fmt flt s.wal c).mp hres)

/-- A purge beyond the marker is one that a crash right after it exposes. -/
theorem Inv.purgesPersisted (h : s.Inv fmt m purged) {c : RaftCall Entry}
    (hkeeps : ∀ j, (s.crashAt fmt j c).KeepsTail fmt) : s.PurgesPersisted c := by
  cases c with
  | purge flt c =>
      intro hflt
      have hres := (purge_result fmt flt s.wal c).mpr hflt
      have hrep := (h.tail.represents.purge flt c).after_ok hres
      have hcrash := hkeeps (s.wal.purge fmt flt c).effects.length
      rw [crashAt, Call.crashAt_length] at hcrash
      exact hrep.boundary_le_of_keepsTail hcrash rfl
  | _ => trivial

theorem run_inv {calls : List (RaftCall Entry)}
    (hcalls : Along (step fmt) (Valid fmt) fresh calls) :
    ∃ m purged, (runFrom (step fmt) fresh calls).Inv fmt m purged := by
  apply runFrom_invariant (I := fun s => ∃ m purged, s.Inv fmt m purged) _
    ⟨_, _, fresh_inv fmt⟩ hcalls
  rintro s c ⟨m, purged, hs⟩ hvalid
  obtain ⟨m', purged', hs', -⟩ := hs.step hvalid
  exact ⟨m', purged', hs'⟩

/-- Beyond the marker, but not up to the last entry: then an entry that recovery asks for
is gone, with the log going on after it. -/
theorem Inv.purge_loses_entry (h : s.Inv fmt m purged) {flt : Faults} {c : LogId}
    (hflt : ∀ n < 4, flt n = none) (hmarker : s.marker < c.index)
    (hcutoff : c.index ≤ s.sm.lastAppliedIndex) (hopen : s.sm.lastAppliedIndex < s.last) :
    ∃ j, ¬ (s.crashAt fmt j (.purge flt c)).KeepsTail fmt := by
  -- the crash comes right after the call, the missing index is the cutoff
  refine ⟨(s.wal.purge fmt flt c).effects.length, fun hkeeps => ?_⟩
  rw [crashAt, Call.crashAt_length] at hkeeps
  have hlt : c.index < s.last := UInt64.lt_of_le_of_lt hcutoff hopen
  have hstop : c.index < saturatingSucc c.index := by
    have hbelow := s.last.toNat_lt
    rw [UInt64.lt_iff_toNat_lt] at hlt ⊢
    rw [toNat_saturatingSucc]
    omega
  -- both directories, reopened right after the purge
  have hrep := (h.tail.represents.purge flt c).after_ok ((purge_result fmt flt s.wal c).mpr hflt)
  obtain ⟨wal, hwal⟩ := LmdbWal.new_noFaults (s.wal.after (s.wal.purge fmt flt c)).env
  obtain ⟨sm, hsm⟩ := new_noFaults s.sm.env
  obtain ⟨hentries, -⟩ := hkeeps Faults.none Faults.none wal sm hwal hsm
  obtain ⟨hwalEnv, hlast⟩ := LmdbWal.new_ok hwal
  have hmark : sm.lastAppliedIndex = s.marker := congrArg LogId.index (new_ok hsm).2.1
  have hreach : c.index ≤ wal.lastIndex := by
    obtain ⟨e, he⟩ := h.tail.filled.present s.last
      (UInt64.lt_of_le_of_lt h.applied hopen) (UInt64.le_refl _)
    have hkeep : ¬ s.last < saturatingSucc c.index := fun hlast =>
      UInt64.not_le.mpr hlt (le_of_lt_saturatingSucc hlast)
    rw [hlast]
    exact UInt64.le_trans (UInt64.le_of_lt hlt) (hrep.log.le_lastIndexOf ((if_neg hkeep).trans he))
  obtain ⟨e, he⟩ := hentries c.index (by rw [hmark]; exact hmarker) hreach
  rw [← hwalEnv] at hrep
  rw [(hrep.entry_answered Faults.none c.index).eq_ok] at he
  have hgone : (if c.index < saturatingSucc c.index then none else m.entries c.index) = some e :=
    Except.ok.inj he
  rw [if_pos hstop] at hgone
  cases hgone

end RaftNode

/-- **The log keeps what recovery needs exactly when it is purged behind the persisted
`last_applied`.** In every run from empty directories, with any storage operation
failing: recovery finds its entries wherever the process stops, in a call or between
two, if and only if no purge of the run goes beyond the marker it finds. -/
theorem purge_keepsTail_iff (fmt : Formats Entry HardState) {calls : List (RaftCall Entry)}
    (hcalls : Along (RaftNode.step fmt) (RaftNode.Valid fmt) RaftNode.fresh calls) :
    Along (RaftNode.step fmt) (fun s c => ∀ j, (s.crashAt fmt j c).KeepsTail fmt)
        RaftNode.fresh calls ↔
      Along (RaftNode.step fmt) RaftNode.PurgesPersisted RaftNode.fresh calls := by
  constructor
  · intro hkeeps
    apply Along.of_invariant (I := fun s => ∃ m purged, s.Inv fmt m purged) _
      ⟨_, _, RaftNode.fresh_inv fmt⟩ (hcalls.and hkeeps)
    rintro s c ⟨m, purged, hs⟩ ⟨hvalid, hcrash⟩
    obtain ⟨m', purged', hs', -⟩ := hs.step hvalid
    exact ⟨⟨m', purged', hs'⟩, hs.purgesPersisted hcrash⟩
  · intro hpurges
    apply Along.of_invariant (I := fun s => ∃ m purged, s.Inv fmt m purged ∧ purged ≤ s.marker) _
      ⟨_, _, RaftNode.fresh_inv fmt, UInt64.le_refl _⟩ (hcalls.and hpurges)
    rintro s c ⟨m, purged, hs, hm⟩ ⟨hvalid, hpurge⟩
    obtain ⟨m', purged', hs', hm'⟩ := hs.step hvalid
    exact ⟨⟨m', purged', hs', hm' hm hpurge⟩, hs.crash_keepsTail hm hvalid hpurge⟩

/-- Five entries persisted, three of them applied and in a snapshot; the `last_applied` in
memory is 3, the persisted one still 0. -/
def unpersistedCalls : List (RaftCall LogId) :=
  [.persistEntries Faults.none [⟨1, 1⟩, ⟨2, 1⟩, ⟨3, 1⟩, ⟨4, 1⟩, ⟨5, 1⟩],
    .applyChunk Faults.none [⟨1, 1, .noop⟩, ⟨2, 1, .noop⟩, ⟨3, 1, .noop⟩],
    .generateSnapshot none Faults.none ⟨3, 1⟩]

/-- A purge up to 3 then removes entries that recovery, starting over at 1, asks for. -/
theorem purge_loses_unpersisted :
    let calls := unpersistedCalls ++ [.purge Faults.none ⟨3, 1⟩]
    Along (RaftNode.step plainFormats) (RaftNode.Valid plainFormats) RaftNode.fresh calls ∧
      ¬ Along (RaftNode.step plainFormats)
        (fun s c => ∀ j, (s.crashAt plainFormats j c).KeepsTail plainFormats)
        RaftNode.fresh calls := by
  intro calls
  refine ⟨by decide, fun hkeeps => ?_⟩
  have hvalid : Along (RaftNode.step plainFormats) (RaftNode.Valid plainFormats) RaftNode.fresh
      unpersistedCalls := by decide
  obtain ⟨-, hpurge, -⟩ := along_append.mp hkeeps
  obtain ⟨m, purged, hinv⟩ := RaftNode.run_inv hvalid
  have hflt : ∀ n < 4, Faults.none n = none := fun _ _ => rfl
  obtain ⟨j, hj⟩ := hinv.purge_loses_entry (c := ⟨3, 1⟩) hflt (by decide) (by decide) (by decide)
  exact hj (hpurge j)

/-- The same run with `last_applied` persisted before the purge: it can crash anywhere. -/
theorem purge_keepsTail_persisted :
    let calls := unpersistedCalls ++ [.persistLastApplied Faults.none, .purge Faults.none ⟨3, 1⟩]
    Along (RaftNode.step plainFormats)
      (fun s c => ∀ j, (s.crashAt plainFormats j c).KeepsTail plainFormats)
      RaftNode.fresh calls := by
  intro calls
  have hvalid : Along (RaftNode.step plainFormats) (RaftNode.Valid plainFormats) RaftNode.fresh
      calls := by decide
  apply (purge_keepsTail_iff plainFormats hvalid).mpr
  refine ⟨trivial, trivial, trivial, trivial, ?_, trivial⟩
  intro _
  decide

end DLmdb
