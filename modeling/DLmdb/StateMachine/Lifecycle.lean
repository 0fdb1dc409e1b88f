import DLmdb.Framework.Runs
import DLmdb.StateMachine.Failures

/-!
# The life of a state machine

Calls follow each other, a process ends by a clean drop or in the middle of a call, and
the directory is opened again. A history keeps beside the state machine what its calls
have recorded: the snapshot metadata last recorded since a reset, and the entries that
were applied. The metadata lives in memory only, and so does the term cache.
-/

namespace DLmdb

open Framework Lmdb

/-! ## The code -/

/-- `LmdbStateMachine::reset`. -/
def resetStateMachine (flt : Faults) (sm : LmdbStateMachine) : SmCall Unit := do
  let env ← smLmdb do
    let wtxn ← Txn.begin flt sm.env
    let wtxn ← wtxn.clear .kvDb
    let wtxn ← wtxn.clear .metaDb
    let wtxn ← wtxn.clear .internalDb
    wtxn.commit
  Call.emit (.commit env)
  Call.emit (.storeLastAppliedIndex 0)
  Call.emit (.storeLastAppliedTerm 0)
  Call.emit (.setSnapshotMeta none)
  Call.emit .clearEntryTerms

/-- `drop`: an error is logged, and that is all. -/
def dropStateMachine (flt : Faults) (sm : LmdbStateMachine) : SmCall Unit := do
  let logId := sm.lastApplied
  let _result ← (persistLastApplied flt sm logId).attempt
  return ()

/-- The calls that change a state machine. -/
inductive SmOp where
  | applyChunk (flt : Faults) (chunk : List ApplyEntry)
  | generateSnapshotData (dirErr : Option String) (flt : Faults) (lastIncluded : LogId)
  | applySnapshotFromFile (task : TaskEnd) (snapFlt flt : Faults) (metadata : SnapshotMetadata)
      (snapshotPath : SnapshotFile)
  | persistLastSnapshotMetadata (metadata : SnapshotMetadata)
  | persistLastApplied (flt : Faults) (lastApplied : LogId)
  | reset (flt : Faults)

namespace SmOp

def call (sm : LmdbStateMachine) : SmOp → SmCall Unit
  | .applyChunk flt chunk => (DLmdb.applyChunk flt sm chunk).ignore
  | .generateSnapshotData dirErr flt lastIncluded =>
      (DLmdb.generateSnapshotData dirErr flt sm.env lastIncluded).ignore
  | .applySnapshotFromFile task snapFlt flt metadata snapshotPath =>
      DLmdb.applySnapshotFromFile task snapFlt flt sm metadata snapshotPath
  | .persistLastSnapshotMetadata metadata => DLmdb.persistLastSnapshotMetadata metadata
  | .persistLastApplied flt lastApplied => DLmdb.persistLastApplied flt sm lastApplied
  | .reset flt => resetStateMachine flt sm

def succeeds (sm : LmdbStateMachine) (op : SmOp) : Bool := (op.call sm).result.isOk

/-- The metadata the call records, if it succeeds. -/
def metadata : SmOp → Option SnapshotMetadata
  | .generateSnapshotData _ _ lastIncluded => some ⟨some lastIncluded, List.replicate 32 0⟩
  | .applySnapshotFromFile _ _ _ metadata _ => some metadata
  | .persistLastSnapshotMetadata metadata => some metadata
  | _ => none

/-- The entries the call applies, if it succeeds. -/
def entries : SmOp → List ApplyEntry
  | .applyChunk _ chunk => chunk
  | _ => []

def isReset : SmOp → Bool
  | .reset _ => true
  | _ => false

end SmOp

/-- How a process ends: a clean drop, or in the middle of a call, after its first `j`
effects. -/
inductive Stop where
  | drop (flt : Faults)
  | crash (op : SmOp) (j : ℕ)

/-- The directory the process leaves behind. -/
def Stop.leaves (sm : LmdbStateMachine) : Stop → SmEnv
  | .drop flt => (sm.after (dropStateMachine flt sm)).env
  | .crash op j => ((op.call sm).crashAt LmdbStateMachine.exec sm j).env

/-- What `new` makes of a directory. -/
def reopened (env : SmEnv) : LmdbStateMachine where
  env := env
  running := true
  lastAppliedIndex := (recoveredLastApplied env).index
  lastAppliedTerm := (recoveredLastApplied env).term
  entryTerms := ∅
  snapshotMeta := none

/-! ## Histories -/

structure History where
  sm : LmdbStateMachine
  recorded : Option SnapshotMetadata
  applied : List ApplyEntry

/-- A `new` that fails leaves the directory alone and can be tried again: a restart goes
on with the one that succeeds. -/
inductive SmEvent where
  | run (op : SmOp)
  | restart (stop : Stop)

namespace History

/-- A directory just opened. -/
def start (env : SmEnv) : History := ⟨reopened env, none, []⟩

/-- The event is a call that succeeds, and records this. -/
def records (h : History) : SmEvent → Option SnapshotMetadata
  | .run op => if op.succeeds h.sm then op.metadata else none
  | .restart _ => none

/-- The event is a reset that succeeds. -/
def resets (h : History) : SmEvent → Bool
  | .run op => op.isReset && op.succeeds h.sm
  | .restart _ => false

def appliesNow (h : History) : SmEvent → List ApplyEntry
  | .run op => if op.succeeds h.sm then op.entries else []
  | .restart _ => []

/-- The state machine after the event. -/
def smAfter (h : History) : SmEvent → LmdbStateMachine
  | .run op => h.sm.after (op.call h.sm)
  | .restart stop => reopened (stop.leaves h.sm)

def step (h : History) (e : SmEvent) : History where
  sm := h.smAfter e
  recorded := if h.resets e then none else (h.records e).or h.recorded
  applied := h.applied ++ h.appliesNow e

end History

/-! ## What the calls do to the fields in memory -/

theorem resetStateMachine_cases (flt : Faults) (sm : LmdbStateMachine) :
    (∃ env, resetStateMachine flt sm =
        ⟨[.commit env, .storeLastAppliedIndex 0, .storeLastAppliedTerm 0, .setSnapshotMeta none,
          .clearEntryTerms], .ok ()⟩ ∧ ∀ d, env d = ∅) ∨
    ∃ e, resetStateMachine flt sm = ⟨[], .error e⟩ := by
  unfold resetStateMachine
  rcases smLmdb_bind _ _ with ⟨env, hx, hcall⟩ | ⟨e, hcall⟩
  · refine Or.inl ⟨env, hcall, ?_⟩
    obtain ⟨t₀, h₀, hx⟩ := bind_eq_ok.mp hx
    obtain ⟨t₁, h₁, hx⟩ := bind_eq_ok.mp hx
    obtain ⟨t₂, h₂, hx⟩ := bind_eq_ok.mp hx
    obtain ⟨t₃, h₃, hx⟩ := bind_eq_ok.mp hx
    rw [Txn.commit_ok hx, (Txn.clear_ok h₃).env, (Txn.clear_ok h₂).env, (Txn.clear_ok h₁).env]
    intro d
    cases d <;> simp
  · exact Or.inr ⟨e, hcall⟩

/-- A call that succeeded has recorded its metadata, and left the term cache empty or
with the terms of its entries. -/
structure Remembers (sm sm' : LmdbStateMachine) (op : SmOp) : Prop where
  snapshotMeta : sm'.snapshotMeta = if op.isReset then none else op.metadata.or sm.snapshotMeta
  entryTerms : sm'.entryTerms = ∅ ∨ sm'.entryTerms = cacheTerms sm.entryTerms op.entries

/-- One that failed has recorded nothing; but a chunk may have cached terms. -/
structure Forgets (sm sm' : LmdbStateMachine) (op : SmOp) : Prop where
  snapshotMeta : sm'.snapshotMeta = sm.snapshotMeta
  entryTerms : sm'.entryTerms = sm.entryTerms ∨ ∃ flt chunk, op = .applyChunk flt chunk ∧
    sm'.entryTerms = cacheTerms sm.entryTerms (doneBeforeFailure flt sm chunk)

theorem SmOp.succeeds_applyChunk (sm : LmdbStateMachine) (flt : Faults)
    (chunk : List ApplyEntry) :
    (SmOp.applyChunk flt chunk).succeeds sm = (DLmdb.applyChunk flt sm chunk).result.isOk :=
  Call.isOk_ignore _

theorem installed_memory (sm : LmdbStateMachine) {task : TaskEnd} {snapFlt flt : Faults}
    {metadata : SnapshotMetadata} {file : SnapshotFile} :
    let op := SmOp.applySnapshotFromFile task snapFlt flt metadata file
    (op.succeeds sm = true ∧ Remembers sm (sm.after (op.call sm)) op) ∨
      op.succeeds sm = false ∧ Forgets sm (sm.after (op.call sm)) op := by
  intro op
  cases hr : (applySnapshotFromFile task snapFlt flt sm metadata file).result with
  | ok u =>
      obtain ⟨db, -, hinst⟩ := applySnapshotFromFile_installed hr
      refine Or.inl ⟨?_, hinst.snapshotMeta, Or.inl hinst.entryTerms⟩
      show (applySnapshotFromFile task snapFlt flt sm metadata file).result.isOk = true
      rw [hr]
      rfl
  | error e =>
      refine Or.inr ⟨?_, ?_⟩
      · show (applySnapshotFromFile task snapFlt flt sm metadata file).result.isOk = false
        rw [hr]
        rfl
      · have hafter : sm.after (op.call sm) =
            (applySnapshotFromFile task snapFlt flt sm metadata file).effects.foldl
              LmdbStateMachine.exec sm := rfl
        rw [hafter]
        rcases applySnapshotFromFile_error hr with ⟨-, heff⟩ | ⟨-, heff | ⟨env, heff⟩⟩
        · rw [heff]
          exact ⟨rfl, Or.inl rfl⟩
        · rw [heff]
          exact ⟨rfl, Or.inl rfl⟩
        · rw [heff]
          exact ⟨rfl, Or.inl rfl⟩

/-- **What a call does to the fields in memory that a restart loses.** -/
theorem SmOp.after_memory (sm : LmdbStateMachine) (op : SmOp) :
    (op.succeeds sm = true ∧ Remembers sm (sm.after (op.call sm)) op) ∨
      op.succeeds sm = false ∧ Forgets sm (sm.after (op.call sm)) op := by
  cases op with
  | applyChunk flt chunk =>
      cases hr : (DLmdb.applyChunk flt sm chunk).result with
      | ok rs =>
          have happ := applyChunk_applied hr
          refine Or.inl ⟨?_, happ.snapshotMeta, Or.inr happ.entryTerms⟩
          rw [succeeds_applyChunk, hr]
          rfl
      | error e =>
          have hafter : sm.after ((SmOp.applyChunk flt chunk).call sm) =
              { sm with entryTerms := cacheTerms sm.entryTerms (doneBeforeFailure flt sm chunk) } :=
            applyChunk_failed_after hr
          rw [hafter]
          refine Or.inr ⟨?_, rfl, Or.inr ⟨flt, chunk, rfl, rfl⟩⟩
          rw [succeeds_applyChunk, hr]
          rfl
  | generateSnapshotData dirErr flt lastIncluded =>
      simp only [succeeds, call]
      rcases generateSnapshotData_cases dirErr flt sm.env lastIncluded with ⟨out, h⟩ | ⟨e, h⟩
      · rw [h]
        exact Or.inl ⟨rfl, rfl, Or.inr rfl⟩
      · rw [h]
        exact Or.inr ⟨rfl, rfl, Or.inl rfl⟩
  | applySnapshotFromFile task snapFlt flt metadata snapshotPath => exact installed_memory sm
  | persistLastSnapshotMetadata metadata => exact Or.inl ⟨rfl, rfl, Or.inr rfl⟩
  | persistLastApplied flt lastApplied =>
      simp only [succeeds, call]
      rcases persistLastApplied_cases flt sm lastApplied with ⟨env, h, -⟩ | ⟨e, h⟩
      · rw [h]
        exact Or.inl ⟨rfl, rfl, Or.inr rfl⟩
      · rw [h]
        exact Or.inr ⟨rfl, rfl, Or.inl rfl⟩
  | reset flt =>
      simp only [succeeds, call]
      rcases resetStateMachine_cases flt sm with ⟨env, h, -⟩ | ⟨e, h⟩
      · rw [h]
        exact Or.inl ⟨rfl, rfl, Or.inl rfl⟩
      · rw [h]
        exact Or.inr ⟨rfl, rfl, Or.inl rfl⟩

/-! ## Snapshot metadata -/

namespace History

/-- While the process runs, the metadata in memory is what was recorded. -/
def InMemory (h : History) : Prop := h.sm.snapshotMeta = h.recorded

theorem InMemory.step {h : History} (hm : h.InMemory) (op : SmOp) :
    (h.step (.run op)).InMemory := by
  show (h.sm.after (op.call h.sm)).snapshotMeta = _
  rcases op.after_memory h.sm with ⟨hok, hmem⟩ | ⟨hok, hmem⟩
  · rw [hmem.snapshotMeta, hm]
    cases hreset : op.isReset <;> simp [History.step, resets, records, hok, hreset]
  · rw [hmem.snapshotMeta, hm]
    simp [History.step, resets, records, hok]

/-- In one process, after any calls. -/
theorem inMemory_of_calls (env : SmEnv) (ops : List SmOp) :
    (runFrom History.step (start env) (ops.map .run)).InMemory := by
  induction ops using List.reverseRecOn with
  | nil => rfl
  | append_singleton ops op ih =>
      rw [List.map_append, runFrom, List.foldl_append]
      exact InMemory.step ih op

theorem recorded_step_iff (h : History) (e : SmEvent) :
    (h.step e).recorded = none ↔ h.resets e = true ∨ h.recorded = none ∧ ¬ h.records e ≠ none := by
  show (if h.resets e then none else (h.records e).or h.recorded) = none ↔ _
  cases hreset : h.resets e <;> cases hrec : h.records e <;> simp

/-- A reset records nothing. -/
theorem not_records_of_resets (h : History) (e : SmEvent) (hreset : h.resets e = true) :
    ¬ h.records e ≠ none := by
  cases e with
  | run op =>
      cases op with
      | reset flt => simp [records, SmOp.metadata]
      | _ => cases hreset
  | restart stop => cases hreset

end History

/-- A `new` that succeeds, on any directory. -/
theorem eq_reopened_of_new {flt : Faults} {env : SmEnv} {sm : LmdbStateMachine}
    (h : LmdbStateMachine.new flt env = .ok sm) : sm = reopened env := by
  obtain ⟨henv, hlast, hmeta, hterms, hrunning⟩ := new_ok h
  obtain ⟨env', running, index, term, terms, snap⟩ := sm
  dsimp only at henv hmeta hterms hrunning
  subst henv hmeta hterms hrunning
  rw [reopened, ← hlast]
  rfl

/-- **Recorded metadata survives exactly where there is none**: a node that is opened again
has no snapshot metadata, so it agrees with what was recorded just when every
recording was followed by a reset. -/
theorem snapshot_metadata_survives_iff (env : SmEnv) (es : List SmEvent) (stop : Stop) :
    let h := runFrom History.step (History.start env) es
    (∀ openFlt sm', LmdbStateMachine.new openFlt (stop.leaves h.sm) = .ok sm' →
        sm'.snapshotMeta = h.recorded) ↔
      Followed History.step (fun h e => h.records e ≠ none) (fun h e => h.resets e = true)
        (History.start env) es := by
  intro h
  have hnone : (∀ openFlt sm', LmdbStateMachine.new openFlt (stop.leaves h.sm) = .ok sm' →
      sm'.snapshotMeta = h.recorded) ↔ h.recorded = none := by
    constructor
    · intro hall
      obtain ⟨sm', hnew⟩ := new_noFaults (stop.leaves h.sm)
      rw [← hall Faults.none sm' hnew, eq_reopened_of_new hnew]
      rfl
    · intro hrec openFlt sm' hnew
      rw [hrec, eq_reopened_of_new hnew]
      rfl
  rw [hnone]
  have hrun : (runFrom History.step (History.start env) es).recorded = none ↔ _ :=
    runFrom_iff_followed (I := fun h : History => h.recorded = none) History.recorded_step_iff
      History.not_records_of_resets
  exact hrun.trans (and_iff_right (Or.inl rfl))

/-- Metadata is persisted, the node is dropped and opened again: the metadata is gone. -/
theorem snapshot_metadata_lost :
    let m : SnapshotMetadata := ⟨some ⟨3, 1⟩, List.replicate 32 0⟩
    let h := runFrom History.step (History.start emptyEnv) [.run (.persistLastSnapshotMetadata m)]
    h.recorded = some m ∧
      ∃ sm', LmdbStateMachine.new Faults.none ((Stop.drop Faults.none).leaves h.sm) = .ok sm' ∧
        sm'.snapshotMeta = none := by
  intro m h
  refine ⟨rfl, ?_⟩
  obtain ⟨sm', hnew⟩ := new_noFaults ((Stop.drop Faults.none).leaves h.sm)
  exact ⟨sm', hnew, (new_ok hnew).2.2.1⟩

/-! ## The term cache -/

namespace History

/-- Every cached term is that of an entry that was applied. -/
def CachesApplied (h : History) : Prop :=
  ∀ index term, h.sm.entryTerms[index]? = some term →
    ∃ e ∈ h.applied, e.index = index ∧ e.term = term

/-- A chunk that fails finds the terms of the entries before its failure in the cache. -/
def FailsUnnoticed (h : History) : SmEvent → Prop
  | .run (.applyChunk flt chunk) => ∀ err, (applyChunk flt h.sm chunk).result = .error err →
      AlreadyCached h.sm.entryTerms (doneBeforeFailure flt h.sm chunk)
  | _ => True

theorem CachesApplied.of_same {h h' : History} (hc : h.CachesApplied)
    (hterms : h'.sm.entryTerms = h.sm.entryTerms) (happ : ∀ e ∈ h.applied, e ∈ h'.applied) :
    h'.CachesApplied := by
  intro index term hget
  rw [hterms] at hget
  obtain ⟨e, he, hidx⟩ := hc index term hget
  exact ⟨e, happ e he, hidx⟩

theorem CachesApplied.of_empty {h : History} (hterms : h.sm.entryTerms = ∅) :
    h.CachesApplied := by
  intro index term hget
  rw [hterms] at hget
  simp at hget

theorem CachesApplied.step {h : History} (hc : h.CachesApplied) {e : SmEvent}
    (he : h.FailsUnnoticed e) : (h.step e).CachesApplied := by
  have happ : ∀ e' ∈ h.applied, e' ∈ (h.step e).applied :=
    fun e' he' => List.mem_append_left _ he'
  cases e with
  | restart stop => exact CachesApplied.of_empty rfl
  | run op =>
      rcases op.after_memory h.sm with ⟨hok, hmem⟩ | ⟨hfail, hmem⟩
      · rcases hmem.entryTerms with hempty | hcached
        · exact CachesApplied.of_empty hempty
        · intro index term hget
          have hsm : (h.step (.run op)).sm = h.sm.after (op.call h.sm) := rfl
          rw [hsm, hcached, getElem?_cacheTerms] at hget
          have happlied : (h.step (.run op)).applied = h.applied ++ op.entries := by
            simp [History.step, appliesNow, hok]
          rw [happlied]
          cases hlast : lastTerm op.entries index with
          | none =>
              rw [hlast] at hget
              obtain ⟨e, hmem, hidx⟩ := hc index term hget
              exact ⟨e, List.mem_append_left _ hmem, hidx⟩
          | some t =>
              rw [hlast] at hget
              obtain ⟨e, hmem, hidx, hterm⟩ := mem_of_lastTerm hlast
              exact ⟨e, List.mem_append_right _ hmem, hidx, hterm.trans (Option.some.inj hget)⟩
      · rcases hmem.entryTerms with hsame | ⟨flt, chunk, rfl, hcached⟩
        · exact hc.of_same hsame happ
        · -- a chunk that failed: by assumption it cached nothing new
          refine hc.of_same (hcached.trans ?_) happ
          cases hr : (applyChunk flt h.sm chunk).result with
          | ok rs =>
              rw [SmOp.succeeds_applyChunk, hr] at hfail
              cases hfail
          | error err => exact cacheTerms_eq_iff.mpr (he err hr)

end History

/-- **A failed chunk is all or nothing exactly when the cache already had the terms of the
entries before the failure.** In a run where every failing chunk is like that, the cache
only ever holds terms of entries that were applied. -/
theorem apply_chunk_all_or_nothing_iff {flt : Faults} {sm : LmdbStateMachine}
    {chunk : List ApplyEntry} {err : EngineError}
    (h : (applyChunk flt sm chunk).result = .error err) :
    (sm.after (applyChunk flt sm chunk) = sm ↔
        AlreadyCached sm.entryTerms (doneBeforeFailure flt sm chunk)) ∧
      ∀ env es, Along History.step History.FailsUnnoticed (History.start env) es →
        (runFrom History.step (History.start env) es).CachesApplied := by
  refine ⟨applyChunk_undone_iff h, ?_⟩
  intro env es hes
  have hstart : (History.start env).CachesApplied := History.CachesApplied.of_empty rfl
  exact runFrom_invariant (fun h e hc he => hc.step he) hstart hes

/-- A chunk whose first entry fails, on a fresh node. -/
theorem apply_chunk_all_or_nothing_at :
    let chunk : List ApplyEntry := [⟨1, 1, .insert [] [0] none⟩]
    freshStateMachine.after (applyChunk Faults.none freshStateMachine chunk) = freshStateMachine ↔
      AlreadyCached freshStateMachine.entryTerms
        (doneBeforeFailure Faults.none freshStateMachine chunk) := by
  have hfails : (applyChunk Faults.none freshStateMachine
      [⟨1, 1, .insert [] [0] none⟩]).result = .error (lmdbErr .badValSize) := by decide
  exact (apply_chunk_all_or_nothing_iff hfails).1

/-- The map is full at the second entry of a chunk: the chunk fails, and the term of its
first entry stays cached. -/
theorem failed_chunk_leaves_term :
    let flt : Faults := fun n => if n = 2 then some (.other "MDB_MAP_FULL") else none
    let c := applyChunk flt freshStateMachine
      [⟨1, 1, .insert [97] [0, 1] none⟩, ⟨2, 1, .insert [98] [0, 2] none⟩]
    c.result = .error (lmdbErr (.other "MDB_MAP_FULL")) ∧
      freshStateMachine.entryTerms[(1 : UInt64)]? = none ∧
      (freshStateMachine.after c).entryTerms[(1 : UInt64)]? = some 1 ∧
      freshStateMachine.after c ≠ freshStateMachine := by
  intro flt c
  have hafter : (freshStateMachine.after c).entryTerms[(1 : UInt64)]? = some 1 := by decide
  refine ⟨by decide, by decide, hafter, ?_⟩
  intro hsame
  rw [hsame] at hafter
  cases hafter

end DLmdb
