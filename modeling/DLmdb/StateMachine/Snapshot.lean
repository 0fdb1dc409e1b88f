import DLmdb.StateMachine.Apply

/-!
# Generating and installing a snapshot

`generate_snapshot_data` copies the environment to a file, under a `last_included`
its caller chose beforehand. `apply_snapshot_from_file` stops serving, hands the
restore to a blocking task (one write transaction: clear `kv_db`, copy the
snapshot's pairs, put `last_applied`), and then updates the fields in memory.
-/

namespace DLmdb

open Framework Lmdb

/-! ## The code -/

/-- The environment found under a snapshot path, with the databases it has. -/
abbrev SnapshotFile := SmDb → Option Database

/-- `.map_err(|e| EngineError::Fatal(e.to_string()))` -/
def fatalErr (e : HeedError) : EngineError := .fatal e.text

def smFatal {α : Type} (x : Except HeedError α) : SmCall α := .ofExcept (x.mapError fatalErr)

/-- `env.copy_to_file`: all the databases, as committed at that moment. -/
def copyToFile (flt : Faults) (env : SmEnv) : Except HeedError SnapshotFile := do
  let rtxn ← Txn.begin flt env
  return fun d => some (rtxn.env d)

def persistLastSnapshotMetadata (m : SnapshotMetadata) : SmCall Unit :=
  Call.emit (.setSnapshotMeta (some m))

/-- `generate_snapshot_data`, where `dirErr` is the error of creating the directory, if
any, and `env` is what the environment holds when the copy is taken: other calls
may run between the choice of `last_included` and that moment. It returns the
checksum and leaves the file behind. -/
def generateSnapshotData (dirErr : Option String) (flt : Faults) (env : SmEnv)
    (lastIncluded : LogId) : SmCall (Bytes × SnapshotFile) := do
  match dirErr with
  | some text => Call.ofExcept (.error (.fatal text))
  | none => pure ()
  let snapshotFile ← smFatal (copyToFile flt env)
  -- a placeholder: nothing is computed from the file
  let checksum : Bytes := List.replicate 32 0
  persistLastSnapshotMetadata ⟨some lastIncluded, checksum⟩
  return (checksum, snapshotFile)

/-- The copy loop: an item from the snapshot's cursor, a `put`. -/
def copyItems : List (Bytes × Bytes) → Txn SmDb → Txn SmDb → Except HeedError (Txn SmDb)
  | [], _, wtxn => .ok wtxn
  | (k, v) :: items, snapRtxn, wtxn => do
      let snapRtxn ← snapRtxn.tick
      let wtxn ← wtxn.put .kvDb k v
      copyItems items snapRtxn wtxn

/-- `if let Some(last) = metadata.last_included` -/
def putLastIncluded (wtxn : Txn SmDb) : Option LogId → Except HeedError (Txn SmDb)
  | some last => putLastApplied wtxn last
  | none => .ok wtxn

/-- `restore_blocking`: `snapFlt` are the faults of the snapshot's environment (opening
it is its first operation), `flt` those of the node's own. -/
def restoreBlocking (snapFlt flt : Faults) (env : SmEnv) (metadata : SnapshotMetadata)
    (snapshotPath : SnapshotFile) : SmCall Unit := do
  let snapRtxn ← smFatal do
    let snapEnv ← Txn.begin snapFlt (fun d => (snapshotPath d).getD ∅)
    let snapRtxn ← snapEnv.tick
    snapRtxn.tick
  let snapKv ← Call.ofExcept <|
    match snapshotPath .kvDb with
    | some db => .ok db
    | none => .error (.fatal "snapshot missing kv database")
  let env ← smFatal do
    let wtxn ← Txn.begin flt env
    let wtxn ← wtxn.clear .kvDb
    -- the cursor over the snapshot
    let snapRtxn ← snapRtxn.tick
    let wtxn ← copyItems snapKv.toList snapRtxn wtxn
    let wtxn ← putLastIncluded wtxn metadata.lastIncluded
    wtxn.commit
  Call.emit (.commit env)

/-- How the blocking task ended: by itself, or, after its first `j` effects, by a panic
or a cancellation. -/
inductive TaskEnd where
  | returned
  | died (text : String) (j : ℕ)

/-- `spawn_blocking(..).await.map_err(..)`: the task's own result is a value. -/
def spawnBlocking {α : Type} (task : TaskEnd) (c : SmCall α) : SmCall (Except EngineError α) :=
  match task with
  | .returned => c.attempt
  | .died text j => c.stoppedAt j (.fatal text)

/-- The stores of `last_applied`, when the metadata names it. -/
def storeLastIncluded : Option LogId → SmCall Unit
  | some last => do
      Call.emit (.storeLastAppliedIndex last.index)
      Call.emit (.storeLastAppliedTerm last.term)
  | none => pure ()

def applySnapshotFromFile (task : TaskEnd) (snapFlt flt : Faults) (sm : LmdbStateMachine)
    (metadata : SnapshotMetadata) (snapshotPath : SnapshotFile) : SmCall Unit := do
  Call.emit (.storeRunning false)
  let result ← spawnBlocking task (restoreBlocking snapFlt flt sm.env metadata snapshotPath)
  match result with
  | .ok () =>
      storeLastIncluded metadata.lastIncluded
      Call.emit (.setSnapshotMeta (some metadata))
      Call.emit .clearEntryTerms
  | .error _ => pure ()
  Call.emit (.storeRunning true)
  Call.ofExcept result

/-! ## The copied file -/

theorem copyToFile_ok {flt : Faults} {env : SmEnv} {file : SnapshotFile}
    (h : copyToFile flt env = .ok file) : file = fun d => some (env d) := by
  obtain ⟨t, ht, h⟩ := bind_eq_ok.mp h
  rw [← (Txn.begin_ok ht).1]
  exact (Except.ok.inj h).symm

/-- **A generated snapshot** holds the environment as it was when it was copied. -/
theorem generateSnapshotData_ok {dirErr : Option String} {flt : Faults} {env : SmEnv}
    {l : LogId} {checksum : Bytes} {file : SnapshotFile}
    (h : (generateSnapshotData dirErr flt env l).result = .ok (checksum, file)) :
    file = fun d => some (env d) := by
  cases dirErr with
  | some text => cases h
  | none =>
      obtain ⟨-, -, h⟩ := Call.result_bind_eq_ok.mp h
      obtain ⟨file', hfile, h⟩ := Call.result_bind_eq_ok.mp h
      obtain ⟨-, -, h⟩ := Call.result_bind_eq_ok.mp h
      cases h
      rw [smFatal, Call.result_ofExcept, mapError_eq_ok] at hfile
      exact copyToFile_ok hfile

/-- The metadata of a snapshot is all a node keeps of it, in memory. -/
theorem generateSnapshotData_cases (dirErr : Option String) (flt : Faults) (env : SmEnv)
    (l : LogId) :
    (∃ out, generateSnapshotData dirErr flt env l =
      ⟨[.setSnapshotMeta (some ⟨some l, List.replicate 32 0⟩)], .ok out⟩) ∨
    ∃ e, generateSnapshotData dirErr flt env l = ⟨[], .error e⟩ := by
  cases dirErr with
  | some text => exact Or.inr ⟨_, rfl⟩
  | none =>
      unfold generateSnapshotData
      cases copyToFile flt env with
      | error e => exact Or.inr ⟨_, rfl⟩
      | ok file => exact Or.inl ⟨_, rfl⟩

/-! ## The restore transaction -/

/-- The copy loop puts the items one by one. -/
theorem copyItems_wrote {items : List (Bytes × Bytes)} {snapRtxn t t' : Txn SmDb}
    (h : copyItems items snapRtxn t = .ok t') : Wrote t t' (copyWrites items) := by
  induction items generalizing snapRtxn t with
  | nil =>
      cases h
      exact Wrote.refl _
  | cons e items ih =>
      obtain ⟨k, v⟩ := e
      obtain ⟨rtxn, -, h⟩ := bind_eq_ok.mp h
      obtain ⟨t₁, h₁, h₂⟩ := bind_eq_ok.mp h
      obtain ⟨-, hw⟩ := put_wrote h₁
      exact hw.trans (ih h₂)

/-- Copying a whole database into a cleared one gives its contents. -/
theorem run_copyWrites_toList (db : Database) :
    Contents.run (fun _ => none) (copyWrites db.toList) = db.get := by
  have hd : db.toList.Pairwise (fun a b => a.1 ≠ b.1) := by
    refine db.toList_sorted.imp ?_
    intro a b hlt heq
    have hself : compare b.1 b.1 = .eq := Std.ReflCmp.compare_self
    rw [heq, hself] at hlt
    cases hlt
  ext k : 1
  cases hk : db.get k with
  | none =>
      refine run_copyWrites_of_not_mem _ ?_
      intro v hv
      rw [Database.mem_toList, hk] at hv
      cases hv
  | some v => exact run_copyWrites_of_mem _ hd (Database.mem_toList.mpr hk)

theorem smFatal_bind {α β : Type} (x : Except HeedError α) (f : α → SmCall β) :
    (∃ a, x = .ok a ∧ (smFatal x >>= f) = f a) ∨ ∃ e, (smFatal x >>= f) = ⟨[], .error e⟩ :=
  Call.mapError_bind_cases fatalErr x f

theorem putLastIncluded_ok {t t' : Txn SmDb} {last : Option LogId}
    (h : putLastIncluded t last = .ok t') :
    (∀ d, d ≠ SmDb.metaDb → t'.env d = t.env d) ∧
      recoveredLastApplied t'.env = last.getD (recoveredLastApplied t.env) := by
  cases last with
  | some l => exact putLastApplied_ok h
  | none =>
      cases h
      exact ⟨fun _ _ => rfl, rfl⟩

/-- The transaction of the restore, once it commits: `kv_db` is the snapshot's, and
`last_applied` the declared one. -/
structure Restored (env env' : SmEnv) (kv : Database) (last : Option LogId) : Prop where
  kv : env' .kvDb = kv
  internal : env' .internalDb = env .internalDb
  marker : recoveredLastApplied env' = last.getD (recoveredLastApplied env)

/-- **One commit or none.** -/
theorem restoreBlocking_cases (snapFlt flt : Faults) (env : SmEnv) (metadata : SnapshotMetadata)
    (file : SnapshotFile) :
    (∃ db env', file .kvDb = some db ∧
      restoreBlocking snapFlt flt env metadata file = ⟨[.commit env'], .ok ()⟩ ∧
      Restored env env' db metadata.lastIncluded) ∨
    ∃ e, restoreBlocking snapFlt flt env metadata file = ⟨[], .error e⟩ := by
  unfold restoreBlocking
  rcases smFatal_bind _ _ with ⟨snapRtxn, -, hcall⟩ | ⟨e, hcall⟩
  swap
  · exact Or.inr ⟨e, hcall⟩
  rw [hcall]
  cases hfile : file .kvDb with
  | none => exact Or.inr ⟨_, rfl⟩
  | some db =>
      simp only [Call.ok_bind]
      rcases smFatal_bind _ _ with ⟨env', hx, hcall⟩ | ⟨e, hcall⟩
      swap
      · exact Or.inr ⟨e, hcall⟩
      refine Or.inl ⟨db, env', rfl, hcall, ?_⟩
      obtain ⟨t₀, h₀, hx⟩ := bind_eq_ok.mp hx
      obtain ⟨t₁, h₁, hx⟩ := bind_eq_ok.mp hx
      obtain ⟨rtxn, -, hx⟩ := bind_eq_ok.mp hx
      obtain ⟨t₂, h₂, hx⟩ := bind_eq_ok.mp hx
      obtain ⟨t₃, h₃, hx⟩ := bind_eq_ok.mp hx
      have henv : t₀.env = env := (Txn.begin_ok h₀).1
      have hclear := (Txn.clear_ok h₁).env
      have hcopy := copyItems_wrote h₂
      obtain ⟨hframe, hmark⟩ := putLastIncluded_ok h₃
      rw [Txn.commit_ok hx]
      -- clear, copy, put: what each leaves in the three databases
      refine ⟨?_, ?_, ?_⟩
      · apply Database.ext_get
        intro k
        have hempty : (t₁.env .kvDb).get = fun _ => none := by
          ext k : 1
          rw [hclear, Function.update_self, Database.get_empty]
        rw [hframe .kvDb (by decide), hcopy.kv, hempty, run_copyWrites_toList]
      · rw [hframe .internalDb (by decide), hcopy.other _ (by decide), hclear,
          Function.update_of_ne (by decide), henv]
      · have hmeta : t₂.env .metaDb = env .metaDb := by
          rw [hcopy.other _ (by decide), hclear, Function.update_of_ne (by decide), henv]
        rw [hmark]
        congr 1
        rw [recoveredLastApplied, recoveredLastApplied, hmeta]

/-! ## The whole call -/

theorem commits_cons_other {e : SmEffect} (h : e.published = none) (es : List SmEffect) :
    commits (e :: es) = commits es := List.filterMap_cons_none h

theorem commits_storeLastIncluded (last : Option LogId) :
    commits (storeLastIncluded last).effects = [] := by
  cases last <;> rfl

/-- The fields in memory, after a restore that went through. -/
def installedEffects (metadata : SnapshotMetadata) : List SmEffect :=
  (storeLastIncluded metadata.lastIncluded).effects ++
    [.setSnapshotMeta (some metadata), .clearEntryTerms, .storeRunning true]

/-- **The call, by how the restore ended.** It returns `Ok` with the restored
environment and every field moved; or `Err`, with at most the commit of the restore
published. -/
theorem applySnapshotFromFile_cases (task : TaskEnd) (snapFlt flt : Faults)
    (sm : LmdbStateMachine) (metadata : SnapshotMetadata) (file : SnapshotFile) :
    (∃ db env', file .kvDb = some db ∧ Restored sm.env env' db metadata.lastIncluded ∧
      applySnapshotFromFile task snapFlt flt sm metadata file =
        ⟨.storeRunning false :: .commit env' :: installedEffects metadata, .ok ()⟩) ∨
    (∃ e, (applySnapshotFromFile task snapFlt flt sm metadata file).result = .error e) ∧
      (commits (applySnapshotFromFile task snapFlt flt sm metadata file).effects = [] ∨
        ∃ db env', file .kvDb = some db ∧ Restored sm.env env' db metadata.lastIncluded ∧
          commits (applySnapshotFromFile task snapFlt flt sm metadata file).effects = [env']) := by
  rcases restoreBlocking_cases snapFlt flt sm.env metadata file with
    ⟨db, env', hfile, hcall, hres⟩ | ⟨e, hcall⟩
  · cases task with
    | returned =>
        refine Or.inl ⟨db, env', hfile, hres, ?_⟩
        unfold applySnapshotFromFile
        rw [hcall]
        cases hlast : metadata.lastIncluded with
        | some l => simp only [installedEffects, hlast]; rfl
        | none => simp only [installedEffects, hlast]; rfl
    | died text j =>
        refine Or.inr ⟨⟨.fatal text, by rw [applySnapshotFromFile, hcall]; rfl⟩, ?_⟩
        have heff : (applySnapshotFromFile (.died text j) snapFlt flt sm metadata file).effects =
            .storeRunning false :: [SmEffect.commit env'].take j := by
          rw [applySnapshotFromFile, hcall]
          rfl
        rw [heff, commits_cons_other rfl]
        have hone : commits [SmEffect.commit env'] = [env'] := rfl
        rcases commits_take_single hone j with hnone | hall
        · exact Or.inl hnone
        · exact Or.inr ⟨db, env', hfile, hres, hall⟩
  · refine Or.inr ⟨⟨?_, ?_⟩, Or.inl ?_⟩
    · exact match task with
        | .returned => e
        | .died text _ => .fatal text
    · rw [applySnapshotFromFile, hcall]
      cases task <;> rfl
    · rw [applySnapshotFromFile, hcall]
      cases task with
      | returned => rfl
      | died text j =>
          show commits (.storeRunning false :: ([] : List SmEffect).take j) = []
          rw [List.take_nil]
          rfl

theorem commits_installed (env' : SmEnv) (metadata : SnapshotMetadata) :
    commits (.storeRunning false :: .commit env' :: installedEffects metadata) = [env'] := by
  have hmem : commits (installedEffects metadata) = [] := by
    rw [installedEffects, commits, List.filterMap_append, ← commits, commits_storeLastIncluded]
    rfl
  show env' :: commits (installedEffects metadata) = [env']
  rw [hmem]

/-- The state after an install that returned `Ok`. -/
structure Installed (sm sm' : LmdbStateMachine) (kv : Database) (metadata : SnapshotMetadata) :
    Prop extends Restored sm.env sm'.env kv metadata.lastIncluded where
  lastApplied : sm'.lastApplied = metadata.lastIncluded.getD sm.lastApplied
  snapshotMeta : sm'.snapshotMeta = some metadata
  entryTerms : sm'.entryTerms = ∅
  running : sm'.running = true

theorem applySnapshotFromFile_installed {task : TaskEnd} {snapFlt flt : Faults}
    {sm : LmdbStateMachine} {metadata : SnapshotMetadata} {file : SnapshotFile}
    (h : (applySnapshotFromFile task snapFlt flt sm metadata file).result = .ok ()) :
    ∃ db, file .kvDb = some db ∧
      Installed sm (sm.after (applySnapshotFromFile task snapFlt flt sm metadata file)) db
        metadata := by
  rcases applySnapshotFromFile_cases task snapFlt flt sm metadata file with
    ⟨db, env', hfile, hres, hcall⟩ | ⟨⟨e, herr⟩, -⟩
  · refine ⟨db, hfile, ?_⟩
    rw [hcall]
    obtain ⟨last, checksum⟩ := metadata
    cases last with
    | some l => exact ⟨hres, rfl, rfl, rfl, rfl⟩
    | none => exact ⟨hres, rfl, rfl, rfl, rfl⟩
  · rw [herr] at h
    cases h

/-- Stopped anywhere, the install has published nothing, or the whole restore. -/
theorem applySnapshotFromFile_crash (task : TaskEnd) (snapFlt flt : Faults)
    (sm : LmdbStateMachine) (metadata : SnapshotMetadata) (file : SnapshotFile) (j : ℕ) :
    let c := applySnapshotFromFile task snapFlt flt sm metadata file
    (c.crashAt LmdbStateMachine.exec sm j).env = sm.env ∨
      ∃ db, file .kvDb = some db ∧
        Restored sm.env (c.crashAt LmdbStateMachine.exec sm j).env db metadata.lastIncluded := by
  intro c
  have hone : commits c.effects = [] ∨ ∃ db env', file .kvDb = some db ∧
      Restored sm.env env' db metadata.lastIncluded ∧ commits c.effects = [env'] := by
    rcases applySnapshotFromFile_cases task snapFlt flt sm metadata file with
      ⟨db, env', hfile, hres, hcall⟩ | ⟨-, hcommits⟩
    · refine Or.inr ⟨db, env', hfile, hres, ?_⟩
      show commits (applySnapshotFromFile task snapFlt flt sm metadata file).effects = [env']
      rw [hcall, commits_installed]
    · exact hcommits
  rcases hone with hnone | ⟨db, env', hfile, hres, hone⟩
  · exact Or.inl (crashAt_env_of_silent hnone sm j)
  · rcases crashAt_env_cases hone sm j with hold | hnew
    · exact Or.inl hold
    · rw [hnew]
      exact Or.inr ⟨db, hfile, hres⟩

/-- **Snapshot install is exact and crash-atomic.** A call that returns `Ok` leaves
the target with exactly the captured contents, `last_applied` at `l` in memory and
on disk, the given metadata and no cached terms. Stopped at any point of any call,
`new` finds the target's old contents with its old marker, or the captured contents
with `l`. -/
theorem snapshot_install_exact_crash_atomic {dirErr : Option String} {genFlt : Faults}
    {source : SmEnv} {included : LogId} {checksum : Bytes} {file : SnapshotFile}
    (hgen : (generateSnapshotData dirErr genFlt source included).result = .ok (checksum, file))
    (task : TaskEnd) (snapFlt flt : Faults) (sm : LmdbStateMachine) (l : LogId)
    (metadataChecksum : Bytes) :
    let metadata : SnapshotMetadata := ⟨some l, metadataChecksum⟩
    let c := applySnapshotFromFile task snapFlt flt sm metadata file
    (c.result = .ok () →
      (sm.after c).kv = source .kvDb ∧ (sm.after c).lastApplied = l ∧
        recoveredLastApplied (sm.after c).env = l ∧ (sm.after c).snapshotMeta = some metadata ∧
        (sm.after c).entryTerms = ∅) ∧
      ∀ j openFlt sm',
        LmdbStateMachine.new openFlt (c.crashAt LmdbStateMachine.exec sm j).env = .ok sm' →
        (sm'.kv = sm.kv ∧ sm'.lastApplied = recoveredLastApplied sm.env) ∨
          (sm'.kv = source .kvDb ∧ sm'.lastApplied = l) := by
  intro metadata c
  have hkv : ∀ db, file .kvDb = some db → db = source .kvDb := by
    intro db hdb
    rw [generateSnapshotData_ok hgen] at hdb
    exact (Option.some.inj hdb).symm
  constructor
  · intro hok
    obtain ⟨db, hfile, hinst⟩ := applySnapshotFromFile_installed hok
    refine ⟨?_, hinst.lastApplied, hinst.marker, hinst.snapshotMeta, hinst.entryTerms⟩
    rw [← hkv db hfile]
    exact hinst.kv
  · intro j openFlt sm' hnew
    obtain ⟨henv, hlast, -⟩ := new_ok hnew
    have hkv' : sm'.kv = (c.crashAt LmdbStateMachine.exec sm j).env .kvDb := by
      rw [LmdbStateMachine.kv, henv]
    rcases applySnapshotFromFile_crash task snapFlt flt sm metadata file j with
      hold | ⟨db, hfile, hres⟩
    · refine Or.inl ⟨?_, ?_⟩
      · rw [hkv', hold]
        rfl
      · rw [hlast, hold]
    · refine Or.inr ⟨?_, ?_⟩
      · rw [hkv', ← hkv db hfile]
        exact hres.kv
      · rw [hlast]
        exact hres.marker

/-- A directory whose `kv_db` holds one pair. -/
def onePairEnv (k v : Bytes) (hk : ValidKey k) : SmEnv :=
  Function.update emptyEnv .kvDb ((∅ : Database).insert k v hk)

/-- The pair `[7] ↦ [1]` installed over the pair `[8] ↦ [2]`. -/
theorem snapshot_install_one_pair :
    let source := onePairEnv [7] [1] (by decide)
    let target := { freshStateMachine with env := onePairEnv [8] [2] (by decide) }
    let c := applySnapshotFromFile .returned Faults.none Faults.none target ⟨some ⟨3, 1⟩, []⟩
      (fun d => some (source d))
    (target.after c).kv = source .kvDb ∧ (target.after c).lastApplied = ⟨3, 1⟩ := by
  intro source target c
  have hgen : (generateSnapshotData none Faults.none source ⟨3, 1⟩).result =
      .ok (List.replicate 32 0, fun d => some (source d)) := rfl
  have h := snapshot_install_exact_crash_atomic hgen .returned Faults.none Faults.none target
    ⟨3, 1⟩ []
  obtain ⟨hkv, hlast, -⟩ := h.1 (by decide)
  exact ⟨hkv, hlast⟩

end DLmdb
