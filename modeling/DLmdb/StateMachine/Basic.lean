import DLmdb.Framework.FixedWidth
import DLmdb.Framework.KeyedWrites
import DLmdb.Lmdb.Transaction

/-!
# `LmdbStateMachine`: state, effects, recovery

The replicated key-value state of one node: three LMDB databases in one
environment, and the fields that live in memory only. Every call of the state
machine is a `Call` over the atomic effects below; a transaction is one effect,
its commit. Opening the directory again keeps the databases and reads
`last_applied` back from the meta database.
-/

namespace DLmdb

open Framework Lmdb

/-- The text of a `&str` key, as heed stores it. -/
def utf8 (s : String) : Bytes := s.toUTF8.data.toList

/-! ## Data -/

/-- The databases of the state machine's environment: `DB_KV`, `DB_META` and
`DB_INTERNAL`. -/
inductive SmDb where
  | kvDb
  | metaDb
  | internalDb
deriving DecidableEq

abbrev SmEnv := SmDb → Database

structure LogId where
  index : UInt64
  term : UInt64
deriving DecidableEq

structure SnapshotMetadata where
  lastIncluded : Option LogId
  checksum : Bytes
deriving DecidableEq

/-- `d_engine::Error`, as far as this crate builds it. -/
inductive EngineError where
  | fatal (text : String)
  | stateMachineError (text : String)
  | dbError (text : String)
  | serializationError (text : String)
  | bincodeError (text : String)
deriving DecidableEq

/-- `lmdb_err`. -/
def lmdbErr (e : HeedError) : EngineError := .stateMachineError e.text

inductive BatchOp where
  | insert (key value : Bytes)
  | delete (key : Bytes)
deriving DecidableEq

inductive Command where
  | insert (key value : Bytes) (ttlSecs : Option UInt64)
  | delete (key : Bytes)
  | compareAndSwap (key : Bytes) (expected : Option Bytes) (value : Bytes)
  | batch (ops : List BatchOp)
  | noop
deriving DecidableEq

structure ApplyEntry where
  index : UInt64
  term : UInt64
  command : Command
deriving DecidableEq

structure ApplyResult where
  index : UInt64
  succeeded : Bool
deriving DecidableEq

def ApplyResult.success (index : UInt64) : ApplyResult := ⟨index, true⟩
def ApplyResult.failure (index : UInt64) : ApplyResult := ⟨index, false⟩

def ApplyEntry.logId (e : ApplyEntry) : LogId := ⟨e.index, e.term⟩

structure LmdbStateMachine where
  env : SmEnv
  running : Bool
  lastAppliedIndex : UInt64
  lastAppliedTerm : UInt64
  entryTerms : Std.ExtTreeMap UInt64 UInt64 compare
  snapshotMeta : Option SnapshotMetadata

/-- The contents of `kv_db`. -/
def LmdbStateMachine.kv (sm : LmdbStateMachine) : Database := sm.env .kvDb

/-! ## Effects -/

/-- What a call changes, one atomic step at a time. -/
inductive SmEffect where
  | commit (env : SmEnv)
  | storeRunning (b : Bool)
  | storeLastAppliedIndex (index : UInt64)
  | storeLastAppliedTerm (term : UInt64)
  | insertEntryTerm (index term : UInt64)
  | clearEntryTerms
  | setSnapshotMeta (m : Option SnapshotMetadata)

abbrev SmCall := Call SmEffect EngineError

namespace LmdbStateMachine

def exec (sm : LmdbStateMachine) : SmEffect → LmdbStateMachine
  | .commit env => { sm with env := env }
  | .storeRunning b => { sm with running := b }
  | .storeLastAppliedIndex index => { sm with lastAppliedIndex := index }
  | .storeLastAppliedTerm term => { sm with lastAppliedTerm := term }
  | .insertEntryTerm index term => { sm with entryTerms := sm.entryTerms.insert index term }
  | .clearEntryTerms => { sm with entryTerms := ∅ }
  | .setSnapshotMeta m => { sm with snapshotMeta := m }

/-- The state machine after the call. -/
def after {err α : Type} (sm : LmdbStateMachine) (c : Call SmEffect err α) : LmdbStateMachine :=
  c.after exec sm

end LmdbStateMachine

/-! ## What a crash keeps -/

def SmEffect.published : SmEffect → Option SmEnv
  | .commit env => some env
  | _ => none

/-- The environments the effects commit, in order. -/
def commits (es : List SmEffect) : List SmEnv := es.filterMap SmEffect.published

/-- Only commits reach the environment. -/
theorem env_foldl (sm : LmdbStateMachine) (es : List SmEffect) :
    (es.foldl LmdbStateMachine.exec sm).env = ((commits es).getLast?).getD sm.env := by
  induction es generalizing sm with
  | nil => rfl
  | cons e es ih =>
      rw [List.foldl_cons, ih]
      cases e with
      | commit env =>
          have hcons : commits (.commit env :: es) = env :: commits es := rfl
          rw [hcons, List.getLast?_cons]
          cases (commits es).getLast? <;> rfl
      | storeRunning b => rfl
      | storeLastAppliedIndex index => rfl
      | storeLastAppliedTerm term => rfl
      | insertEntryTerm index term => rfl
      | clearEntryTerms => rfl
      | setSnapshotMeta m => rfl

/-- Stopping early publishes a prefix of what the whole call publishes. -/
theorem commits_take (es : List SmEffect) (j : ℕ) : commits (es.take j) <+: commits es :=
  (List.take_prefix j es).filterMap _

/-- A call with one commit, stopped anywhere, has published nothing or all. -/
theorem commits_take_single {es : List SmEffect} {env : SmEnv} (h : commits es = [env]) (j : ℕ) :
    commits (es.take j) = [] ∨ commits (es.take j) = [env] := by
  have hp := commits_take es j
  rw [h] at hp
  rcases List.prefix_cons_iff.mp hp with hnil | ⟨t, ht, hpre⟩
  · exact Or.inl hnil
  · rw [List.prefix_nil.mp hpre] at ht
    exact Or.inr ht

/-- A call without a commit, stopped anywhere, leaves the environment alone. -/
theorem crashAt_env_of_silent {err α : Type} {c : Call SmEffect err α} (hc : commits c.effects = [])
    (sm : LmdbStateMachine) (j : ℕ) : (c.crashAt LmdbStateMachine.exec sm j).env = sm.env := by
  have hp := commits_take c.effects j
  rw [hc] at hp
  rw [Call.crashAt, env_foldl, List.prefix_nil.mp hp]
  rfl

/-- A call with one commit, stopped anywhere, leaves the old environment or the new. -/
theorem crashAt_env_cases {err α : Type} {c : Call SmEffect err α} {env : SmEnv}
    (hc : commits c.effects = [env]) (sm : LmdbStateMachine) (j : ℕ) :
    (c.crashAt LmdbStateMachine.exec sm j).env = sm.env ∨
      (c.crashAt LmdbStateMachine.exec sm j).env = env := by
  rw [Call.crashAt, env_foldl]
  rcases commits_take_single hc j with hnone | hall
  · rw [hnone]
    exact Or.inl rfl
  · rw [hall]
    exact Or.inr rfl

/-- `.map_err(lmdb_err)?` -/
def smLmdb {α : Type} (x : Except HeedError α) : SmCall α := .ofExcept (x.mapError lmdbErr)

/-! ## `last_applied` -/

def metaLastAppliedIndex : Bytes := utf8 "last_applied_index"
def metaLastAppliedTerm : Bytes := utf8 "last_applied_term"

theorem metaKeys_ne : metaLastAppliedTerm ≠ metaLastAppliedIndex := by decide

def u64FromBytes (b : Bytes) : UInt64 := if b.length = 8 then fromLeBytes b else 0

@[simp] theorem u64FromBytes_toLeBytes (x : UInt64) : u64FromBytes (toLeBytes x) = x := by
  simp [u64FromBytes]

def updateLastApplied (lastApplied : LogId) : SmCall Unit := do
  Call.emit (.storeLastAppliedIndex lastApplied.index)
  Call.emit (.storeLastAppliedTerm lastApplied.term)

def LmdbStateMachine.lastApplied (sm : LmdbStateMachine) : LogId :=
  ⟨sm.lastAppliedIndex, sm.lastAppliedTerm⟩

/-- The two `meta_db.put` calls that write `last_applied` inside a transaction. -/
def putLastApplied (wtxn : Txn SmDb) (lastApplied : LogId) : Except HeedError (Txn SmDb) := do
  let wtxn ← wtxn.put .metaDb metaLastAppliedIndex (toLeBytes lastApplied.index)
  wtxn.put .metaDb metaLastAppliedTerm (toLeBytes lastApplied.term)

def persistLastApplied (flt : Faults) (sm : LmdbStateMachine) (lastApplied : LogId) :
    SmCall Unit := do
  let env ← smLmdb do
    let wtxn ← Txn.begin flt sm.env
    let wtxn ← putLastApplied wtxn lastApplied
    wtxn.commit
  Call.emit (.commit env)
  updateLastApplied lastApplied

/-- What `LmdbStateMachine::new` reads back from the meta database. -/
def recoveredLastApplied (env : SmEnv) : LogId where
  index := (((env .metaDb).get metaLastAppliedIndex).map u64FromBytes).getD 0
  term := (((env .metaDb).get metaLastAppliedTerm).map u64FromBytes).getD 0

/-- `LmdbStateMachine::new` over what the directory holds. Its transaction creates
the databases that are missing and changes no contents. -/
def LmdbStateMachine.new (flt : Faults) (env : SmEnv) : Except HeedError LmdbStateMachine := do
  let wtxn ← Txn.begin flt env
  let (wtxn, index) ← wtxn.get .metaDb metaLastAppliedIndex
  let (wtxn, term) ← wtxn.get .metaDb metaLastAppliedTerm
  let env ← wtxn.commit
  return {
    env := env
    running := true
    lastAppliedIndex := (index.map u64FromBytes).getD 0
    lastAppliedTerm := (term.map u64FromBytes).getD 0
    entryTerms := ∅
    snapshotMeta := none }

/-- The directory before anything was written. -/
def emptyEnv : SmEnv := fun _ => ∅

/-- A state machine opened on an empty directory. -/
def freshStateMachine : LmdbStateMachine where
  env := emptyEnv
  running := true
  lastAppliedIndex := 0
  lastAppliedTerm := 0
  entryTerms := ∅
  snapshotMeta := none

/-! ## Spec lemmas -/

/-- **Reopening** keeps the databases, reads `last_applied` back and starts with
empty in-memory fields. -/
theorem new_ok {flt : Faults} {env : SmEnv} {sm : LmdbStateMachine}
    (h : LmdbStateMachine.new flt env = .ok sm) :
    sm.env = env ∧ sm.lastApplied = recoveredLastApplied env ∧ sm.snapshotMeta = none ∧
      sm.entryTerms = ∅ ∧ sm.running = true := by
  obtain ⟨t₀, h₀, h⟩ := bind_eq_ok.mp h
  obtain ⟨⟨t₁, index⟩, h₁, h⟩ := bind_eq_ok.mp h
  obtain ⟨⟨t₂, term⟩, h₂, h⟩ := bind_eq_ok.mp h
  obtain ⟨env', h₃, h⟩ := bind_eq_ok.mp h
  obtain ⟨e₀, -⟩ := Txn.begin_ok h₀
  obtain ⟨e₁, -, -, rfl⟩ := Txn.get_ok h₁
  obtain ⟨e₂, -, -, rfl⟩ := Txn.get_ok h₂
  have e₃ := Txn.commit_ok h₃
  cases h
  rw [e₂, e₁, e₀] at e₃
  refine ⟨e₃, ?_, rfl, rfl, rfl⟩
  simp [LmdbStateMachine.lastApplied, recoveredLastApplied, e₁, e₀]

theorem new_noFaults (env : SmEnv) : ∃ sm, LmdbStateMachine.new Faults.none env = .ok sm := by
  have hi : metaLastAppliedIndex ≠ [] := by decide
  have ht : metaLastAppliedTerm ≠ [] := by decide
  simp [LmdbStateMachine.new, Txn.begin_noFaults, Txn.get_noFaults, Txn.commit_noFaults, hi, ht,
    bind, Except.bind, pure, Except.pure]

theorem new_empty : LmdbStateMachine.new Faults.none emptyEnv = .ok freshStateMachine := by
  obtain ⟨sm, h⟩ := new_noFaults emptyEnv
  obtain ⟨he, hl, hm, ht, hr⟩ := new_ok h
  rw [h]
  obtain ⟨env, running, index, term, terms, snap⟩ := sm
  simp only [LmdbStateMachine.lastApplied, recoveredLastApplied, emptyEnv, Database.get_empty,
    Option.map_none, Option.getD_none, LogId.mk.injEq] at he hl hm ht hr
  simp [freshStateMachine, he, hl, hm, ht, hr]

theorem putLastApplied_ok {t t' : Txn SmDb} {l : LogId} (h : putLastApplied t l = .ok t') :
    (∀ d, d ≠ SmDb.metaDb → t'.env d = t.env d) ∧ recoveredLastApplied t'.env = l := by
  obtain ⟨t₁, h₁, h₂⟩ := bind_eq_ok.mp h
  obtain ⟨_, c₁⟩ := Txn.put_ok h₁
  obtain ⟨_, c₂⟩ := Txn.put_ok h₂
  constructor
  · intro d hd
    rw [c₂.env, c₁.env, Function.update_of_ne hd, Function.update_of_ne hd]
  · simp [recoveredLastApplied, c₂.env, c₁.env, Database.get_insert, metaKeys_ne.symm]

/-- A transaction that fails leaves no effect behind; one that commits is followed
by `f`. -/
theorem smLmdb_bind {α β : Type} (x : Except HeedError α) (f : α → SmCall β) :
    (∃ a, x = .ok a ∧ (smLmdb x >>= f) = f a) ∨ ∃ e, (smLmdb x >>= f) = ⟨[], .error e⟩ :=
  Call.mapError_bind_cases lmdbErr x f

/-- The effects of `persist_last_applied`: all of them, or none. -/
theorem persistLastApplied_cases (flt : Faults) (sm : LmdbStateMachine) (l : LogId) :
    (∃ env, persistLastApplied flt sm l =
        ⟨[.commit env, .storeLastAppliedIndex l.index, .storeLastAppliedTerm l.term], .ok ()⟩ ∧
      (∀ d, d ≠ SmDb.metaDb → env d = sm.env d) ∧ recoveredLastApplied env = l) ∨
    ∃ e, persistLastApplied flt sm l = ⟨[], .error e⟩ := by
  rcases smLmdb_bind (do
      let wtxn ← Txn.begin flt sm.env
      let wtxn ← putLastApplied wtxn l
      wtxn.commit) (fun env => do Call.emit (.commit env); updateLastApplied l)
    with ⟨env, hx, hcall⟩ | ⟨e, hcall⟩
  · refine Or.inl ⟨env, hcall, ?_⟩
    obtain ⟨t₀, h₀, hx⟩ := bind_eq_ok.mp hx
    obtain ⟨t₁, h₁, hx⟩ := bind_eq_ok.mp hx
    obtain ⟨hframe, hrec⟩ := putLastApplied_ok h₁
    rw [Txn.commit_ok hx]
    refine ⟨fun d hd => ?_, hrec⟩
    rw [hframe d hd, (Txn.begin_ok h₀).1]
  · exact Or.inr ⟨e, hcall⟩

end DLmdb
