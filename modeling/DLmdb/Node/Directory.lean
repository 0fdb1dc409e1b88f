import DLmdb.Node.Stores
import DLmdb.Server.Errors

/-!
# One process at a time

Two processes on one data directory would each keep `last_applied` and `last_index` in memory
while the other writes. `DataDirLock` stands before that: a process takes the lock before it
opens a store and lets go of it after the state machine is dropped. Any number of processes
start, fail, end and are killed here, and what comes of their stores is a run of one node.
-/

namespace DLmdb

open Framework Lmdb

variable {Entry HardState : Type}

/-! ## The code -/

/-- `DataDirLock::acquire`: the process whose handle has the lock of `.d-lmdb.lock`
afterwards. `io` is what the file system refuses, if anything. -/
def acquire (io : Option String) (dir : String) (lock : Option ℕ) (p : ℕ) :
    Except Http.DbError ℕ :=
  match io, lock with
  | some text, _ => .error (.io text)
  | none, some _ => .error (.path ("data_dir " ++ dir ++ " is already in use by another process"))
  | none, none => .ok p

theorem acquire_ok_iff {io : Option String} {dir : String} {lock : Option ℕ} {p owner : ℕ} :
    acquire io dir lock p = .ok owner ↔ io = none ∧ lock = none ∧ owner = p := by
  cases io with
  | some text => simp [acquire]
  | none =>
      cases lock with
      | some q => simp [acquire]
      | none => simp [acquire, eq_comm]

/-- How far a process has come with `DLmdb::open`. In `dropped` the stores are closed, and the
lock is the next to go. -/
inductive Phase where
  | closed
  | locked
  | logOpen (wal : LmdbWal)
  | serving (wal : LmdbWal) (sm : LmdbStateMachine)
  | dropped

/-- A data directory and the processes that use it. -/
structure DataDir where
  path : String
  committed : ℕ
  walEnv : WalEnv
  smEnv : SmEnv
  lock : Option ℕ
  phase : ℕ → Phase

def DataDir.fresh (path : String) : DataDir :=
  ⟨path, 0, emptyWalEnv, emptyEnv, none, fun _ => .closed⟩

inductive DirEvent (Entry HardState : Type) where
  | acquire (p : ℕ) (io : Option String)
  | openLog (p : ℕ) (flt : Faults)
  | openStateMachine (p : ℕ) (flt : Faults)
  | act (p : ℕ) (e : StoreEvent Entry HardState)
  | release (p : ℕ)
  | kill (p : ℕ)

namespace DataDir

variable {fmt : Formats Entry HardState} (full : FullLog fmt)

def moveTo (d : DataDir) (p : ℕ) (phase : Phase) : DataDir :=
  { d with phase := Function.update d.phase p phase }

/-- The process has ended, and the system has closed its files. -/
def gone (d : DataDir) (p : ℕ) : DataDir :=
  { d with lock := if d.lock = some p then none else d.lock }.moveTo p .closed

/-- What a process works with: its own memory, and the directory as it is. -/
def seen (d : DataDir) (wal : LmdbWal) (sm : LmdbStateMachine) : NodeStores where
  committed := d.committed
  wal := { wal with env := d.walEnv }
  sm := { sm with env := d.smEnv }

def store (d : DataDir) (s : NodeStores) : DataDir :=
  { d with committed := s.committed, walEnv := s.wal.env, smEnv := s.sm.env }

/-- `acquire` comes first; one that fails ends the opening. -/
def acquires (d : DataDir) (p : ℕ) (io : Option String) : DataDir :=
  match d.phase p, acquire io d.path d.lock p with
  | .closed, .ok owner => { d with lock := some owner }.moveTo p .locked
  | _, _ => d

def opensLog (d : DataDir) (p : ℕ) (flt : Faults) : DataDir :=
  match d.phase p with
  | .locked =>
      match LmdbWal.new flt d.walEnv with
      | .ok wal => d.moveTo p (.logOpen wal)
      | .error _ => d.moveTo p .dropped
  | _ => d

def opensStateMachine (d : DataDir) (p : ℕ) (flt : Faults) : DataDir :=
  match d.phase p with
  | .logOpen wal =>
      match LmdbStateMachine.new flt d.smEnv with
      | .ok sm => d.moveTo p (.serving wal sm)
      | .error _ => d.moveTo p .dropped
  | _ => d

/-- The process after what it did to its stores. The fields of `DLmdb` are dropped in order,
the lock after the state machine. -/
def leaves (d : DataDir) (p : ℕ) (s : NodeStores) : StoreEvent Entry HardState → DataDir
  | .drop _ => (d.store s).moveTo p .dropped
  | .crashWriting _ _ _ | .crashCalling _ _ => (d.store s).gone p
  | _ => (d.store s).moveTo p (.serving s.wal s.sm)

def acts (d : DataDir) (p : ℕ) (e : StoreEvent Entry HardState) : DataDir :=
  match d.phase p with
  | .serving wal sm => d.leaves p ((d.seen wal sm).step full e) e
  | _ => d

/-- A handle that the engine has kept outlives the lock. -/
def releases (d : DataDir) (p : ℕ) : DataDir :=
  match d.phase p with
  | .dropped => d.gone p
  | _ => { d with lock := if d.lock = some p then none else d.lock }

def step (d : DataDir) : DirEvent Entry HardState → DataDir
  | .acquire p io => d.acquires p io
  | .openLog p flt => d.opensLog p flt
  | .openStateMachine p flt => d.opensStateMachine p flt
  | .act p e => d.acts full p e
  | .release p => d.releases p
  | .kill p => d.gone p

/-- The engine gives back the state machine before the lock goes; and what a process does to
its stores is what a node does. -/
def Allows (d : DataDir) : DirEvent Entry HardState → Prop
  | .act p e => ∀ wal sm, d.phase p = .serving wal sm → (d.seen wal sm).Allows full e
  | .release p => d.phase p = .dropped
  | _ => True

/-- What the node does meanwhile. To be killed between two calls is to crash before the first
effect of one. -/
def oneNode (d : DataDir) : DirEvent Entry HardState → List (StoreEvent Entry HardState)
  | .act p e =>
      match d.phase p with
      | .serving _ _ => [e]
      | _ => []
  | .kill p =>
      match d.phase p with
      | .serving _ _ => [.crashCalling (.persist Faults.none) 0]
      | _ => []
  | _ => []

end DataDir

section

variable (d : DataDir) (p : ℕ) (phase : Phase)

@[simp] theorem DataDir.moveTo_lock : (d.moveTo p phase).lock = d.lock := rfl

@[simp] theorem DataDir.moveTo_phase : (d.moveTo p phase).phase p = phase :=
  Function.update_self ..

theorem DataDir.moveTo_phase_ne {q : ℕ} (h : q ≠ p) : (d.moveTo p phase).phase q = d.phase q :=
  Function.update_of_ne h ..

@[simp] theorem DataDir.gone_lock : (d.gone p).lock = if d.lock = some p then none else d.lock :=
  rfl

@[simp] theorem DataDir.gone_phase : (d.gone p).phase p = .closed := Function.update_self ..

theorem DataDir.gone_phase_ne {q : ℕ} (h : q ≠ p) : (d.gone p).phase q = d.phase q :=
  Function.update_of_ne h ..

end

/-! ## Who has the lock -/

/-- Both stores have just been opened. -/
def NodeStores.Idle (s : NodeStores) : Prop := s.reopen s.wal.env s.sm.env = s

theorem NodeStores.idle_reopen (s : NodeStores) (walEnv : WalEnv) (env : SmEnv) :
    (s.reopen walEnv env).Idle := rfl

theorem NodeStores.idle_fresh : NodeStores.fresh.Idle := by
  have hsm : freshStateMachine = reopened freshStateMachine.env := eq_reopened_of_new new_empty
  show (⟨0, freshWal, reopened freshStateMachine.env⟩ : NodeStores) = NodeStores.fresh
  rw [← hsm]
  rfl

/-- What a process that has come so far can rely on, against the stores of a node. -/
def Phase.Matches (s : NodeStores) : Phase → Prop
  | .closed => False
  | .locked | .dropped => s.Idle
  | .logOpen wal => s.Idle ∧ s.wal = wal
  | .serving wal sm => s.wal = wal ∧ s.sm = sm

/-- Nobody but the owner of the lock has come further than `closed`, and what the owner sees
is what a node sees that nobody disturbs. -/
structure DataDir.Owned (d : DataDir) (s : NodeStores) : Prop where
  stores : d.store s = d
  unlocked : d.lock = none → s.Idle ∧ ∀ p, d.phase p = .closed
  locked : ∀ p, d.lock = some p → (d.phase p).Matches s ∧ ∀ q, q ≠ p → d.phase q = .closed

namespace DataDir.Owned

variable {d : DataDir} {s : NodeStores} {p : ℕ}

theorem fresh (path : String) : (DataDir.fresh path).Owned NodeStores.fresh where
  stores := rfl
  unlocked _ := ⟨NodeStores.idle_fresh, fun _ => rfl⟩
  locked _ h := by cases h

theorem lock_eq (h : d.Owned s) (hp : d.phase p ≠ .closed) : d.lock = some p := by
  cases hlock : d.lock with
  | none => exact absurd ((h.unlocked hlock).2 p) hp
  | some q =>
      by_cases hpq : p = q
      · rw [hpq]
      · exact absurd ((h.locked q hlock).2 p hpq) hp

/-- The owner moves on. -/
theorem moveTo (hstores : d.store s = d) (hlock : d.lock = some p)
    (hothers : ∀ q, q ≠ p → d.phase q = .closed) {phase : Phase} (hphase : phase.Matches s) :
    (d.moveTo p phase).Owned s where
  stores := by
    rw [← hstores]
    rfl
  unlocked hnone := by
    rw [DataDir.moveTo_lock, hlock] at hnone
    cases hnone
  locked q hq := by
    rw [DataDir.moveTo_lock, hlock] at hq
    cases hq
    constructor
    · rw [DataDir.moveTo_phase]
      exact hphase
    · intro q hqp
      rw [DataDir.moveTo_phase_ne d p phase hqp]
      exact hothers q hqp

/-- The owner ends. -/
theorem gone (hstores : d.store s = d) (hlock : d.lock = some p)
    (hothers : ∀ q, q ≠ p → d.phase q = .closed) (hidle : s.Idle) : (d.gone p).Owned s where
  stores := by
    rw [← hstores]
    rfl
  unlocked _ := by
    refine ⟨hidle, fun q => ?_⟩
    by_cases hqp : q = p
    · rw [hqp, DataDir.gone_phase]
    · rw [DataDir.gone_phase_ne d p hqp]
      exact hothers q hqp
  locked q hq := by
    rw [DataDir.gone_lock, if_pos hlock] at hq
    cases hq

/-- What the owner sees. -/
theorem seen_eq (h : d.Owned s) {wal : LmdbWal} {sm : LmdbStateMachine}
    (hp : d.phase p = .serving wal sm) : d.seen wal sm = s := by
  have hmatches := (h.locked p (h.lock_eq (by simp [hp]))).1
  rw [hp] at hmatches
  obtain ⟨rfl, rfl⟩ := hmatches
  rw [← h.stores]
  rfl

/-- Who has come further than `closed` is the owner. -/
theorem owner (h : d.Owned s) (hp : d.phase p ≠ .closed) :
    d.lock = some p ∧ (d.phase p).Matches s ∧ ∀ q, q ≠ p → d.phase q = .closed :=
  ⟨h.lock_eq hp, h.locked p (h.lock_eq hp)⟩

theorem acquires (h : d.Owned s) (p : ℕ) (io : Option String) : (d.acquires p io).Owned s := by
  unfold DataDir.acquires
  split
  · rename_i q hp hok
    obtain ⟨-, hnone, rfl⟩ := acquire_ok_iff.mp hok
    obtain ⟨hidle, hall⟩ := h.unlocked hnone
    have hstores : ({ d with lock := some q } : DataDir).store s = { d with lock := some q } := by
      rw [← h.stores]
      rfl
    exact moveTo hstores rfl (fun q _ => hall q) hidle
  · exact h

theorem opensLog (h : d.Owned s) (p : ℕ) (flt : Faults) : (d.opensLog p flt).Owned s := by
  unfold DataDir.opensLog
  split
  · rename_i hp
    obtain ⟨hlock, hidle, hothers⟩ := h.owner (p := p) (by simp [hp])
    rw [hp] at hidle
    split
    · rename_i wal hnew
      refine moveTo h.stores hlock hothers ⟨hidle, ?_⟩
      obtain ⟨henv, hlast⟩ := LmdbWal.new_ok hnew
      have hwal : s.wal.env = d.walEnv := congrArg DataDir.walEnv h.stores
      have hs : s.wal = LmdbWal.reopened Faults.none s.wal := (congrArg NodeStores.wal hidle).symm
      obtain ⟨env, last⟩ := wal
      dsimp only at henv hlast
      rw [hs, henv, hlast, ← hwal]
      rfl
    · exact moveTo h.stores hlock hothers hidle
  · exact h

theorem opensStateMachine (h : d.Owned s) (p : ℕ) (flt : Faults) :
    (d.opensStateMachine p flt).Owned s := by
  unfold DataDir.opensStateMachine
  split
  · rename_i wal hp
    obtain ⟨hlock, hmatches, hothers⟩ := h.owner (p := p) (by simp [hp])
    rw [hp] at hmatches
    obtain ⟨hidle, hwal⟩ := hmatches
    split
    · rename_i sm hnew
      refine moveTo h.stores hlock hothers ⟨hwal, ?_⟩
      have hsm : s.sm.env = d.smEnv := congrArg DataDir.smEnv h.stores
      rw [eq_reopened_of_new hnew, ← hsm]
      exact (congrArg NodeStores.sm hidle).symm
    · exact moveTo h.stores hlock hothers hidle
  · exact h

theorem releases (h : d.Owned s) (hp : d.phase p = .dropped) : (d.releases p).Owned s := by
  obtain ⟨hlock, hidle, hothers⟩ := h.owner (p := p) (by simp [hp])
  rw [hp] at hidle
  simp only [DataDir.releases, hp]
  exact gone h.stores hlock hothers hidle

/-- To kill a process that has not opened the directory changes nothing. -/
theorem gone_closed (h : d.Owned s) (hp : d.phase p = .closed) : d.gone p = d := by
  have hlock : d.lock ≠ some p := by
    intro hlock
    have hmatches := (h.locked p hlock).1
    rw [hp] at hmatches
    exact hmatches
  have hphase : Function.update d.phase p .closed = d.phase := by
    rw [← hp]
    exact Function.update_eq_self p d.phase
  simp only [DataDir.gone, DataDir.moveTo, if_neg hlock, hphase]

variable {fmt : Formats Entry HardState} {full : FullLog fmt}

/-- The owner has acted, and the node has done the same. -/
theorem leaves (hlock : d.lock = some p) (hothers : ∀ q, q ≠ p → d.phase q = .closed)
    (e : StoreEvent Entry HardState) : (d.leaves p (s.step full e) e).Owned (s.step full e) := by
  have hmove : ∀ {s' : NodeStores} {phase : Phase}, phase.Matches s' →
      ((d.store s').moveTo p phase).Owned s' := fun h => moveTo (d := d.store _) rfl hlock hothers h
  have hgone : ∀ {s' : NodeStores}, s'.Idle → ((d.store s').gone p).Owned s' :=
    fun h => gone (d := d.store _) rfl hlock hothers h
  cases e with
  | drop flt => exact hmove (NodeStores.idle_reopen _ _ _)
  | crashWriting flt op j => exact hgone (NodeStores.idle_reopen _ _ _)
  | crashCalling c j => exact hgone (NodeStores.idle_reopen _ _ _)
  | commit len => exact hmove ⟨rfl, rfl⟩
  | write flt op => exact hmove ⟨rfl, rfl⟩
  | call c => exact hmove ⟨rfl, rfl⟩
  | reap flt key now => exact hmove ⟨rfl, rfl⟩

theorem acts (h : d.Owned s) {wal : LmdbWal} {sm : LmdbStateMachine}
    (hp : d.phase p = .serving wal sm) (e : StoreEvent Entry HardState) :
    (d.acts full p e).Owned (s.step full e) := by
  obtain ⟨hlock, -, hothers⟩ := h.owner (p := p) (by simp [hp])
  simp only [DataDir.acts, hp, h.seen_eq hp]
  exact leaves hlock hothers e

/-- To kill the owner between two calls is a crash of the node. -/
theorem kills (h : d.Owned s) {wal : LmdbWal} {sm : LmdbStateMachine}
    (hp : d.phase p = .serving wal sm) :
    (d.gone p).Owned (s.step full (.crashCalling (.persist Faults.none) 0)) := by
  have hacts : (d.acts full p (.crashCalling (.persist Faults.none) 0)).Owned _ := h.acts hp _
  simp only [DataDir.acts, hp, h.seen_eq hp, DataDir.leaves] at hacts
  have hsame : d.store (s.step full (.crashCalling (.persist Faults.none) 0)) = d := h.stores
  rw [hsame] at hacts
  exact hacts

/-- **One event** in the directory is what one node does, or nothing. -/
theorem step (h : d.Owned s) {e : DirEvent Entry HardState} (he : d.Allows full e) :
    Along (NodeStores.step full) (NodeStores.Allows full) s (d.oneNode e) ∧
      (d.step full e).Owned (runFrom (NodeStores.step full) s (d.oneNode e)) := by
  cases e with
  | acquire p io => exact ⟨trivial, h.acquires p io⟩
  | openLog p flt => exact ⟨trivial, h.opensLog p flt⟩
  | openStateMachine p flt => exact ⟨trivial, h.opensStateMachine p flt⟩
  | act p e =>
      cases hp : d.phase p with
      | serving wal sm =>
          have hall := he wal sm hp
          rw [h.seen_eq hp] at hall
          simp only [DataDir.oneNode, hp]
          exact ⟨⟨hall, trivial⟩, h.acts hp e⟩
      | _ =>
          simp only [DataDir.oneNode, DataDir.step, DataDir.acts, hp]
          exact ⟨trivial, h⟩
  | release p => exact ⟨trivial, h.releases he⟩
  | kill p =>
      cases hp : d.phase p with
      | closed =>
          simp only [DataDir.oneNode, DataDir.step, hp, h.gone_closed hp]
          exact ⟨trivial, h⟩
      | serving wal sm =>
          simp only [DataDir.oneNode, hp]
          exact ⟨⟨trivial, trivial⟩, h.kills hp⟩
      | locked =>
          obtain ⟨hlock, hidle, hothers⟩ := h.owner (p := p) (by simp [hp])
          rw [hp] at hidle
          simp only [DataDir.oneNode, hp]
          exact ⟨trivial, gone h.stores hlock hothers hidle⟩
      | logOpen wal =>
          obtain ⟨hlock, hmatches, hothers⟩ := h.owner (p := p) (by simp [hp])
          rw [hp] at hmatches
          simp only [DataDir.oneNode, hp]
          exact ⟨trivial, gone h.stores hlock hothers hmatches.1⟩
      | dropped =>
          obtain ⟨hlock, hidle, hothers⟩ := h.owner (p := p) (by simp [hp])
          rw [hp] at hidle
          simp only [DataDir.oneNode, hp]
          exact ⟨trivial, gone h.stores hlock hothers hidle⟩

/-- Whether the directory can be opened. -/
theorem acquire_iff (h : d.Owned s) (p : ℕ) :
    acquire none d.path d.lock p = .ok p ↔ ∀ q, d.phase q = .closed := by
  rw [acquire_ok_iff]
  constructor
  · rintro ⟨-, hnone, -⟩
    exact (h.unlocked hnone).2
  · intro hall
    refine ⟨rfl, ?_, rfl⟩
    cases hlock : d.lock with
    | none => rfl
    | some q =>
        have hmatches := (h.locked q hlock).1
        rw [hall q] at hmatches
        exact hmatches.elim

end DataDir.Owned

/-- **One process at a time.** Whichever processes open the directory, fail on the way, serve,
end and are killed, in whatever order: if the engine gives back the state machine before the
lock goes, no two are past `acquire` at once, the lock can be taken just when nobody is, and
all they do is one run of one node, whose stores and memory the one that serves has. -/
theorem one_process_at_a_time {fmt : Formats Entry HardState} (full : FullLog fmt) (path : String)
    {es : List (DirEvent Entry HardState)}
    (hes : Along (DataDir.step full) (DataDir.Allows full) (DataDir.fresh path) es) :
    let d := runFrom (DataDir.step full) (DataDir.fresh path) es
    let run := translate (DataDir.step full) DataDir.oneNode (DataDir.fresh path) es
    let s := runFrom (NodeStores.step full) NodeStores.fresh run
    (∀ p q, d.phase p ≠ .closed → d.phase q ≠ .closed → p = q) ∧
    (∀ p, acquire none d.path d.lock p = .ok p ↔ ∀ q, d.phase q = .closed) ∧
    Along (NodeStores.step full) (NodeStores.Allows full) NodeStores.fresh run ∧
    (d.committed = s.committed ∧ d.walEnv = s.wal.env ∧ d.smEnv = s.sm.env) ∧
    ∀ p wal sm, d.phase p = .serving wal sm → wal = s.wal ∧ sm = s.sm := by
  intro d run s
  obtain ⟨hrun, howned⟩ : Along (NodeStores.step full) (NodeStores.Allows full)
      NodeStores.fresh run ∧ d.Owned s :=
    runFrom_simulates (fun _ _ _ h he => h.step he) (DataDir.Owned.fresh path) hes
  refine ⟨?_, howned.acquire_iff, hrun, ⟨?_, ?_, ?_⟩, ?_⟩
  · intro p q hp hq
    by_contra hne
    exact hp ((howned.owner hq).2.2 p hne)
  · exact (congrArg DataDir.committed howned.stores).symm
  · exact (congrArg DataDir.walEnv howned.stores).symm
  · exact (congrArg DataDir.smEnv howned.stores).symm
  · intro p wal sm hp
    have hmatches := (howned.owner (p := p) (by simp [hp])).2.1
    rw [hp] at hmatches
    exact ⟨hmatches.1.symm, hmatches.2.symm⟩

/-- A process starts while another serves, and again after that one was killed between an
apply and the write of its position. -/
theorem one_process_at_a_time_restart :
    let es : List (DirEvent LogId UInt64) :=
      [.acquire 0 none, .openLog 0 Faults.none, .openStateMachine 0 Faults.none,
        .act 0 (.write Faults.none (.persistEntries threeEntries.entries)), .acquire 1 none,
        .act 0 (.commit 3), .act 0 (.call (.apply Faults.none 1)), .kill 0, .acquire 1 none,
        .openLog 1 Faults.none, .openStateMachine 1 Faults.none]
    let d := runFrom (DataDir.step threeEntries) (DataDir.fresh "data") es
    (match d.phase 1 with
      | .serving wal sm => wal.lastIndex = 3 ∧ sm.lastAppliedIndex = 0
      | _ => False) ∧ ∀ q, d.phase q ≠ .closed → q = 1 := by
  intro es d
  have hstored : ∀ e ∈ (threeEntries.entries.drop 0).take 3,
      ((runFrom (DataDir.step threeEntries) (DataDir.fresh "data") (es.take 5)).walEnv .logDb).get
        (toBeBytes e.index) = some (plainFormats.entry.encode e) := by decide
  have hes : Along (DataDir.step threeEntries) (DataDir.Allows threeEntries)
      (DataDir.fresh "data") es := by
    refine ⟨trivial, trivial, trivial, ?_, trivial, ?_, fun _ _ _ => trivial, trivial, trivial,
      trivial, trivial, trivial⟩
    · have hpos : ∀ e ∈ threeEntries.entries, 0 < e.index.toNat := by decide
      intro wal sm _ e he hle
      exact absurd hle (Nat.not_le.mpr (hpos e he))
    · intro wal sm _
      exact hstored
  have hserving : match d.phase 1 with
      | .serving wal sm => wal.lastIndex = 3 ∧ sm.lastAppliedIndex = 0
      | _ => False := ⟨by decide, by decide⟩
  refine ⟨hserving, ?_⟩
  intro q hq
  refine (one_process_at_a_time threeEntries "data" hes).1 q 1 hq ?_
  intro hclosed
  change d.phase 1 = .closed at hclosed
  rw [hclosed] at hserving
  exact hserving

end DLmdb
