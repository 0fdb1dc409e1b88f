import DLmdb.StorageEngine.LastIndex

/-!
# What the purge boundary tells

`purge` writes its cutoff over the boundary before, whatever that was, and nothing else
writes the boundary: `reset` clears `log_db` and leaves `meta_db` alone. A restart takes
the boundary for the index up to which entries are gone.
-/

namespace DLmdb

open Framework Lmdb

/-! ## A log with its history -/

section
variable {Entry HardState : Type}

/-- The cutoff of a purge. -/
def LogOp.cutoff? : LogOp Entry HardState → Option LogId
  | .purge c => some c
  | _ => none

/-- The calls since the last reset, after one more. -/
def LogOp.record (since : List (LogOp Entry HardState)) :
    LogOp Entry HardState → List (LogOp Entry HardState)
  | .reset => []
  | op => op :: since

end

/-- A log beside the write calls that went through since the last reset, the last one
first. -/
structure LogHistory (Entry HardState : Type) where
  wal : LmdbWal
  since : List (LogOp Entry HardState)

variable {Entry HardState : Type}

namespace LogHistory

def fresh : LogHistory Entry HardState := ⟨freshWal, []⟩

/-- The cutoffs of the purges since the last reset. -/
def cutoffs (s : LogHistory Entry HardState) : List LogId := s.since.filterMap LogOp.cutoff?

def step (fmt : Formats Entry HardState) (s : LogHistory Entry HardState)
    (e : LogEvent Entry HardState) : LogHistory Entry HardState where
  wal := s.wal.step fmt e
  since :=
    match e with
    | .write flt op =>
        match (op.call fmt flt s.wal).result with
        | .ok _ => op.record s.since
        | .error _ => s.since
    | _ => s.since

end LogHistory

/-- One of the cutoffs with the highest index; none if there are no cutoffs. -/
def Highest (cutoffs : List LogId) : Option LogId → Prop
  | none => cutoffs = []
  | some c => c ∈ cutoffs ∧ ∀ d ∈ cutoffs, d.index ≤ c.index

/-- No read tells the log from one opened on an empty directory. -/
structure LooksFresh (fmt : Formats Entry HardState) (wal : LmdbWal) : Prop where
  loadPurgeBoundary : ∀ flt,
    wal.loadPurgeBoundary fmt flt = freshWal.loadPurgeBoundary fmt flt
  lastIndex : wal.lastIndex = freshWal.lastIndex
  entry : ∀ flt i, wal.entry fmt flt i = freshWal.entry fmt flt i
  getEntries : ∀ flt first last,
    wal.getEntries fmt flt first last = freshWal.getEntries fmt flt first last

namespace LogHistory

/-- **What the boundary tells**: the highest cutoff since the last reset, unless a storage
operation fails; and a log that was reset, or never written, looks fresh. -/
structure TellsPurged (fmt : Formats Entry HardState) (s : LogHistory Entry HardState) :
    Prop where
  boundary : ∀ flt, Answered flt (Highest s.cutoffs) (s.wal.loadPurgeBoundary fmt flt)
  fresh : s.since = [] → LooksFresh fmt s.wal

/-- Anything but a reset leaves the boundary where it is or moves it forward. -/
def MovesForward (fmt : Formats Entry HardState) (s : LogHistory Entry HardState)
    (e : LogEvent Entry HardState) : Prop :=
  (∀ flt, e ≠ .write flt .reset) →
    ∀ b, s.wal.loadPurgeBoundary fmt Faults.none = .ok (some b) →
      ∃ b', (s.step fmt e).wal.loadPurgeBoundary fmt Faults.none = .ok (some b') ∧
        b.index ≤ b'.index

/-- A purge that goes through is not behind an earlier one, and a reset that goes through
finds no purge. -/
def InOrder (s : LogHistory Entry HardState) : LogEvent Entry HardState → Prop
  | .write flt (.purge c) => (∀ n < 4, flt n = none) → ∀ d ∈ s.cutoffs, d.index ≤ c.index
  | .write flt .reset => (∀ n < 3, flt n = none) → s.cutoffs = []
  | _ => True

end LogHistory

/-! ## The highest cutoff -/

theorem highest_nil {b : Option LogId} : Highest [] b ↔ b = none := by
  cases b with
  | none => exact iff_of_true rfl rfl
  | some c =>
      constructor
      · rintro ⟨hmem, -⟩
        cases hmem
      · rintro ⟨⟩

theorem highest_cons {c : LogId} {cutoffs : List LogId} :
    Highest (c :: cutoffs) (some c) ↔ ∀ d ∈ cutoffs, d.index ≤ c.index := by
  constructor
  · rintro ⟨-, hall⟩ d hd
    exact hall d (List.mem_cons_of_mem c hd)
  · intro hall
    refine ⟨List.mem_cons_self, ?_⟩
    intro d hd
    rcases List.mem_cons.mp hd with rfl | hd
    · exact UInt64.le_refl _
    · exact hall d hd

theorem Highest.eq_none_iff {cutoffs : List LogId} {b : Option LogId} (h : Highest cutoffs b) :
    b = none ↔ cutoffs = [] := by
  constructor
  · rintro rfl
    exact h
  · rintro rfl
    exact highest_nil.mp h

/-- Among more cutoffs the highest is higher. -/
theorem Highest.mono {cutoffs cutoffs' : List LogId} {b : LogId} {b' : Option LogId}
    (h : Highest cutoffs (some b)) (h' : Highest cutoffs' b')
    (hsub : ∀ d ∈ cutoffs, d ∈ cutoffs') : ∃ c, b' = some c ∧ b.index ≤ c.index := by
  have hb := hsub b h.1
  cases b' with
  | none =>
      rw [show cutoffs' = [] from h'] at hb
      cases hb
  | some c => exact ⟨c, rfl, h'.2 b hb⟩

/-! ## An empty log -/

section
variable {fmt : Formats Entry HardState}

/-- A transaction that reads one thing: whether it fails is not up to the environment. -/
theorem begin_read {α : Type} (flt : Faults) {r : Txn WalDb → Except HeedError (Txn WalDb × α)}
    {g : WalEnv → α} (hr : ∀ t, r t = t.tick >>= fun t => .ok (t, g t.env)) :
    (∃ e, ∀ env, (Txn.begin flt env >>= r) = .error e) ∨
      ∀ env, (Txn.begin flt env >>= r) = .ok (⟨flt, 2, env⟩, g env) := by
  cases h₀ : flt 0 with
  | some e => exact Or.inl ⟨e, fun env => by simp [Txn.begin, Txn.tick, h₀, bind, Except.bind]⟩
  | none =>
      cases h₁ : flt 1 with
      | some e =>
          exact Or.inl ⟨e, fun env => by simp [Txn.begin, Txn.tick, hr, h₀, h₁, bind, Except.bind]⟩
      | none =>
          exact Or.inr (fun env => by simp [Txn.begin, Txn.tick, hr, h₀, h₁, bind, Except.bind])

/-- A call that reads one thing depends on that, and on nothing else in the environment. -/
theorem read_congr {α β : Type} (flt : Faults)
    {r : Txn WalDb → Except HeedError (Txn WalDb × α)} (g : WalEnv → α)
    (hr : ∀ t, r t = t.tick >>= fun t => .ok (t, g t.env)) {env env' : WalEnv}
    (h : g env = g env') {f : Txn WalDb × α → Except EngineError β}
    (hf : ∀ t t', f (t, g env) = f (t', g env)) :
    (Except.mapError dbErr (Txn.begin flt env >>= r) >>= f) =
      (Except.mapError dbErr (Txn.begin flt env' >>= r) >>= f) := by
  rcases begin_read flt hr with ⟨e, hfail⟩ | hread
  · rw [hfail, hfail]
  · rw [hread, hread, ← h]
    exact hf _ _

/-- A lookup, as such a read. -/
theorem get_eq_read {k : Bytes} (hk : k ≠ []) (d : WalDb) (t : Txn WalDb) :
    t.get d k = t.tick >>= fun t => .ok (t, (t.env d).get k) := by
  rw [Txn.get]
  simp only [if_neg hk]

theorem range_eq_read {k : Bytes} (hk : k ≠ []) (d : WalDb) (hi : Bound) (t : Txn WalDb) :
    t.range d (.included k) hi = t.tick >>= fun t => .ok (t, (t.env d).range (.included k) hi) := by
  have hstart : ¬ (Bound.included k = .included [] ∨ Bound.included k = .excluded []) := by
    rintro (hnil | hnil)
    · exact hk (Bound.included.inj hnil)
    · cases hnil
  rw [Txn.range]
  simp only [if_neg hstart]

theorem range_empty (lo hi : Bound) : (∅ : Database).range lo hi = [] := by
  rw [List.eq_nil_iff_forall_not_mem]
  rintro ⟨k, v⟩ hmem
  have hget := (Database.mem_range.mp hmem).1
  rw [Database.get_empty] at hget
  cases hget

/-- **A log without entries, boundary and last index** looks fresh. -/
theorem LooksFresh.of_empty {wal : LmdbWal} (hlog : wal.env .logDb = ∅)
    (hboundary : (wal.env .metaDb).get keyPurgeBoundary = none) (hlast : wal.lastIndex = 0) :
    LooksFresh fmt wal where
  loadPurgeBoundary flt := by
    have hkey : keyPurgeBoundary ≠ [] := by decide
    refine read_congr flt (fun env => (env .metaDb).get keyPurgeBoundary)
      (get_eq_read hkey .metaDb) ?_ (fun _ _ => rfl)
    rw [hboundary]
    exact (Database.get_empty _).symm
  lastIndex := hlast
  entry flt i := by
    refine read_congr flt (fun env => (env .logDb).get (toBeBytes i))
      (get_eq_read (toBeBytes_ne_nil i) .logDb) ?_ (fun _ _ => rfl)
    rw [hlog]
    rfl
  getEntries flt first last := by
    have hnone : ∀ env : WalEnv, env .logDb = ∅ →
        (env .logDb).range (.included (toBeBytes first)) .unbounded = [] := by
      intro env henv
      rw [henv]
      exact range_empty _ _
    refine read_congr flt (fun env => (env .logDb).range (.included (toBeBytes first)) .unbounded)
      (range_eq_read (toBeBytes_ne_nil first) .logDb .unbounded) ?_ ?_
    · rw [hnone _ hlog]
      exact (hnone freshWal.env rfl).symm
    · intro t t'
      rw [hnone _ hlog]
      rfl

/-! ## What the calls do to it -/

theorem LogRows.eq_empty {db : Database} (h : LogRows fmt db (fun _ => none)) : db = ∅ := by
  apply Database.ext_get
  intro k
  rw [Database.get_empty]
  cases hget : db.get k with
  | none => rfl
  | some v =>
      obtain ⟨e, he, -, -⟩ := h.of_get hget
      cases he

/-- **The invariant**: the environment holds a map, and nothing of a log if no call went
through since the last reset. -/
structure LogHistory.Records (fmt : Formats Entry HardState) (s : LogHistory Entry HardState)
    (m : LogModel Entry HardState) : Prop where
  represents : Represents fmt s.wal.env m
  empty : s.since = [] → s.wal.env .logDb = ∅ ∧ s.wal.lastIndex = 0

namespace LogHistory

variable {s : LogHistory Entry HardState} {m : LogModel Entry HardState}

theorem fresh_records : (fresh : LogHistory Entry HardState).Records fmt LogModel.empty where
  represents := empty_represents fmt
  empty _ := ⟨rfl, rfl⟩

theorem Records.tells_iff (h : s.Records fmt m) :
    s.TellsPurged fmt ↔ Highest s.cutoffs m.boundary := by
  constructor
  · intro htells
    have hload := htells.boundary Faults.none
    rw [(h.represents.loadPurgeBoundary_answered Faults.none).eq_ok] at hload
    exact hload
  · intro hhighest
    constructor
    · intro flt
      apply (h.represents.loadPurgeBoundary_answered flt).mono
      rintro b rfl
      exact hhighest
    · intro hsince
      obtain ⟨hlog, hlast⟩ := h.empty hsince
      have hnone : m.boundary = none := by
        apply hhighest.eq_none_iff.mpr
        rw [cutoffs, hsince]
        rfl
      refine LooksFresh.of_empty hlog ?_ hlast
      rw [h.represents.boundary, hnone]
      rfl

theorem since_ok {flt : Faults} {op : LogOp Entry HardState}
    (hres : (op.call fmt flt s.wal).result = .ok ()) :
    (s.step fmt (.write flt op)).since = op.record s.since := by
  simp only [step, hres]

theorem since_error {flt : Faults} {op : LogOp Entry HardState} {err : EngineError}
    (hres : (op.call fmt flt s.wal).result = .error err) :
    (s.step fmt (.write flt op)).since = s.since := by
  simp only [step, hres]

theorem Records.step_error (h : s.Records fmt m) {flt : Faults} {op : LogOp Entry HardState}
    {err : EngineError} (hres : (op.call fmt flt s.wal).result = .error err) :
    s.step fmt (.write flt op) = s := by
  have hwal : (s.step fmt (.write flt op)).wal = s.wal :=
    (h.represents.perform flt op).after_error hres
  calc s.step fmt (.write flt op)
      = ⟨(s.step fmt (.write flt op)).wal, (s.step fmt (.write flt op)).since⟩ := rfl
    _ = s := by rw [hwal, since_error hres]

theorem Records.write (h : s.Records fmt m) {flt : Faults} {op : LogOp Entry HardState}
    (hres : (op.call fmt flt s.wal).result = .ok ()) :
    (s.step fmt (.write flt op)).Records fmt (m.perform fmt.index op) := by
  have hrep := (h.represents.perform flt op).after_ok hres
  refine ⟨hrep, ?_⟩
  rw [since_ok hres]
  intro hsince
  cases op with
  | reset => exact ⟨hrep.log.eq_empty, reset_lastIndex hres⟩
  | _ => cases hsince

theorem Records.reopen (h : s.Records fmt m) (flt : Faults) :
    (s.step fmt (.reopen flt)).Records fmt m := by
  have henv : (s.step fmt (.reopen flt)).wal.env = s.wal.env := LmdbWal.reopened_env flt s.wal
  constructor
  · rw [henv]
    exact h.represents
  · intro hsince
    obtain ⟨hlog, hlast⟩ := h.empty hsince
    refine ⟨(congrFun henv .logDb).trans hlog, ?_⟩
    show (s.wal.reopened flt).lastIndex = 0
    unfold LmdbWal.reopened
    split
    · rename_i wal' hnew
      rw [(LmdbWal.new_ok hnew).2, hlog]
      rfl
    · exact hlast

/-- A call that fails was in order. -/
theorem inOrder_of_error {flt : Faults} {op : LogOp Entry HardState} {err : EngineError}
    (hres : (op.call fmt flt s.wal).result = .error err) : s.InOrder (.write flt op) := by
  cases op with
  | purge c =>
      intro hflt
      have hok : (LogOp.call fmt flt s.wal (.purge c : LogOp Entry HardState)).result = .ok () :=
        (purge_result fmt flt s.wal c).mpr hflt
      rw [hok] at hres
      cases hres
  | reset =>
      intro hflt
      have hok : (LogOp.call fmt flt s.wal (.reset : LogOp Entry HardState)).result = .ok () :=
        (reset_result flt s.wal).mpr hflt
      rw [hok] at hres
      cases hres
  | _ => trivial

/-- A call that went through was in order if and only if the boundary is right after it. -/
theorem inOrder_iff_of_ok (h : Highest s.cutoffs m.boundary) {flt : Faults}
    {op : LogOp Entry HardState} (hres : (op.call fmt flt s.wal).result = .ok ()) :
    s.InOrder (.write flt op) ↔
      Highest ((op.record s.since).filterMap LogOp.cutoff?) (m.perform fmt.index op).boundary := by
  cases op with
  | purge c =>
      have hflt := (purge_result fmt flt s.wal c).mp hres
      show ((∀ n < 4, flt n = none) → _) ↔ Highest (c :: s.cutoffs) (some c)
      rw [highest_cons, forall_prop_of_true hflt]
  | reset =>
      have hflt := (reset_result flt s.wal).mp hres
      show ((∀ n < 3, flt n = none) → _) ↔ Highest [] m.boundary
      rw [highest_nil, forall_prop_of_true hflt]
      exact h.eq_none_iff.symm
  | persistEntries es => exact iff_of_true trivial h
  | truncate i => exact iff_of_true trivial h
  | saveHardState x => exact iff_of_true trivial h

/-- **One event.** -/
theorem Records.step (h : s.Records fmt m) (e : LogEvent Entry HardState) :
    ∃ m', (s.step fmt e).Records fmt m' ∧
      (Highest s.cutoffs m.boundary →
        (s.InOrder e ↔ Highest (s.step fmt e).cutoffs m'.boundary)) := by
  cases e with
  | write flt op =>
      cases hres : (op.call fmt flt s.wal).result with
      | error err =>
          rw [h.step_error hres]
          exact ⟨m, h, iff_of_true (inOrder_of_error hres)⟩
      | ok u =>
          refine ⟨_, h.write hres, ?_⟩
          intro hhighest
          rw [cutoffs, since_ok hres]
          exact inOrder_iff_of_ok hhighest hres
  | reopen flt => exact ⟨m, h.reopen flt, iff_of_true trivial⟩
  | _ => exact ⟨m, h, iff_of_true trivial⟩

/-- Only a reset forgets cutoffs. -/
theorem cutoffs_step {e : LogEvent Entry HardState} (he : ∀ flt, e ≠ .write flt .reset)
    {d : LogId} (hd : d ∈ s.cutoffs) : d ∈ (s.step fmt e).cutoffs := by
  cases e with
  | write flt op =>
      rw [cutoffs]
      cases hres : (op.call fmt flt s.wal).result with
      | error err =>
          rw [since_error hres]
          exact hd
      | ok u =>
          have hrecord : op.record s.since = op :: s.since := by
            cases op with
            | reset => exact absurd rfl (he flt)
            | _ => rfl
          rw [since_ok hres, hrecord]
          obtain ⟨op', hmem, hcutoff⟩ := List.mem_filterMap.mp hd
          exact List.mem_filterMap.mpr ⟨op', List.mem_cons_of_mem op hmem, hcutoff⟩
  | _ => exact hd

theorem TellsPurged.movesForward {e : LogEvent Entry HardState} (h : s.TellsPurged fmt)
    (h' : (s.step fmt e).TellsPurged fmt) : s.MovesForward fmt e := by
  intro he b hb
  have hhighest := h.boundary Faults.none
  rw [hb] at hhighest
  obtain ⟨b', hb', hhighest'⟩ := (h'.boundary Faults.none).exists_ok
  obtain ⟨c, rfl, hle⟩ := Highest.mono hhighest hhighest' (fun _ hd => cutoffs_step he hd)
  exact ⟨c, hb', hle⟩

end LogHistory

/-- **The purge boundary tells what was purged** at every point of a run of writes, reads
and restarts, with any arguments and any storage operation failing, if and only if no
purge of the run is behind an earlier one and no reset of it finds a purge. -/
theorem purgeBoundary_tells_iff (fmt : Formats Entry HardState)
    (es : List (LogEvent Entry HardState)) :
    Along (LogHistory.step fmt) LogHistory.InOrder LogHistory.fresh es ↔
      Throughout (LogHistory.step fmt) (LogHistory.TellsPurged fmt) LogHistory.fresh es ∧
        Along (LogHistory.step fmt) (LogHistory.MovesForward fmt) LogHistory.fresh es := by
  have hiff : Along (LogHistory.step fmt) LogHistory.InOrder LogHistory.fresh es ↔
      Throughout (LogHistory.step fmt) (LogHistory.TellsPurged fmt) LogHistory.fresh es := by
    apply along_iff_throughout (J := fun s => ∃ m, s.Records fmt m)
    · rintro s e ⟨m, h⟩
      obtain ⟨m', h', -⟩ := h.step e
      exact ⟨m', h'⟩
    · rintro s e ⟨m, h⟩ htells
      obtain ⟨m', h', hstep⟩ := h.step e
      rw [h'.tells_iff]
      exact hstep (h.tells_iff.mp htells)
    · exact ⟨LogModel.empty, LogHistory.fresh_records⟩
    · exact LogHistory.fresh_records.tells_iff.mpr (highest_nil.mpr rfl)
  rw [hiff, iff_self_and]
  intro hall
  exact hall.along (fun _ _ h h' => h.movesForward h')

end

/-- A purge up to 3 after one up to 5 puts the boundary back; a reset after a purge
leaves it, in a log without entries. -/
theorem purgeBoundary_misled :
    let late : List (LogEvent LogId UInt64) :=
      [.write Faults.none (.purge ⟨5, 1⟩), .write Faults.none (.purge ⟨3, 1⟩)]
    let emptied : List (LogEvent LogId UInt64) :=
      [.write Faults.none (.purge ⟨5, 1⟩), .write Faults.none .reset]
    let run := runFrom (LogHistory.step plainFormats) LogHistory.fresh
    (run late).wal.loadPurgeBoundary plainFormats Faults.none = .ok (some ⟨3, 1⟩) ∧
      ¬ (run late).TellsPurged plainFormats ∧
      (run emptied).wal.loadPurgeBoundary plainFormats Faults.none = .ok (some ⟨5, 1⟩) ∧
      ¬ (run emptied).TellsPurged plainFormats := by
  intro late emptied run
  have hlate : (run late).wal.loadPurgeBoundary plainFormats Faults.none = .ok (some ⟨3, 1⟩) := rfl
  have hemptied : (run emptied).wal.loadPurgeBoundary plainFormats Faults.none =
      .ok (some ⟨5, 1⟩) := rfl
  refine ⟨hlate, ?_, hemptied, ?_⟩
  · intro htells
    have hhighest := htells.boundary Faults.none
    rw [hlate] at hhighest
    have hfive : (⟨5, 1⟩ : LogId) ∈ (run late).cutoffs := List.mem_cons_of_mem _ List.mem_cons_self
    exact absurd (hhighest.2 _ hfive) (by decide)
  · intro htells
    have hhighest := htells.boundary Faults.none
    rw [hemptied] at hhighest
    cases hhighest.1

end DLmdb
