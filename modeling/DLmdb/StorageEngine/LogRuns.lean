import DLmdb.Framework.Protobuf
import DLmdb.Framework.Runs
import DLmdb.StorageEngine.LogModel

/-!
# Runs of the log

`LmdbWal` beside the map it stands for, through any sequence of writes, reads and
restarts, with any storage operation failing. Nothing but the environment outlives a
process, so closing and crashing between two calls come to the same.
-/

namespace DLmdb

open Framework Lmdb

variable {Entry HardState : Type} {fmt : Formats Entry HardState}

/-! ## Reads -/

/-- The error is that of a storage operation that failed. -/
def Injected (flt : Faults) (err : EngineError) : Prop := ∃ n e, flt n = some e ∧ err = dbErr e

/-- The call returns what `P` says, or reports a storage operation that failed. -/
def Answered {α : Type} (flt : Faults) (P : α → Prop) : Except EngineError α → Prop
  | .ok a => P a
  | .error err => Injected flt err

theorem Answered.mono {α : Type} {flt : Faults} {P Q : α → Prop} {x : Except EngineError α}
    (h : Answered flt P x) (hpq : ∀ a, P a → Q a) : Answered flt Q x := by
  cases x with
  | ok a => exact hpq a h
  | error err => exact h

/-- Without faults there is no error to report. -/
theorem Answered.exists_ok {α : Type} {P : α → Prop} {x : Except EngineError α}
    (h : Answered Faults.none P x) : ∃ a, x = .ok a ∧ P a := by
  cases x with
  | ok a => exact ⟨a, rfl, h⟩
  | error err =>
      obtain ⟨n, e, hn, -⟩ := h
      cases hn

theorem Answered.eq_ok {α : Type} {a : α} {x : Except EngineError α}
    (h : Answered Faults.none (fun y => y = a) x) : x = .ok a := by
  obtain ⟨a', hx, rfl⟩ := h.exists_ok
  exact hx

theorem begin_injected {flt : Faults} {env : WalEnv} {e : HeedError}
    (h : Txn.begin flt env = .error e) : Injected flt (dbErr e) := by
  obtain ⟨n, hn⟩ := Txn.tick_error h
  exact ⟨n, e, hn, rfl⟩

/-- A point lookup hands on what is stored. -/
theorem lookup_answered {β : Type} {flt : Faults} {env : WalEnv} {d : WalDb} {k : Bytes}
    (hk : k ≠ []) {f : Txn WalDb × Option Bytes → Except EngineError β} {P : β → Prop}
    (h : ∀ t, Answered flt P (f (t, (env d).get k))) :
    Answered flt P
      ((Except.mapError dbErr do
        let rtxn ← Txn.begin flt env
        rtxn.get d k) >>= f) := by
  cases h₀ : Txn.begin flt env with
  | error e => exact begin_injected h₀
  | ok t₀ =>
      obtain ⟨e₀, hflt⟩ := Txn.begin_ok h₀
      show Answered flt P (Except.mapError dbErr (t₀.get d k) >>= f)
      cases h₁ : t₀.get d k with
      | error e =>
          obtain ⟨n, hn⟩ := Txn.get_error hk h₁
          rw [hflt] at hn
          exact ⟨n, e, hn, rfl⟩
      | ok x =>
          obtain ⟨t₁, bytes⟩ := x
          obtain ⟨-, -, -, rfl⟩ := Txn.get_ok h₁
          rw [e₀]
          exact h t₁

/-- The pair an entry is stored as. -/
def rowOf (fmt : Formats Entry HardState) (e : Entry) : Bytes × Bytes :=
  (toBeBytes (fmt.index e), fmt.entry.encode e)

theorem rowOf_inj {e e' : Entry} (h : rowOf fmt e = rowOf fmt e') : e = e' :=
  fmt.entry.encode_inj (congrArg Prod.snd h)

/-- One round of the loop of `get_entries`, over a stored entry. -/
theorem entriesLoop_row (last : UInt64) (e : Entry) (items : List (Bytes × Bytes))
    (rtxn : Txn WalDb) (acc : List Entry) :
    LmdbWal.entriesLoop fmt last (rowOf fmt e :: items) rtxn acc =
      (rtxn.tick.mapError dbErr >>= fun rtxn =>
        if fmt.index e > last then .ok acc
        else LmdbWal.entriesLoop fmt last items rtxn (acc ++ [e])) := by
  have hdecode : LmdbWal.decodeEntry fmt (fmt.entry.encode e) = .ok e := by
    rw [LmdbWal.decodeEntry, fmt.entry.decode_encode]
    rfl
  rw [rowOf, LmdbWal.entriesLoop, u64FromKey_toBeBytes, hdecode]
  rfl

/-- **The loop of `get_entries`** over stored entries, the early `break` included. -/
theorem entriesLoop_answered {flt : Faults} (last : UInt64) {es : List Entry}
    (hes : es.Pairwise (fun a b => fmt.index a < fmt.index b)) {rtxn : Txn WalDb}
    (hflt : rtxn.faults = flt) (acc : List Entry) :
    Answered flt (fun out => out = acc ++ es.filter (fun e => fmt.index e ≤ last))
      (LmdbWal.entriesLoop fmt last (es.map (rowOf fmt)) rtxn acc) := by
  induction es generalizing rtxn acc with
  | nil => exact (List.append_nil acc).symm
  | cons e es ih =>
      obtain ⟨hhead, htail⟩ := List.pairwise_cons.mp hes
      rw [List.map_cons, entriesLoop_row]
      cases h₁ : rtxn.tick with
      | error err =>
          obtain ⟨n, hn⟩ := Txn.tick_error h₁
          rw [hflt] at hn
          exact ⟨n, err, hn, rfl⟩
      | ok rtxn' =>
          have hflt' : rtxn'.faults = flt := by
            rw [Txn.tick_ok h₁]
            exact hflt
          show Answered flt _ (if fmt.index e > last then .ok acc
            else LmdbWal.entriesLoop fmt last (es.map (rowOf fmt)) rtxn' (acc ++ [e]))
          by_cases hgt : last < fmt.index e
          · -- the `break`: every later key is larger still
            have hfilter : (e :: es).filter (fun e => decide (fmt.index e ≤ last)) = [] := by
              rw [List.filter_eq_nil_iff]
              intro e' he' hle
              have hle := of_decide_eq_true hle
              rcases List.mem_cons.mp he' with rfl | he'
              · exact UInt64.not_le.mpr hgt hle
              · exact UInt64.not_le.mpr (UInt64.lt_trans hgt (hhead e' he')) hle
            rw [hfilter, List.append_nil, if_pos hgt]
            rfl
          · have hfilter : (e :: es).filter (fun e => decide (fmt.index e ≤ last)) =
                e :: es.filter (fun e => decide (fmt.index e ≤ last)) :=
              List.filter_cons_of_pos (decide_eq_true (UInt64.not_lt.mp hgt))
            have happend : acc ++ (e :: es).filter (fun e => decide (fmt.index e ≤ last)) =
                acc ++ [e] ++ es.filter (fun e => decide (fmt.index e ≤ last)) := by
              rw [hfilter, List.append_assoc, List.singleton_append]
            rw [happend, if_neg hgt]
            exact ih htail hflt' (acc ++ [e])

/-- What a range from `first` on meets: the rows of the entries at or above `first`, in
the order of their indices. -/
theorem LogRows.range_rows {db : Database} {f : UInt64 → Option Entry} (h : LogRows fmt db f)
    (first : UInt64) :
    ∃ es : List Entry,
      db.range (.included (toBeBytes first)) .unbounded = es.map (rowOf fmt) ∧
      es.Pairwise (fun a b => fmt.index a < fmt.index b) ∧
      ∀ e, e ∈ es ↔ first ≤ fmt.index e ∧ f (fmt.index e) = some e := by
  have hrange : ∀ x ∈ db.range (.included (toBeBytes first)) .unbounded,
      x ∈ Set.range (rowOf fmt) := by
    rintro ⟨k, v⟩ hx
    obtain ⟨e, -, rfl, rfl⟩ := h.of_get (Database.mem_range.mp hx).1
    exact ⟨e, rfl⟩
  have hlist : db.range (.included (toBeBytes first)) .unbounded ∈
      Set.range (List.map (rowOf fmt)) := by
    rw [Set.range_list_map]
    exact hrange
  obtain ⟨es, hes⟩ := hlist
  refine ⟨es, hes.symm, ?_, ?_⟩
  · have hsorted := db.range_sorted (.included (toBeBytes first)) .unbounded
    rw [← hes, List.pairwise_map] at hsorted
    exact hsorted.imp (fun hlt => compare_toBeBytes_lt.mp hlt)
  · intro e
    have hmem : rowOf fmt e ∈ es.map (rowOf fmt) ↔
        first ≤ fmt.index e ∧ f (fmt.index e) = some e := by
      rw [hes, rowOf, Database.mem_range, h.get_iff, inRange_from_toBeBytes]
      exact and_comm
    rw [← hmem]
    constructor
    · intro he
      exact List.mem_map_of_mem he
    · intro he
      obtain ⟨e', he', hrow⟩ := List.mem_map.mp he
      rw [← rowOf_inj hrow]
      exact he'

/-- The entries of the map from `first` to `last`: each once, by increasing index. -/
structure Lists (fmt : Formats Entry HardState) (f : UInt64 → Option Entry)
    (first last : UInt64) (es : List Entry) : Prop where
  increasing : es.Pairwise (fun a b => fmt.index a < fmt.index b)
  mem_iff : ∀ e, e ∈ es ↔ ∃ i, first ≤ i ∧ i ≤ last ∧ f i = some e
  empty : last < first → es = []

/-- The entries of a range from `first` on, cut off after `last`. -/
theorem LogRows.lists_filter {db : Database} {f : UInt64 → Option Entry} (h : LogRows fmt db f)
    {first last : UInt64} {es : List Entry}
    (hsorted : es.Pairwise (fun a b => fmt.index a < fmt.index b))
    (hmem : ∀ e, e ∈ es ↔ first ≤ fmt.index e ∧ f (fmt.index e) = some e) :
    Lists fmt f first last (es.filter (fun e => fmt.index e ≤ last)) := by
  have hiff : ∀ e, e ∈ es.filter (fun e => decide (fmt.index e ≤ last)) ↔
      ∃ i, first ≤ i ∧ i ≤ last ∧ f i = some e := by
    intro e
    rw [List.mem_filter, decide_eq_true_eq, hmem]
    constructor
    · rintro ⟨⟨hfirst, hf⟩, hlast⟩
      exact ⟨fmt.index e, hfirst, hlast, hf⟩
    · rintro ⟨i, hfirst, hlast, hf⟩
      have hidx := h.indexed i e hf
      subst hidx
      exact ⟨⟨hfirst, hf⟩, hlast⟩
  refine ⟨hsorted.filter _, hiff, ?_⟩
  intro hlt
  rw [List.eq_nil_iff_forall_not_mem]
  intro e he
  obtain ⟨i, hfirst, hlast, -⟩ := (hiff e).mp he
  exact UInt64.not_le.mpr hlt (UInt64.le_trans hfirst hlast)

namespace Represents

variable {wal : LmdbWal} {m : LogModel Entry HardState}

/-- A row of `meta_db` or `log_db`, found and decoded. -/
theorem entry_answered (h : Represents fmt wal.env m) (flt : Faults) (i : UInt64) :
    Answered flt (fun x => x = m.entries i) (wal.entry fmt flt i) := by
  refine lookup_answered (toBeBytes_ne_nil i) (fun t => ?_)
  rw [h.log.row i]
  cases m.entries i with
  | none => rfl
  | some e =>
      show Answered flt _ (LmdbWal.decodeEntry fmt (fmt.entry.encode e) >>= fun entry =>
        pure (some entry))
      rw [LmdbWal.decodeEntry, fmt.entry.decode_encode]
      rfl

theorem getEntries_answered (h : Represents fmt wal.env m) (flt : Faults)
    (first last : UInt64) :
    Answered flt (Lists fmt m.entries first last) (wal.getEntries fmt flt first last) := by
  unfold LmdbWal.getEntries
  cases h₀ : Txn.begin flt wal.env with
  | error e => exact begin_injected h₀
  | ok t₀ =>
      obtain ⟨e₀, hflt⟩ := Txn.begin_ok h₀
      show Answered flt _
        (Except.mapError dbErr (t₀.range .logDb (.included (toBeBytes first)) .unbounded) >>=
          fun x => LmdbWal.entriesLoop fmt last x.2 x.1 [])
      cases h₁ : t₀.range .logDb (.included (toBeBytes first)) .unbounded with
      | error e =>
          obtain ⟨n, hn⟩ := Txn.range_error (toBeBytes_ne_nil first) h₁
          rw [hflt] at hn
          exact ⟨n, e, hn, rfl⟩
      | ok x =>
          obtain ⟨t₁, items⟩ := x
          obtain ⟨-, hflt₁, rfl⟩ := Txn.range_ok h₁
          obtain ⟨es, hrows, hsorted, hmem⟩ := h.log.range_rows first
          rw [e₀, hrows]
          apply (entriesLoop_answered last hsorted (hflt₁.trans hflt) []).mono
          rintro out rfl
          rw [List.nil_append]
          exact h.log.lists_filter hsorted hmem

theorem loadHardState_answered (h : Represents fmt wal.env m) (flt : Faults) :
    Answered flt (fun x => x = m.hardState) (wal.loadHardState fmt flt) := by
  refine lookup_answered (by decide) (fun t => ?_)
  have hsaved := h.hardState
  cases hm : m.hardState with
  | none =>
      rw [hm] at hsaved
      rw [show (wal.env .metaDb).get keyHardState = none from hsaved]
      rfl
  | some s =>
      rw [hm] at hsaved
      obtain ⟨bytes, hser, hget⟩ := hsaved
      rw [hget]
      show Answered flt _ ((fmt.hardState.deserialize bytes).mapError EngineError.bincodeError >>=
        fun state => pure (some state))
      rw [fmt.hardState.deserialize_serialize s bytes hser]
      rfl

theorem loadPurgeBoundary_answered (h : Represents fmt wal.env m) (flt : Faults) :
    Answered flt (fun x => x = m.boundary) (wal.loadPurgeBoundary fmt flt) := by
  refine lookup_answered (by decide) (fun t => ?_)
  rw [h.boundary]
  cases m.boundary with
  | none => rfl
  | some c =>
      show Answered flt _ ((fmt.logId.decode (fmt.logId.encode c)).mapError
        EngineError.serializationError >>= fun boundary => pure (some boundary))
      rw [fmt.logId.decode_encode]
      rfl

end Represents

/-! ## Runs -/

/-- The log after its process ended and the directory was opened again. An attempt that
fails leaves the directory for the next one. -/
def LmdbWal.reopened (flt : Faults) (wal : LmdbWal) : LmdbWal :=
  match LmdbWal.new flt wal.env with
  | .ok wal' => wal'
  | .error _ => wal

theorem LmdbWal.reopened_env (flt : Faults) (wal : LmdbWal) :
    (wal.reopened flt).env = wal.env := by
  unfold LmdbWal.reopened
  split
  · rename_i wal' h
    exact (LmdbWal.new_ok h).1
  · rfl

inductive LogEvent (Entry HardState : Type) where
  | write (flt : Faults) (op : LogOp Entry HardState)
  | reopen (flt : Faults)
  | entry (flt : Faults) (index : UInt64)
  | getEntries (flt : Faults) (first last : UInt64)
  | loadHardState (flt : Faults)
  | loadPurgeBoundary (flt : Faults)

def LogEvent.Valid (fmt : Formats Entry HardState) : LogEvent Entry HardState → Prop
  | .write _ op => op.Valid fmt
  | _ => True

/-- A log beside its map. -/
structure LogRun (Entry HardState : Type) where
  wal : LmdbWal
  model : LogModel Entry HardState

namespace LogRun

variable (fmt)

def empty : LogRun Entry HardState := ⟨freshWal, LogModel.empty⟩

/-- A write that fails is none for the map. -/
def step (s : LogRun Entry HardState) : LogEvent Entry HardState → LogRun Entry HardState
  | .write flt op =>
      { wal := s.wal.after (op.call fmt flt s.wal)
        model :=
          match (op.call fmt flt s.wal).result with
          | .ok _ => s.model.apply fmt.index op
          | .error _ => s.model }
  | .reopen flt => { s with wal := s.wal.reopened flt }
  | _ => s

/-- What a read returns is what the map has. -/
def Answers (s : LogRun Entry HardState) : LogEvent Entry HardState → Prop
  | .entry flt i => Answered flt (fun x => x = s.model.entries i) (s.wal.entry fmt flt i)
  | .getEntries flt first last =>
      Answered flt (Lists fmt s.model.entries first last)
        (s.wal.getEntries fmt flt first last)
  | .loadHardState flt => Answered flt (fun x => x = s.model.hardState) (s.wal.loadHardState fmt flt)
  | .loadPurgeBoundary flt =>
      Answered flt (fun x => x = s.model.boundary) (s.wal.loadPurgeBoundary fmt flt)
  | _ => True

variable {fmt}

/-- The invariant: the environment holds the map, and the map stays below `u64::MAX`. -/
structure Tracking (fmt : Formats Entry HardState) (s : LogRun Entry HardState) : Prop where
  represents : Represents fmt s.wal.env s.model
  below : s.model.Below

theorem empty_tracking : (empty : LogRun Entry HardState).Tracking fmt where
  represents := empty_represents fmt
  below i e h := by cases h

/-- **One call** keeps the environment and the map together, and reads from the map. -/
theorem Tracking.step {s : LogRun Entry HardState} (h : s.Tracking fmt)
    {e : LogEvent Entry HardState} (he : e.Valid fmt) :
    (s.step fmt e).Tracking fmt ∧ s.Answers fmt e := by
  have hrep := h.represents
  cases e with
  | write flt op =>
      have hcall := hrep.call h.below flt op
      have hstep : s.step fmt (.write flt op) =
          { wal := s.wal.after (op.call fmt flt s.wal)
            model :=
              match (op.call fmt flt s.wal).result with
              | .ok _ => s.model.apply fmt.index op
              | .error _ => s.model } := rfl
      refine ⟨?_, trivial⟩
      rw [hstep]
      cases hres : (op.call fmt flt s.wal).result with
      | ok u => exact ⟨hcall.after_ok hres, h.below.apply he⟩
      | error err =>
          rw [hcall.after_error hres]
          exact ⟨hrep, h.below⟩
  | reopen flt =>
      refine ⟨⟨?_, h.below⟩, trivial⟩
      show Represents fmt (s.wal.reopened flt).env s.model
      rw [LmdbWal.reopened_env]
      exact hrep
  | entry flt i => exact ⟨h, hrep.entry_answered flt i⟩
  | getEntries flt first last => exact ⟨h, hrep.getEntries_answered flt first last⟩
  | loadHardState flt => exact ⟨h, hrep.loadHardState_answered flt⟩
  | loadPurgeBoundary flt => exact ⟨h, hrep.loadPurgeBoundary_answered flt⟩

end LogRun

/-- **The log is the map.** In every run of writes, reads and restarts, with any
arguments and any storage operation failing, every read returns what the map has, or
the error of a storage operation. -/
theorem wal_refines_indexedLog {es : List (LogEvent Entry HardState)}
    (hes : ∀ e ∈ es, e.Valid fmt) :
    Along (LogRun.step fmt) (LogRun.Answers fmt) LogRun.empty es :=
  Along.of_invariant (fun _ _ hs he => hs.step he) LogRun.empty_tracking
    (Along.of_forall (fun e he _ => hes e he))

/-! ## A concrete log -/

/-- Entries without a payload, as protobuf writes them, and hard states without a vote,
as bincode does: the term and the tag of `None`. -/
def plainFormats : Formats LogId UInt64 where
  index e := e.index
  entry :=
    { encode := fun e => encodeMessage (e.index, e.term)
      decode := fun bytes => (decodeMessage bytes).map (fun x => ⟨x.1, x.2⟩)
      decode_encode := by
        intro e
        rw [decodeMessage_encodeMessage]
        rfl }
  logId :=
    { encode := fun l => encodeMessage (l.term, l.index)
      decode := fun bytes => (decodeMessage bytes).map (fun x => ⟨x.2, x.1⟩)
      decode_encode := by
        intro l
        rw [decodeMessage_encodeMessage]
        rfl }
  hardState :=
    { serialize := fun term => .ok (toLeBytes term ++ [0])
      deserialize := fun bytes =>
        if bytes.drop 8 = [0] then .ok (fromLeBytes (bytes.take 8))
        else .error "io error: unexpected end of file"
      deserialize_serialize := by
        intro term bytes h
        have hlen := length_toLeBytes term
        rw [← Except.ok.inj h, List.drop_left' hlen, List.take_left' hlen, if_pos rfl,
          fromLeBytes_toLeBytes] }

/-- Entries out of order and one of them twice, a purge, a truncation and a restart. -/
theorem wal_refines_indexedLog_run :
    let es : List (LogEvent LogId UInt64) :=
      [.write Faults.none (.persistEntries [⟨300, 1⟩, ⟨1, 1⟩, ⟨2, 1⟩, ⟨2, 2⟩]),
        .write Faults.none (.saveHardState 4), .write Faults.none (.purge ⟨1, 1⟩),
        .reopen Faults.none, .getEntries Faults.none 0 300,
        .write Faults.none (.truncate 300), .entry Faults.none 300,
        .loadHardState Faults.none]
    Along (LogRun.step plainFormats) (LogRun.Answers plainFormats) LogRun.empty es := by
  intro es
  apply wal_refines_indexedLog
  intro e he
  have hpersist : ∀ e ∈ ([⟨300, 1⟩, ⟨1, 1⟩, ⟨2, 1⟩, ⟨2, 2⟩] : List LogId),
      e.index < 0xffffffffffffffff := by decide
  rcases List.mem_cons.mp he with rfl | he
  · exact hpersist
  · simp only [List.mem_cons, List.not_mem_nil, or_false] at he
    rcases he with rfl | rfl | rfl | rfl | rfl | rfl | rfl <;> trivial

end DLmdb
