import DLmdb.StorageEngine.LogRuns

/-!
# The last index, in memory and after a restart

`LmdbWal` keeps the index of its last entry in memory. Opening the directory takes it
from the last key of the log; between two restarts `persist_entries` raises it,
`truncate` reads it off the shortened log, `reset` zeroes it, and `purge` leaves it
alone, also where it deletes the last entry.
-/

namespace DLmdb

open Framework Lmdb

/-! ## Runs of the log alone -/

section
variable {Entry HardState : Type} (fmt : Formats Entry HardState)

/-- The log after the event. -/
def LmdbWal.step (wal : LmdbWal) : LogEvent Entry HardState → LmdbWal
  | .write flt op => wal.after (op.call fmt flt wal)
  | .reopen flt => wal.reopened flt
  | _ => wal

end

/-- Whatever opening the directory again makes of it has the last index there is now. -/
def LmdbWal.SurvivesRestart (wal : LmdbWal) : Prop :=
  ∀ flt wal', LmdbWal.new flt wal.env = .ok wal' → wal'.lastIndex = wal.lastIndex

theorem LmdbWal.survivesRestart_iff {wal : LmdbWal} :
    wal.SurvivesRestart ↔ wal.lastIndex = lastIndexOf (wal.env .logDb).last := by
  constructor
  · intro h
    obtain ⟨wal', hnew⟩ := LmdbWal.new_noFaults wal.env
    rw [← h _ _ hnew, (LmdbWal.new_ok hnew).2]
  · intro h flt wal' hnew
    rw [(LmdbWal.new_ok hnew).2, h]

/-- The log has a key for the index. -/
def LmdbWal.Holds (wal : LmdbWal) (i : UInt64) : Prop :=
  ((wal.env .logDb).get (toBeBytes i)).isSome

/-- A purge that goes through leaves an entry in a log that has one, one under index 0
aside. -/
def LmdbWal.PurgesLeaveLast {Entry HardState : Type} (wal : LmdbWal) :
    LogEvent Entry HardState → Prop
  | .write flt (.purge c) =>
      (∀ n < 4, flt n = none) → (∃ i, 0 < i ∧ wal.Holds i) →
        ∃ i, saturatingSucc c.index ≤ i ∧ wal.Holds i
  | _ => True

/-! ## The last index of a map -/

theorem toNat_max (a b : UInt64) : (max a b).toNat = max a.toNat b.toNat := by
  show (if a ≤ b then b else a).toNat = _
  split
  · rename_i h
    rw [UInt64.le_iff_toNat_le] at h
    omega
  · rename_i h
    rw [UInt64.le_iff_toNat_le] at h
    omega

theorem max_eq (a b : UInt64) : max a b = a ∨ max a b = b := by
  show (if a ≤ b then b else a) = a ∨ (if a ≤ b then b else a) = b
  split
  · exact Or.inr rfl
  · exact Or.inl rfl

variable {Entry HardState : Type} {fmt : Formats Entry HardState}

/-- The greatest index of the map, or 0 if it is empty. -/
structure IsLastIndex (f : UInt64 → Option Entry) (last : UInt64) : Prop where
  upper : ∀ i e, f i = some e → i ≤ last
  attained : last = 0 ∨ ∃ e, f last = some e

namespace IsLastIndex

variable {f : UInt64 → Option Entry} {last : UInt64}

theorem le {last' : UInt64} (h : IsLastIndex f last) (h' : IsLastIndex f last') :
    last ≤ last' := by
  rcases h.attained with rfl | ⟨e, he⟩
  · exact UInt64.le_iff_toNat_le.mpr (Nat.zero_le _)
  · exact h'.upper last e he

theorem unique {last' : UInt64} (h : IsLastIndex f last) (h' : IsLastIndex f last') :
    last = last' := UInt64.le_antisymm (h.le h') (h'.le h)

theorem overwrite (h : IsLastIndex f last) (index : Entry → UInt64) (e : Entry) :
    IsLastIndex (LogModel.overwrite index f e) (max last (index e)) where
  upper i e' hi := by
    rw [UInt64.le_iff_toNat_le, toNat_max]
    by_cases hie : i = index e
    · rw [hie]
      omega
    · rw [LogModel.overwrite, Function.update_of_ne hie] at hi
      have hle := UInt64.le_iff_toNat_le.mp (h.upper i e' hi)
      omega
  attained := by
    rcases max_eq last (index e) with hold | hnew
    · by_cases hie : last = index e
      · rw [hold, hie]
        exact Or.inr ⟨e, Function.update_self ..⟩
      · rw [hold, LogModel.overwrite, Function.update_of_ne hie]
        exact h.attained
    · rw [hnew]
      exact Or.inr ⟨e, Function.update_self ..⟩

/-- **Persisting** raises it to the greatest index persisted. -/
theorem persist (h : IsLastIndex f last) (index : Entry → UInt64) (es : List Entry) :
    IsLastIndex (es.foldl (LogModel.overwrite index) f) ((es.map index).foldl max last) := by
  induction es generalizing f last with
  | nil => exact h
  | cons e es ih => exact ih (h.overwrite index e)

/-- **Purging** keeps it where an entry beyond the purged ones is there. -/
theorem purge_iff (h : IsLastIndex f last) (stop : UInt64) :
    IsLastIndex (fun i => if i < stop then none else f i) last ↔
      ((∃ i, 0 < i ∧ ∃ e, f i = some e) → ∃ i, stop ≤ i ∧ ∃ e, f i = some e) := by
  constructor
  · rintro hpurged ⟨i, hi, e, he⟩
    have hlast : last ≠ 0 := by
      rintro rfl
      exact UInt64.not_le.mpr hi (h.upper i e he)
    rcases hpurged.attained with hzero | ⟨e', he'⟩
    · exact absurd hzero hlast
    · split at he'
      · cases he'
      · rename_i hstop
        exact ⟨last, UInt64.not_lt.mp hstop, e', he'⟩
  · intro hleft
    constructor
    · intro i e he
      split at he
      · cases he
      · exact h.upper i e he
    · by_cases hzero : last = 0
      · exact Or.inl hzero
      · right
        obtain ⟨e, he⟩ := h.attained.resolve_left hzero
        have hpos : 0 < last := by
          have hne : last.toNat ≠ 0 := fun hnat => hzero (UInt64.toNat_inj.mp hnat)
          exact UInt64.lt_iff_toNat_lt.mpr (Nat.pos_of_ne_zero hne)
        obtain ⟨i, hi, e', he'⟩ := hleft ⟨last, hpos, e, he⟩
        have hstop : ¬ last < stop :=
          UInt64.not_lt.mpr (UInt64.le_trans hi (h.upper i e' he'))
        exact ⟨e, (if_neg hstop).trans he⟩

theorem empty : IsLastIndex (fun _ => (none : Option Entry)) 0 where
  upper i e h := by cases h
  attained := Or.inl rfl

end IsLastIndex

/-- The index of the last key is the last index of the map. -/
theorem LogRows.isLastIndex {db : Database} {f : UInt64 → Option Entry} (h : LogRows fmt db f) :
    IsLastIndex f (lastIndexOf db.last) where
  upper _ _ he := h.le_lastIndexOf he
  attained := h.lastIndexOf_cases

namespace Represents

variable {wal : LmdbWal} {m : LogModel Entry HardState}

theorem survivesRestart_iff (h : Represents fmt wal.env m) :
    wal.SurvivesRestart ↔ IsLastIndex m.entries wal.lastIndex := by
  rw [LmdbWal.survivesRestart_iff]
  constructor
  · intro hlast
    rw [hlast]
    exact h.log.isLastIndex
  · intro hlast
    exact hlast.unique h.log.isLastIndex

theorem holds_iff (h : Represents fmt wal.env m) (i : UInt64) :
    wal.Holds i ↔ ∃ e, m.entries i = some e := by
  rw [LmdbWal.Holds, h.log.row i, Option.isSome_map, Option.isSome_iff_exists]

end Represents

/-! ## What the calls do to it -/

/-- The `max_index` of the loop of `persist_entries`. -/
theorem putEntries_maxIndex {es : List Entry} {t t' : Txn WalDb} {n n' : UInt64}
    (h : LmdbWal.putEntries fmt es t n = .ok (t', n')) : n' = (es.map fmt.index).foldl max n := by
  induction es generalizing t n with
  | nil =>
      cases h
      rfl
  | cons e es ih =>
      obtain ⟨t₁, -, h⟩ := bind_eq_ok.mp h
      exact ih h

theorem max_foldl (a b : UInt64) (is : List UInt64) :
    max a (is.foldl max b) = is.foldl max (max a b) := by
  induction is generalizing b with
  | nil => rfl
  | cons i is ih =>
      have hassoc : max a (max b i) = max (max a b) i := by
        rw [← UInt64.toNat_inj, toNat_max, toNat_max, toNat_max, toNat_max]
        omega
      rw [List.foldl_cons, List.foldl_cons, ih, hassoc]

theorem max_zero (a : UInt64) : max a 0 = a := by
  rw [← UInt64.toNat_inj, toNat_max]
  exact Nat.max_eq_left (Nat.zero_le _)

theorem persistEntries_lastIndex {flt : Faults} {wal : LmdbWal} {es : List Entry}
    (h : (wal.persistEntries fmt flt es).result = .ok ()) :
    (wal.after (wal.persistEntries fmt flt es)).lastIndex =
      (es.map fmt.index).foldl max wal.lastIndex := by
  cases es with
  | nil => rfl
  | cons e es =>
      obtain ⟨⟨env, n⟩, hx, hafter⟩ := walDb_after wal Prod.fst (fun a => [.fetchMaxLastIndex a.2])
        (fun a => rfl) h
      obtain ⟨t₀, -, hx⟩ := bind_eq_ok.mp hx
      obtain ⟨⟨t₁, n₁⟩, h₁, hx⟩ := bind_eq_ok.mp hx
      obtain ⟨env', -, hx⟩ := bind_eq_ok.mp hx
      cases hx
      have hmax : (wal.after (wal.persistEntries fmt flt (e :: es))).lastIndex =
          max wal.lastIndex n := congrArg LmdbWal.lastIndex hafter
      rw [hmax, putEntries_maxIndex h₁, max_foldl, max_zero]

theorem truncate_lastIndex {flt : Faults} {wal : LmdbWal} {i : UInt64}
    (h : (wal.truncate flt i).result = .ok ()) :
    (wal.after (wal.truncate flt i)).SurvivesRestart := by
  obtain ⟨⟨env, last⟩, hx, hafter⟩ := walDb_after wal Prod.fst (fun a => [.storeLastIndex a.2])
    (fun a => rfl) h
  obtain ⟨t₀, -, hx⟩ := bind_eq_ok.mp hx
  obtain ⟨t₁, -, hx⟩ := bind_eq_ok.mp hx
  obtain ⟨⟨t₂, x⟩, h₂, hx⟩ := bind_eq_ok.mp hx
  obtain ⟨env', h₃, hx⟩ := bind_eq_ok.mp hx
  obtain ⟨e₂, hlast⟩ := Txn.last_ok h₂
  have e₃ := Txn.commit_ok h₃
  cases hx
  have hstored : wal.after (wal.truncate flt i) = ⟨env, lastIndexOf x⟩ := hafter
  rw [LmdbWal.survivesRestart_iff, hstored, e₃, e₂, hlast]

theorem reset_lastIndex {flt : Faults} {wal : LmdbWal} (h : (wal.reset flt).result = .ok ()) :
    (wal.after (wal.reset flt)).lastIndex = 0 := by
  obtain ⟨env, -, hafter⟩ := walDb_after wal id (fun _ => [.storeLastIndex 0]) (fun a => rfl) h
  exact congrArg LmdbWal.lastIndex hafter

/-- A call with a commit and nothing else. -/
theorem commit_lastIndex (wal : LmdbWal) (x : Except HeedError WalEnv) :
    (wal.after (walDb x >>= fun env => Call.emit (.commit env))).lastIndex = wal.lastIndex := by
  cases x with
  | ok env => rfl
  | error e => rfl

theorem purge_lastIndex (flt : Faults) (wal : LmdbWal) (c : LogId) :
    (wal.after (wal.purge fmt flt c)).lastIndex = wal.lastIndex := commit_lastIndex wal _

theorem saveHardState_lastIndex (flt : Faults) (wal : LmdbWal) (s : HardState) :
    (wal.after (wal.saveHardState fmt flt s)).lastIndex = wal.lastIndex := by
  cases hs : fmt.hardState.serialize s with
  | error e =>
      rw [LmdbWal.saveHardState, hs]
      rfl
  | ok bytes =>
      rw [LmdbWal.saveHardState, hs]
      exact commit_lastIndex wal _

/-! ## Runs -/

/-- **The purge** keeps the last index where it leaves an entry, and nowhere else. -/
theorem purge_survives_iff {wal : LmdbWal} {m : LogModel Entry HardState}
    (h : Represents fmt wal.env m) (hsurvives : wal.SurvivesRestart) (flt : Faults) (c : LogId) :
    wal.PurgesLeaveLast (.write flt (.purge c) : LogEvent Entry HardState) ↔
      (wal.after (wal.purge fmt flt c)).SurvivesRestart := by
  have hout := h.purge flt c
  by_cases hflt : ∀ n < 4, flt n = none
  · have hres := (purge_result fmt flt wal c).mpr hflt
    have hlast := h.survivesRestart_iff.mp hsurvives
    rw [(hout.after_ok hres).survivesRestart_iff, purge_lastIndex]
    show ((∀ n < 4, flt n = none) → _) ↔ IsLastIndex
      (fun i => if i < saturatingSucc c.index then none else m.entries i) wal.lastIndex
    rw [hlast.purge_iff, forall_prop_of_true hflt]
    simp only [h.holds_iff]
  · have hsame : wal.after (wal.purge fmt flt c) = wal := by
      cases hres : (wal.purge fmt flt c).result with
      | ok u => exact absurd ((purge_result fmt flt wal c).mp hres) hflt
      | error e => exact hout.after_error hres
    rw [hsame]
    exact iff_of_true (fun hall => absurd hall hflt) hsurvives

/-- A write call other than `purge` keeps the last index. -/
theorem write_survives {wal : LmdbWal} {m : LogModel Entry HardState}
    (h : Represents fmt wal.env m) (hsurvives : wal.SurvivesRestart) (flt : Faults)
    {op : LogOp Entry HardState} (hop : ∀ c, op ≠ .purge c) :
    (wal.after (op.call fmt flt wal)).SurvivesRestart := by
  have hout := h.perform flt op
  have hlast := h.survivesRestart_iff.mp hsurvives
  cases hres : (op.call fmt flt wal).result with
  | error e =>
      rw [hout.after_error hres]
      exact hsurvives
  | ok u =>
      have hrep := hout.after_ok hres
      rw [hrep.survivesRestart_iff]
      cases op with
      | persistEntries es =>
          have hmax : (wal.after ((LogOp.persistEntries es).call fmt flt wal)).lastIndex =
              (es.map fmt.index).foldl max wal.lastIndex := persistEntries_lastIndex hres
          rw [hmax]
          exact hlast.persist fmt.index es
      | purge c => exact absurd rfl (hop c)
      | truncate i => exact hrep.survivesRestart_iff.mp (truncate_lastIndex hres)
      | reset =>
          have hzero : (wal.after
              ((LogOp.reset : LogOp Entry HardState).call fmt flt wal)).lastIndex = 0 :=
            reset_lastIndex hres
          rw [hzero]
          exact IsLastIndex.empty
      | saveHardState s =>
          have hsame : (wal.after ((LogOp.saveHardState s).call fmt flt wal)).lastIndex =
              wal.lastIndex := saveHardState_lastIndex flt wal s
          rw [hsame]
          exact hlast

theorem reopened_survives {wal : LmdbWal} (h : wal.SurvivesRestart) (flt : Faults) :
    (wal.reopened flt).SurvivesRestart := by
  unfold LmdbWal.reopened
  split
  · rename_i wal' hnew
    obtain ⟨henv, hlast⟩ := LmdbWal.new_ok hnew
    rw [LmdbWal.survivesRestart_iff, henv, hlast]
  · exact h

theorem reopened_noFaults (wal : LmdbWal) :
    (wal.reopened Faults.none).lastIndex = lastIndexOf (wal.env .logDb).last := rfl

/-- The environment of a log holds some map. -/
def LmdbWal.Stores (fmt : Formats Entry HardState) (wal : LmdbWal) : Prop :=
  ∃ m : LogModel Entry HardState, Represents fmt wal.env m

theorem LmdbWal.Stores.step {wal : LmdbWal} (h : wal.Stores fmt)
    (e : LogEvent Entry HardState) : (wal.step fmt e).Stores fmt := by
  obtain ⟨m, hrep⟩ := h
  cases e with
  | write flt op =>
      have hout := hrep.perform flt op
      cases hres : (op.call fmt flt wal).result with
      | ok u => exact ⟨_, hout.after_ok hres⟩
      | error err =>
          refine ⟨m, ?_⟩
          show Represents fmt (wal.after (op.call fmt flt wal)).env m
          rw [hout.after_error hres]
          exact hrep
  | reopen flt =>
      refine ⟨m, ?_⟩
      show Represents fmt (wal.reopened flt).env m
      rw [LmdbWal.reopened_env]
      exact hrep
  | _ => exact ⟨m, hrep⟩

/-- **One event.** -/
theorem LmdbWal.step_survives_iff {wal : LmdbWal} (h : wal.Stores fmt)
    (hsurvives : wal.SurvivesRestart) (e : LogEvent Entry HardState) :
    wal.PurgesLeaveLast e ↔ (wal.step fmt e).SurvivesRestart := by
  obtain ⟨m, hrep⟩ := h
  cases e with
  | write flt op =>
      cases op with
      | purge c => exact purge_survives_iff hrep hsurvives flt c
      | _ => exact iff_of_true trivial (write_survives hrep hsurvives flt nofun)
  | reopen flt => exact iff_of_true trivial (reopened_survives hsurvives flt)
  | _ => exact iff_of_true trivial hsurvives

theorem freshWal_stores (fmt : Formats Entry HardState) : freshWal.Stores fmt :=
  ⟨LogModel.empty, empty_represents fmt⟩

theorem freshWal_survives : freshWal.SurvivesRestart := LmdbWal.survivesRestart_iff.mpr rfl

/-- **The last index survives a restart** at every point of a run of writes, reads and
restarts, with any arguments and any storage operation failing, if and only if every
purge of the run leaves an entry in a log that has one. -/
theorem lastIndex_survives_iff (fmt : Formats Entry HardState)
    (es : List (LogEvent Entry HardState)) :
    Along (LmdbWal.step fmt) LmdbWal.PurgesLeaveLast freshWal es ↔
      Throughout (LmdbWal.step fmt) LmdbWal.SurvivesRestart freshWal es :=
  along_iff_throughout (I := LmdbWal.SurvivesRestart) (J := LmdbWal.Stores fmt)
    (fun _ e h => h.step e) (fun _ e h hsurvives => LmdbWal.step_survives_iff h hsurvives e)
    (freshWal_stores fmt) freshWal_survives

/-- A purge up to the last entry: 3 in memory, 0 after a restart. -/
theorem purge_loses_lastIndex :
    let es : List (LogEvent LogId UInt64) :=
      [.write Faults.none (.persistEntries [⟨1, 1⟩, ⟨2, 1⟩, ⟨3, 1⟩]),
        .write Faults.none (.purge ⟨3, 1⟩)]
    let wal := runFrom (LmdbWal.step plainFormats) freshWal es
    wal.lastIndex = 3 ∧ (wal.reopened Faults.none).lastIndex = 0 ∧
      ¬ Throughout (LmdbWal.step plainFormats) LmdbWal.SurvivesRestart freshWal es := by
  intro es wal
  let persist : LogOp LogId UInt64 := .persistEntries [⟨1, 1⟩, ⟨2, 1⟩, ⟨3, 1⟩]
  let persisted : LmdbWal := freshWal.after (persist.call plainFormats Faults.none freshWal)
  have hfresh : Represents plainFormats freshWal.env (LogModel.empty : LogModel LogId UInt64) :=
    empty_represents plainFormats
  have hother : ∀ c, persist ≠ .purge c := nofun
  have hrep := (hfresh.perform Faults.none persist).after_ok rfl
  have hpurged := (hrep.purge Faults.none ⟨3, 1⟩).after_ok
    ((purge_result plainFormats Faults.none persisted ⟨3, 1⟩).mpr (fun _ _ => rfl))
  have hthree : persisted.lastIndex = 3 := by decide
  have hmem : wal.lastIndex = 3 := (purge_lastIndex Faults.none persisted ⟨3, 1⟩).trans hthree
  have hzero : lastIndexOf (wal.env .logDb).last = 0 := by
    rcases hpurged.log.lastIndexOf_cases with hzero | ⟨e, he⟩
    · exact hzero
    · -- an entry that is left is beyond 3, where there was none
      have hlast := hrep.survivesRestart_iff.mp
        (write_survives hfresh freshWal_survives Faults.none hother)
      obtain ⟨hstop, he⟩ := LogModel.of_purgeBefore he
      have hle := UInt64.le_trans hstop (hlast.upper _ e he)
      rw [hthree] at hle
      exact absurd hle (by decide)
  have hrestart : (wal.reopened Faults.none).lastIndex = 0 := by
    rw [reopened_noFaults]
    exact hzero
  refine ⟨hmem, hrestart, ?_⟩
  intro hall
  have hsame : wal.lastIndex = lastIndexOf (wal.env .logDb).last :=
    LmdbWal.survivesRestart_iff.mp hall.last
  rw [hmem, hzero] at hsame
  exact absurd hsame (by decide)

end DLmdb
