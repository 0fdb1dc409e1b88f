import DLmdb.StorageEngine.LastIndex
import Mathlib.Data.List.Sort

/-!
# A log without gaps

A follower whose log conflicts with the leader's cuts it back (`truncate`) and then
stores the leader's entries (`persist_entries`): two transactions, and the process may
stop before, between and within them. A purge takes the log away from the other end.
As long as what is persisted joins on to what is stored, the log is one run of
consecutive indices at every moment, a crash included, so a range read between two
stored indices comes back whole.
-/

namespace DLmdb

open Framework Lmdb

variable {Entry HardState : Type} (fmt : Formats Entry HardState)

/-! ## Runs with crashes -/

/-- An event of the log, or a process that stops after `j` effects of a write call. -/
inductive WalEvent (Entry HardState : Type) where
  | run (e : LogEvent Entry HardState)
  | crash (flt : Faults) (op : LogOp Entry HardState) (j : ℕ)

/-- The indices are consecutive, from `a` on. -/
def ConsecutiveFrom (a : ℕ) (es : List Entry) : Prop :=
  es.map (fun e => (fmt.index e).toNat) = List.range' a es.length

namespace LmdbWal

def walStep (wal : LmdbWal) : WalEvent Entry HardState → LmdbWal
  | .run e => wal.step fmt e
  | .crash flt op j => ((op.call fmt flt wal).crashAt exec wal j).reopened Faults.none

/-- Entries that are persisted have consecutive indices, and the first of them follows or
replaces one that is stored, if any is. -/
def JoinsOn (wal : LmdbWal) : LogOp Entry HardState → Prop
  | .persistEntries es => ∃ a, ConsecutiveFrom fmt a es ∧
      ((∀ i, ¬ wal.Holds i) ∨ ∃ i, wal.Holds i ∧ i.toNat ≤ a ∧ a ≤ i.toNat + 1)
  | _ => True

def Extends (wal : LmdbWal) : WalEvent Entry HardState → Prop
  | .run (.write _ op) => wal.JoinsOn fmt op
  | .run _ => True
  | .crash _ op _ => wal.JoinsOn fmt op

end LmdbWal

variable {fmt}

/-! ## Maps without gaps -/

/-- What lies between two indices of the map is in the map. -/
def Gapless (f : UInt64 → Option Entry) : Prop :=
  ∀ i j k, (f i).isSome → (f j).isSome → i ≤ k → k ≤ j → (f k).isSome

theorem ConsecutiveFrom.mem_iff {a : ℕ} {es : List Entry} (h : ConsecutiveFrom fmt a es) (k : UInt64) :
    k ∈ es.map fmt.index ↔ a ≤ k.toNat ∧ k.toNat < a + es.length := by
  rw [← List.mem_range'_1, ← h]
  constructor
  · intro hk
    obtain ⟨e, he, rfl⟩ := List.mem_map.mp hk
    exact List.mem_map.mpr ⟨e, he, rfl⟩
  · intro hk
    obtain ⟨e, he, hek⟩ := List.mem_map.mp hk
    exact List.mem_map.mpr ⟨e, he, UInt64.toNat_inj.mp hek⟩

theorem isSome_foldl_overwrite (es : List Entry) (f : UInt64 → Option Entry) (k : UInt64) :
    (es.foldl (LogModel.overwrite fmt.index) f k).isSome ↔
      (f k).isSome ∨ k ∈ es.map fmt.index := by
  induction es generalizing f with
  | nil => simp
  | cons e es ih =>
      rw [List.foldl_cons, ih, List.map_cons, List.mem_cons]
      by_cases hk : k = fmt.index e
      · subst hk
        simp [LogModel.overwrite]
      · rw [LogModel.overwrite, Function.update_of_ne hk]
        simp [hk]

namespace Gapless

variable {f : UInt64 → Option Entry}

theorem empty : Gapless (fun _ => (none : Option Entry)) := by
  intro i j k hi
  cases hi

/-- Cutting off both ends. -/
theorem restrict (h : Gapless f) {p : UInt64 → Prop} [DecidablePred p]
    (hp : ∀ i j k, ¬ p i → ¬ p j → i ≤ k → k ≤ j → ¬ p k) :
    Gapless (fun i => if p i then none else f i) := by
  intro i j k hi hj hik hkj
  have hkept : ∀ {x}, (if p x then none else f x).isSome → ¬ p x ∧ (f x).isSome := by
    intro x hx
    by_cases hpx : p x
    · rw [if_pos hpx] at hx
      cases hx
    · rw [if_neg hpx] at hx
      exact ⟨hpx, hx⟩
  obtain ⟨hpi, hfi⟩ := hkept hi
  obtain ⟨hpj, hfj⟩ := hkept hj
  beta_reduce
  rw [if_neg (hp i j k hpi hpj hik hkj)]
  exact h i j k hfi hfj hik hkj

/-- A run of indices that joins on to the map. -/
theorem persist (h : Gapless f) {a : ℕ} {es : List Entry} (hes : ConsecutiveFrom fmt a es)
    (hjoin : (∀ i, ¬ (f i).isSome) ∨ ∃ i, (f i).isSome ∧ i.toNat ≤ a ∧ a ≤ i.toNat + 1) :
    Gapless (es.foldl (LogModel.overwrite fmt.index) f) := by
  intro i j k hi hj hik hkj
  rw [isSome_foldl_overwrite, hes.mem_iff] at hi hj ⊢
  rw [UInt64.le_iff_toNat_le] at hik hkj
  rcases hjoin with hnone | ⟨x, hx, hxa, hax⟩
  · have hi := hi.resolve_left (hnone i)
    have hj := hj.resolve_left (hnone j)
    right
    omega
  · -- `x` is stored just before the new indices, or is the first of them
    by_cases hka : k.toNat < a
    · left
      rcases hi with hi | hi
      · refine h i x k hi hx ?_ ?_
        · exact UInt64.le_iff_toNat_le.mpr hik
        · rw [UInt64.le_iff_toNat_le]
          omega
      · omega
    · rcases hj with hj | hj
      · by_cases hkn : k.toNat < a + es.length
        · exact Or.inr ⟨by omega, hkn⟩
        · left
          refine h x j k hx hj ?_ ?_
          · rw [UInt64.le_iff_toNat_le]
            omega
          · exact UInt64.le_iff_toNat_le.mpr hkj
      · right
        omega

end Gapless

/-! ## The invariant -/

/-- The environment holds a map without gaps. -/
def LmdbWal.NoGaps (fmt : Formats Entry HardState) (wal : LmdbWal) : Prop :=
  ∃ m : LogModel Entry HardState, Represents fmt wal.env m ∧ Gapless m.entries

theorem freshWal_noGaps (fmt : Formats Entry HardState) : freshWal.NoGaps fmt :=
  ⟨LogModel.empty, empty_represents fmt, Gapless.empty⟩

theorem gapless_perform {wal : LmdbWal} {m : LogModel Entry HardState}
    (hrep : Represents fmt wal.env m) (h : Gapless m.entries) {op : LogOp Entry HardState}
    (hop : wal.JoinsOn fmt op) : Gapless (m.perform fmt.index op).entries := by
  cases op with
  | persistEntries es =>
      obtain ⟨a, hes, hjoin⟩ := hop
      refine h.persist hes ?_
      simpa only [hrep.holds_iff, Option.isSome_iff_exists] using hjoin
  | purge c =>
      refine h.restrict (p := fun i => i < saturatingSucc c.index) ?_
      intro i j k hi _ hik _
      exact fun hk => hi (UInt64.lt_of_le_of_lt hik hk)
  | truncate f =>
      refine h.restrict (p := fun i => f ≤ i) ?_
      intro i j k _ hj _ hkj
      exact fun hk => hj (UInt64.le_trans hk hkj)
  | reset => exact Gapless.empty
  | saveHardState s => exact h

/-- **One event**: a call that ends, either way, or one that is cut short. -/
theorem LmdbWal.NoGaps.step {wal : LmdbWal} (h : wal.NoGaps fmt) {e : WalEvent Entry HardState}
    (he : wal.Extends fmt e) : (wal.walStep fmt e).NoGaps fmt := by
  obtain ⟨m, hrep, hgaps⟩ := h
  cases e with
  | run e =>
      cases e with
      | write flt op =>
          have hout := hrep.perform flt op
          cases hres : (op.call fmt flt wal).result with
          | ok u => exact ⟨_, hout.after_ok hres, gapless_perform hrep hgaps he⟩
          | error err =>
              refine ⟨m, ?_, hgaps⟩
              show Represents fmt (wal.after (op.call fmt flt wal)).env m
              rw [hout.after_error hres]
              exact hrep
      | reopen flt =>
          refine ⟨m, ?_, hgaps⟩
          show Represents fmt (wal.reopened flt).env m
          rw [LmdbWal.reopened_env]
          exact hrep
      | _ => exact ⟨m, hrep, hgaps⟩
  | crash flt op j =>
      -- the transaction is in, or it is not
      rcases (hrep.perform flt op).crashAt j with hold | ⟨-, hnew⟩
      · refine ⟨m, ?_, hgaps⟩
        rw [LmdbWal.walStep, LmdbWal.reopened_env, hold]
        exact hrep
      · refine ⟨_, ?_, gapless_perform hrep hgaps he⟩
        rw [LmdbWal.walStep, LmdbWal.reopened_env]
        exact hnew

/-! ## Ranges -/

/-- A listing between two indices of a map without gaps misses none. -/
theorem Lists.consecutive {f : UInt64 → Option Entry} {first last : UInt64} {es : List Entry}
    (h : Lists fmt f first last es) (hgaps : Gapless f)
    (hindexed : ∀ i e, f i = some e → fmt.index e = i) (hfirst : (f first).isSome)
    (hlast : (f last).isSome) :
    es.map (fun e => (fmt.index e).toNat) =
      List.range' first.toNat (last.toNat + 1 - first.toNat) := by
  have hsorted : (es.map (fun e => (fmt.index e).toNat)).Pairwise (· < ·) := by
    rw [List.pairwise_map]
    exact h.increasing.imp (fun hlt => UInt64.lt_iff_toNat_lt.mp hlt)
  apply hsorted.eq_of_mem_iff List.pairwise_lt_range'
  intro n
  rw [List.mem_map, List.mem_range'_1]
  constructor
  · rintro ⟨e, he, rfl⟩
    obtain ⟨i, hi, hil, hf⟩ := (h.mem_iff e).mp he
    rw [hindexed i e hf]
    rw [UInt64.le_iff_toNat_le] at hi hil
    omega
  · rintro ⟨hn, hnl⟩
    have hlt : n < 2 ^ 64 := by
      have hbound := last.toNat_lt
      omega
    have hto : (UInt64.ofNat n).toNat = n := UInt64.toNat_ofNat_of_lt' hlt
    have hle : first ≤ UInt64.ofNat n := by
      rw [UInt64.le_iff_toNat_le, hto]
      exact hn
    have hle' : UInt64.ofNat n ≤ last := by
      rw [UInt64.le_iff_toNat_le, hto]
      omega
    obtain ⟨e, he⟩ := Option.isSome_iff_exists.mp (hgaps first last _ hfirst hlast hle hle')
    refine ⟨e, (h.mem_iff e).mpr ⟨_, hle, hle', he⟩, ?_⟩
    rw [hindexed _ e he, hto]

/-- **The log has no gaps**, whatever is written, cut back and purged, whichever storage
operations fail, and wherever the process stops: what lies between two stored indices is
stored, and a range between them is returned whole, in order, each index once. -/
theorem log_has_no_gaps (fmt : Formats Entry HardState) {es : List (WalEvent Entry HardState)}
    (hes : Along (LmdbWal.walStep fmt) (LmdbWal.Extends fmt) freshWal es) :
    let wal := runFrom (LmdbWal.walStep fmt) freshWal es
    ∀ first last, wal.Holds first → wal.Holds last →
      (∀ k, first ≤ k → k ≤ last → wal.Holds k) ∧
      ∀ flt out, wal.getEntries fmt flt first last = .ok out →
        out.map (fun e => (fmt.index e).toNat) =
          List.range' first.toNat (last.toNat + 1 - first.toNat) := by
  intro wal first last hfirst hlast
  have hinv : wal.NoGaps fmt :=
    runFrom_invariant (fun _ _ h he => h.step he) (freshWal_noGaps fmt) hes
  obtain ⟨m, hrep, hgaps⟩ := hinv
  rw [hrep.holds_iff, ← Option.isSome_iff_exists] at hfirst hlast
  constructor
  · intro k hfk hkl
    rw [hrep.holds_iff, ← Option.isSome_iff_exists]
    exact hgaps first last k hfirst hlast hfk hkl
  · intro flt out hout
    have hlists := hrep.getEntries_answered flt first last
    rw [hout] at hlists
    exact Lists.consecutive hlists hgaps hrep.log.indexed hfirst hlast

/-- A conflict at 3: the log is cut back, and the process stops after the commit of the
entries that take the place of the old one, before it updates its last index. -/
theorem log_has_no_gaps_repaired :
    let es : List (WalEvent LogId UInt64) :=
      [.run (.write Faults.none (.persistEntries [⟨1, 1⟩, ⟨2, 1⟩, ⟨3, 1⟩])),
        .run (.write Faults.none (.truncate 3)),
        .crash Faults.none (.persistEntries [⟨3, 2⟩, ⟨4, 2⟩]) 1]
    let wal := runFrom (LmdbWal.walStep plainFormats) freshWal es
    ∀ flt out, wal.getEntries plainFormats flt 1 2 = .ok out →
      out.map (fun e => e.index.toNat) = [1, 2] := by
  intro es wal
  let first : LogOp LogId UInt64 := .persistEntries [⟨1, 1⟩, ⟨2, 1⟩, ⟨3, 1⟩]
  let second : LogOp LogId UInt64 := .persistEntries [⟨3, 2⟩, ⟨4, 2⟩]
  have hfresh : Represents plainFormats freshWal.env (LogModel.empty : LogModel LogId UInt64) :=
    empty_represents plainFormats
  have htruncate : ∀ wal : LmdbWal, (wal.truncate Faults.none 3).result = .ok () := fun _ => rfl
  have hcut := ((hfresh.perform Faults.none first).after_ok rfl).truncate Faults.none 3
    |>.after_ok (htruncate _)
  have hes : Along (LmdbWal.walStep plainFormats) (LmdbWal.Extends plainFormats) freshWal es := by
    refine ⟨⟨1, rfl, Or.inl ?_⟩, trivial, ⟨3, rfl, Or.inr ⟨2, ?_, by decide⟩⟩, trivial⟩
    · intro i hi
      cases hi
    · exact (hcut.holds_iff 2).mpr ⟨⟨2, 1⟩, rfl⟩
  -- both ends are stored, whichever side of the commit the process stopped on
  have hends : wal.Holds 1 ∧ wal.Holds 2 := by
    rcases (hcut.perform Faults.none second).crashAt 1 with hold | ⟨-, hnew⟩
    · have hrep : Represents plainFormats wal.env _ := hold ▸ hcut
      exact ⟨(hrep.holds_iff 1).mpr ⟨⟨1, 1⟩, rfl⟩, (hrep.holds_iff 2).mpr ⟨⟨2, 1⟩, rfl⟩⟩
    · have hrep : Represents plainFormats wal.env _ := hnew
      exact ⟨(hrep.holds_iff 1).mpr ⟨⟨1, 1⟩, rfl⟩, (hrep.holds_iff 2).mpr ⟨⟨2, 1⟩, rfl⟩⟩
  exact (log_has_no_gaps plainFormats hes 1 2 hends.1 hends.2).2

end DLmdb
