import DLmdb.Cluster.Convergence
import DLmdb.StorageEngine.Gapless
import DLmdb.StorageEngine.Purging

/-!
# A node and its two stores

A node keeps its log in one LMDB environment and what the log amounts to in another, and no
transaction spans both. An entry is persisted in the first, committed, applied to the second;
when `last_applied` is on disk past it, a purge may take it from the first. So at any point
where the process can stop, the two must fit together: the log has to hold all that comes
after the position the state machine reads back.
-/

namespace DLmdb

open Framework Lmdb

variable {Entry HardState : Type}

/-! ## The log that will be committed -/

/-- The Raft log from its first entry on, and what the state machine gets of each entry. -/
structure FullLog (fmt : Formats Entry HardState) where
  entries : List Entry
  command : Entry → Option ApplyEntry
  consecutive : ConsecutiveFrom fmt 1 entries
  bounded : entries.length < 2 ^ 64 - 1
  index_eq : ∀ e a, command e = some a → a.index = fmt.index e

namespace FullLog

variable {fmt : Formats Entry HardState} (full : FullLog fmt)

theorem index_toNat {i : ℕ} (hi : i < full.entries.length) :
    (fmt.index full.entries[i]).toNat = i + 1 := by
  have hget := congrArg (fun l => l[i]?) full.consecutive
  simp only [List.getElem?_map, List.getElem?_eq_getElem hi, Option.map_some,
    List.getElem?_range' hi] at hget
  have hnat := Option.some.inj hget
  omega

theorem sorted : full.entries.Pairwise (fun a b => fmt.index a < fmt.index b) := by
  have hlt : (full.entries.map (fun e => (fmt.index e).toNat)).Pairwise (· < ·) := by
    rw [full.consecutive]
    exact List.pairwise_lt_range'
  rw [List.pairwise_map] at hlt
  exact hlt.imp (fun h => UInt64.lt_iff_toNat_lt.mpr h)

theorem positive {e : Entry} (he : e ∈ full.entries) : 0 < fmt.index e := by
  obtain ⟨i, hi, rfl⟩ := List.mem_iff_getElem.mp he
  rw [UInt64.lt_iff_toNat_lt, full.index_toNat hi]
  exact Nat.succ_pos i

/-- What the state machines get. -/
def applied : RaftLog where
  entries := full.entries.filterMap full.command
  increasing := by
    rw [List.pairwise_filterMap]
    refine full.sorted.imp ?_
    intro a b hab x hx y hy
    rw [full.index_eq a x hx, full.index_eq b y hy]
    exact hab
  positive := by
    intro x hx
    obtain ⟨e, he, hcommand⟩ := List.mem_filterMap.mp hx
    rw [full.index_eq e x hcommand]
    exact full.positive he

/-- How many of the first `c` entries the state machines get. -/
def count (c : ℕ) : ℕ := ((full.entries.take c).filterMap full.command).length

theorem applied_take (c : ℕ) :
    full.applied.entries.take (full.count c) = (full.entries.take c).filterMap full.command := by
  have hsplit : full.applied.entries = (full.entries.take c).filterMap full.command ++
      (full.entries.drop c).filterMap full.command := by
    rw [← List.filterMap_append, List.take_append_drop]
    rfl
  rw [hsplit, count, List.take_left']
  rfl

theorem count_mono {c c' : ℕ} (h : c ≤ c') : full.count c ≤ full.count c' := by
  have hsub : (full.entries.take c).Sublist (full.entries.take c') :=
    List.take_sublist_take_left h
  exact (hsub.filterMap full.command).length_le

/-- Among the first `c` entries are those with an index up to `c`. -/
theorem mem_take_iff {c : ℕ} {e : Entry} (he : e ∈ full.entries) :
    e ∈ full.entries.take c ↔ (fmt.index e).toNat ≤ c := by
  rw [List.mem_take_iff_getElem]
  constructor
  · rintro ⟨i, hi, rfl⟩
    rw [full.index_toNat (by omega)]
    omega
  · intro hle
    obtain ⟨i, hi, rfl⟩ := List.mem_iff_getElem.mp he
    rw [full.index_toNat hi] at hle
    exact ⟨i, by omega, rfl⟩

theorem eq_of_index_eq {a b : Entry} (ha : a ∈ full.entries) (hb : b ∈ full.entries)
    (h : fmt.index a = fmt.index b) : a = b := by
  obtain ⟨i, hi, rfl⟩ := List.mem_iff_getElem.mp ha
  obtain ⟨j, hj, rfl⟩ := List.mem_iff_getElem.mp hb
  have hij : i + 1 = j + 1 := by rw [← full.index_toNat hi, h, full.index_toNat hj]
  simp only [Nat.succ.inj hij]

end FullLog

/-! ## The machine -/

structure NodeStores where
  committed : ℕ
  wal : LmdbWal
  sm : LmdbStateMachine

def NodeStores.fresh : NodeStores := ⟨0, freshWal, freshStateMachine⟩

/-- What the engine calls on the state machine. -/
inductive NodeStep where
  | apply (flt : Faults) (len : ℕ)
  | persist (flt : Faults)

inductive StoreEvent (Entry HardState : Type) where
  | commit (len : ℕ)
  | write (flt : Faults) (op : LogOp Entry HardState)
  | call (c : NodeStep)
  | reap (flt : Faults) (key : Bytes) (now : UInt64)
  | drop (flt : Faults)
  | crashWriting (flt : Faults) (op : LogOp Entry HardState) (j : ℕ)
  | crashCalling (c : NodeStep) (j : ℕ)

namespace NodeStores

variable {fmt : Formats Entry HardState} (full : FullLog fmt)

/-- The committed entries that follow `last_applied`, as the state machine gets them. -/
def due (s : NodeStores) : List ApplyEntry :=
  full.applied.again (full.count s.committed) s.sm.lastAppliedIndex

def op (s : NodeStores) : NodeStep → SmOp
  | .apply flt len => .applyChunk flt ((s.due full).take len)
  | .persist flt => .persistLastApplied flt s.sm.lastApplied

/-- Both directories opened again. -/
def reopen (s : NodeStores) (walEnv : WalEnv) (env : SmEnv) : NodeStores :=
  { s with
    wal := LmdbWal.reopened Faults.none { s.wal with env := walEnv }
    sm := reopened env }

def step (s : NodeStores) : StoreEvent Entry HardState → NodeStores
  | .commit len => { s with committed := min (s.committed + len) full.entries.length }
  | .write flt op => { s with wal := s.wal.after (op.call fmt flt s.wal) }
  | .call c => { s with sm := s.sm.after ((s.op full c).call s.sm) }
  | .reap flt key _ => { s with sm := s.sm.after (s.sm.deleteLocal flt key) }
  | .drop flt => s.reopen s.wal.env ((Stop.drop flt).leaves s.sm)
  | .crashWriting flt op j =>
      s.reopen ((op.call fmt flt s.wal).crashAt LmdbWal.exec s.wal j).env s.sm.env
  | .crashCalling c j => s.reopen s.wal.env ((Stop.crash (s.op full c) j).leaves s.sm)

/-- The position that the next process will start from. -/
def marker (s : NodeStores) : UInt64 := (recoveredLastApplied s.sm.env).index

/-- The log holds the entry. -/
def Stores (fmt : Formats Entry HardState) (wal : LmdbWal) (e : Entry) : Prop :=
  (wal.env .logDb).get (toBeBytes (fmt.index e)) = some (fmt.entry.encode e)

/-- What Raft writes to the log: nothing other than the committed entries at their indices,
no cut into them, and nothing is let go before the position on disk has passed it. -/
def MayWrite (s : NodeStores) : LogOp Entry HardState → Prop
  | .persistEntries es =>
      ∀ e ∈ es, (fmt.index e).toNat ≤ s.committed → e ∈ full.entries.take s.committed
  | .purge c => c.index ≤ s.marker
  | .truncate f => s.committed < f.toNat
  | .reset => ∀ e ∈ full.entries.take s.committed, fmt.index e ≤ s.marker
  | .saveHardState _ => True

/-- An entry is committed when the log holds it; a read removes what has expired. -/
def Allows (s : NodeStores) : StoreEvent Entry HardState → Prop
  | .commit len => ∀ e ∈ (full.entries.drop s.committed).take len, Stores fmt s.wal e
  | .write _ op => s.MayWrite full op
  | .reap _ key now => ∀ v ∈ s.sm.kv.get key, ExpiredAt v now
  | .crashWriting _ op _ => s.MayWrite full op
  | _ => True

end NodeStores

/-! ## The log covers what is due -/

/-- The map holds every committed entry after position `r`. -/
def Stocked {fmt : Formats Entry HardState} (full : FullLog fmt) (c : ℕ) (r : UInt64)
    (f : UInt64 → Option Entry) : Prop :=
  ∀ e ∈ full.entries.take c, r < fmt.index e → f (fmt.index e) = some e

namespace Stocked

variable {fmt : Formats Entry HardState} {full : FullLog fmt} {c : ℕ} {r : UInt64}
  {f : UInt64 → Option Entry}

theorem mono (h : Stocked full c r f) {r' : UInt64} (hr : r ≤ r') : Stocked full c r' f :=
  fun e he hlt => h e he (UInt64.lt_of_le_of_lt hr hlt)

theorem foldl_overwrite {i : UInt64} {e : Entry} {es : List Entry} (h : f i = some e)
    (hes : ∀ x ∈ es, fmt.index x = i → x = e) :
    es.foldl (LogModel.overwrite fmt.index) f i = some e := by
  induction es generalizing f with
  | nil => exact h
  | cons x es ih =>
      refine ih ?_ (fun y hy => hes y (List.mem_cons_of_mem x hy))
      by_cases hi : fmt.index x = i
      · subst hi
        rw [LogModel.overwrite, Function.update_self, hes x List.mem_cons_self rfl]
      · rw [LogModel.overwrite, Function.update_of_ne (Ne.symm hi)]
        exact h

/-- **One write** that Raft may make. -/
theorem perform {m : LogModel Entry HardState} {s : NodeStores}
    (h : Stocked full s.committed s.marker m.entries) {op : LogOp Entry HardState}
    (hop : s.MayWrite full op) :
    Stocked full s.committed s.marker (m.perform fmt.index op).entries := by
  intro e he hlt
  have hstored := h e he hlt
  cases op with
  | persistEntries es =>
      refine foldl_overwrite hstored ?_
      intro x hx hindex
      have hle : (fmt.index x).toNat ≤ s.committed := by
        rw [hindex]
        exact (full.mem_take_iff (List.mem_of_mem_take he)).mp he
      exact full.eq_of_index_eq (List.mem_of_mem_take (hop x hx hle))
        (List.mem_of_mem_take he) hindex
  | purge cutoff =>
      have hcut : cutoff.index ≤ s.marker := hop
      have hkept : ¬ fmt.index e < saturatingSucc cutoff.index := fun hgone =>
        UInt64.not_le.mpr (UInt64.lt_of_le_of_lt hcut hlt) (le_of_lt_saturatingSucc hgone)
      show (if fmt.index e < saturatingSucc cutoff.index then none
        else m.entries (fmt.index e)) = some e
      rw [if_neg hkept]
      exact hstored
  | truncate from' =>
      have hcut : s.committed < from'.toNat := hop
      have hle := (full.mem_take_iff (List.mem_of_mem_take he)).mp he
      have hkept : ¬ from' ≤ fmt.index e := by
        rw [UInt64.le_iff_toNat_le]
        omega
      show (if from' ≤ fmt.index e then none else m.entries (fmt.index e)) = some e
      rw [if_neg hkept]
      exact hstored
  | reset => exact absurd hlt (UInt64.not_lt.mpr (hop e he))
  | saveHardState state => exact hstored

end Stocked

/-! ## The invariant -/

/-- The two stores fit together: the log covers what the state machine is due, and the state
machine is where the log takes `k` to its value. -/
structure FitsTogether {fmt : Formats Entry HardState} (full : FullLog fmt) (t : UInt64) (k : Bytes)
    (s : NodeStores) : Prop where
  bound : s.committed ≤ full.entries.length
  log : ∃ m : LogModel Entry HardState, Represents fmt s.wal.env m ∧
    Stocked full s.committed s.marker m.entries
  node : OnTrack full.applied t (full.count s.committed) k s.sm

namespace FitsTogether

variable {fmt : Formats Entry HardState} {full : FullLog fmt} {t : UInt64} {k : Bytes}
  {s : NodeStores}

theorem fresh (full : FullLog fmt) (t : UInt64) (k : Bytes) :
    FitsTogether full t k NodeStores.fresh where
  bound := Nat.zero_le _
  log := by
    refine ⟨LogModel.empty, empty_represents fmt, ?_⟩
    intro e he
    rw [show NodeStores.fresh.committed = 0 from rfl, List.take_zero] at he
    cases he
  node := freshStateMachine_onTrack full.applied t _ k

/-- The state machine moves on, and so does the position on disk, if at all. -/
theorem withNode (h : FitsTogether full t k s) {sm : LmdbStateMachine}
    (hsm : OnTrack full.applied t (full.count s.committed) k sm)
    (hmarker : s.marker ≤ (recoveredLastApplied sm.env).index) :
    FitsTogether full t k { s with sm := sm } where
  bound := h.bound
  log := by
    obtain ⟨m, hrep, hstocked⟩ := h.log
    exact ⟨m, hrep, hstocked.mono hmarker⟩
  node := hsm

/-- The log changes to another that covers what is due. -/
theorem withLog (h : FitsTogether full t k s) {wal : LmdbWal} {m : LogModel Entry HardState}
    (hrep : Represents fmt wal.env m) (hstocked : Stocked full s.committed s.marker m.entries) :
    FitsTogether full t k { s with wal := wal } where
  bound := h.bound
  log := ⟨m, hrep, hstocked⟩
  node := h.node

/-- The process starts again on the two directories. -/
theorem reopen (h : FitsTogether full t k s) (hk : full.applied.SwapFree k) :
    FitsTogether full t k (s.reopen s.wal.env s.sm.env) where
  bound := h.bound
  log := by
    obtain ⟨m, hrep, hstocked⟩ := h.log
    refine ⟨m, ?_, hstocked⟩
    show Represents fmt (LmdbWal.reopened Faults.none { s.wal with env := s.wal.env }).env m
    rw [LmdbWal.reopened_env]
    exact hrep
  node := h.node.reopened hk

theorem commit (h : FitsTogether full t k s) {len : ℕ}
    (hstored : ∀ e ∈ (full.entries.drop s.committed).take len, NodeStores.Stores fmt s.wal e) :
    FitsTogether full t k
      { s with committed := min (s.committed + len) full.entries.length } where
  bound := Nat.min_le_right _ _
  log := by
    obtain ⟨m, hrep, hstocked⟩ := h.log
    refine ⟨m, hrep, ?_⟩
    intro e he hlt
    have hmem := List.mem_of_mem_take he
    have hle := (full.mem_take_iff hmem).mp he
    have he : e ∈ full.entries.take (s.committed + len) :=
      (full.mem_take_iff hmem).mpr (hle.trans (Nat.min_le_left _ _))
    rw [List.take_add] at he
    rcases List.mem_append.mp he with hold | hnew
    · exact hstocked e hold hlt
    · exact (hrep.log.get_iff e).mp (hstored e hnew)
  node := by
    have hmono : full.count s.committed ≤ full.count (min (s.committed + len) full.entries.length) :=
      full.count_mono (le_min (Nat.le_add_right _ _) h.bound)
    obtain ⟨n, hn⟩ := Nat.exists_eq_add_of_le hmono
    show OnTrack full.applied t (full.count (min (s.committed + len) full.entries.length)) k s.sm
    rw [hn]
    exact h.node.commit n

theorem apply (h : FitsTogether full t k s) (hk : full.applied.SwapFree k) (flt : Faults)
    (len : ℕ) :
    FitsTogether full t k
      { s with sm := s.sm.after (applyChunk flt s.sm ((s.due full).take len)) } := by
  refine h.withNode ?_ ?_
  · exact h.node.moves hk (List.forall_mem_nil _) (List.take_append_drop len _).symm
      (applyChunk_moves flt s.sm ((s.due full).take len) [])
  · -- the chunk leaves the position on disk where it was
    cases hr : (applyChunk flt s.sm ((s.due full).take len)).result with
    | ok rs =>
        have hmeta := (applyChunk_applied hr).other .metaDb (by decide)
        rw [recoveredLastApplied, hmeta]
        exact UInt64.le_refl _
    | error e =>
        obtain ⟨terms, hterms⟩ := applyChunk_failed hr
        rw [hterms]
        exact UInt64.le_refl _

theorem persist (h : FitsTogether full t k s) (hk : full.applied.SwapFree k) (flt : Faults) :
    FitsTogether full t k
      { s with sm := s.sm.after (persistLastApplied flt s.sm s.sm.lastApplied) } := by
  refine h.withNode ?_ ?_
  · exact h.node.moves hk (List.forall_mem_nil _) (List.take_append_drop 0 _).symm
      (persistLastApplied_moves flt s.sm _ [])
  · rcases persistLastApplied_cases flt s.sm s.sm.lastApplied with
      ⟨env, hcall, -, hmark⟩ | ⟨e, hcall⟩
    · rw [hcall]
      show s.marker ≤ (recoveredLastApplied env).index
      rw [hmark]
      exact h.node.behind
    · rw [hcall]
      exact UInt64.le_refl _

/-- **A call** of the engine on the state machine. -/
theorem call (h : FitsTogether full t k s) (hk : full.applied.SwapFree k) (c : NodeStep) :
    FitsTogether full t k { s with sm := s.sm.after ((s.op full c).call s.sm) } := by
  cases c with
  | apply flt len => exact h.apply hk flt len
  | persist flt => exact h.persist hk flt

theorem write (h : FitsTogether full t k s) {op : LogOp Entry HardState}
    (hop : s.MayWrite full op) (flt : Faults) :
    FitsTogether full t k { s with wal := s.wal.after (op.call fmt flt s.wal) } := by
  obtain ⟨m, hrep, hstocked⟩ := h.log
  have hout := hrep.perform flt op
  cases hres : (op.call fmt flt s.wal).result with
  | ok u => exact h.withLog (hout.after_ok hres) (hstocked.perform hop)
  | error e =>
      rw [hout.after_error hres]
      exact h

theorem crashWriting (h : FitsTogether full t k s) {op : LogOp Entry HardState}
    (hop : s.MayWrite full op) (flt : Faults) (j : ℕ) :
    FitsTogether full t k
      { s with wal := (op.call fmt flt s.wal).crashAt LmdbWal.exec s.wal j } := by
  obtain ⟨m, hrep, hstocked⟩ := h.log
  rcases (hrep.perform flt op).crashAt j with hold | ⟨-, hnew⟩
  · refine h.withLog ?_ hstocked
    rw [hold]
    exact hrep
  · exact h.withLog hnew (hstocked.perform hop)

/-- **One event** keeps the two stores together. -/
theorem step (h : FitsTogether full t k s) (hk : full.applied.SwapFree k)
    {e : StoreEvent Entry HardState} (he : s.Allows full e)
    (ht : ∀ flt key now, e = .reap flt key now → now ≤ t) :
    FitsTogether full t k (s.step full e) := by
  cases e with
  | commit len => exact h.commit he
  | write flt op => exact h.write he flt
  | call c => exact h.call hk c
  | reap flt key now =>
      rcases Cluster.reap_cases s.sm flt key with hsame | hgone
      · rw [NodeStores.step, hsame]
        exact h
      · rw [NodeStores.step, hgone]
        refine h.withNode (h.node.reap ?_) ?_
        · intro v hv
          exact (he v hv).mono (ht flt key now rfl)
        · rw [Cluster.withoutKey_marker]
          exact UInt64.le_refl _
  | drop flt =>
      rw [NodeStores.step, Cluster.drop_env]
      exact (h.persist hk flt).reopen hk
  | crashWriting flt op j => exact (h.crashWriting he flt j).reopen hk
  | crashCalling c j =>
      rw [NodeStores.step]
      show FitsTogether full t k (s.reopen s.wal.env
        (((s.op full c).call s.sm).crashAt LmdbStateMachine.exec s.sm j).env)
      rcases (s.op full c).crash_env s.sm j with hold | hnew
      · rw [hold]
        exact h.reopen hk
      · rw [hnew]
        exact (h.call hk c).reopen hk

end FitsTogether

/-- The whole run, in which the committed entries become no fewer. -/
theorem FitsTogether.run {fmt : Formats Entry HardState} {full : FullLog fmt} {t : UInt64}
    {k : Bytes} {s : NodeStores} (h : FitsTogether full t k s) (hk : full.applied.SwapFree k)
    {es : List (StoreEvent Entry HardState)}
    (hes : Along (NodeStores.step full) (NodeStores.Allows full) s es)
    (ht : ∀ flt key now, StoreEvent.reap flt key now ∈ es → now ≤ t) :
    FitsTogether full t k (runFrom (NodeStores.step full) s es) ∧
      s.committed ≤ (runFrom (NodeStores.step full) s es).committed := by
  have hread : Along (NodeStores.step full)
      (fun _ e => ∀ flt key now, e = .reap flt key now → now ≤ t) s es := by
    refine Along.of_forall ?_
    rintro e he - flt key now rfl
    exact ht flt key now he
  refine runFrom_invariant (I := fun s' => FitsTogether full t k s' ∧ s.committed ≤ s'.committed)
    ?_ ⟨h, Nat.le_refl _⟩ (hes.and hread)
  rintro s' e ⟨hs, hle⟩ ⟨he, hnow⟩
  refine ⟨hs.step hk he hnow, hle.trans ?_⟩
  cases e with
  | commit len => exact le_min (Nat.le_add_right _ _) hs.bound
  | _ => exact Nat.le_refl _

/-! ## What the next process finds -/

section

variable {fmt : Formats Entry HardState} {full : FullLog fmt} {c : ℕ}

/-- What the engine hands on of the entries after `r`. -/
theorem applied_again (r : UInt64) :
    full.applied.again (full.count c) r =
      ((full.entries.take c).filter (fun e => r < fmt.index e)).filterMap full.command := by
  rw [RaftLog.again, full.applied_take]
  induction full.entries.take c with
  | nil => rfl
  | cons e es ih =>
      cases hcommand : full.command e with
      | none =>
          rw [List.filterMap_cons_none hcommand, ih, List.filter_cons]
          split
          · rw [List.filterMap_cons_none hcommand]
          · rfl
      | some a =>
          rw [List.filterMap_cons_some hcommand, List.filter_cons, List.filter_cons,
            full.index_eq e a hcommand, ih]
          split
          · rw [List.filterMap_cons_some hcommand]
          · rfl

/-- A range of the log, from the position on disk to the last committed index. -/
theorem Stocked.lists {r : UInt64} {f : UInt64 → Option Entry} (h : Stocked full c r f)
    (hc : c ≤ full.entries.length)
    (hr : r.toNat ≤ full.entries.length) {out : List Entry}
    (hlists : Lists fmt f (r + 1) (UInt64.ofNat c) out) :
    out = (full.entries.take c).filter (fun e => r < fmt.index e) := by
  have hbound := full.bounded
  have hnext : (r + 1).toNat = r.toNat + 1 := by
    rw [UInt64.toNat_add]
    exact Nat.mod_eq_of_lt (show r.toNat + 1 < 2 ^ 64 by omega)
  have hlast : (UInt64.ofNat c).toNat = c :=
    UInt64.toNat_ofNat_of_lt' (show c < 2 ^ 64 by omega)
  have hmem : ∀ e, e ∈ out ↔ e ∈ (full.entries.take c).filter (fun e => r < fmt.index e) := by
    intro e
    rw [hlists.mem_iff, List.mem_filter, decide_eq_true_eq]
    constructor
    · rintro ⟨i, hlo, hhi, hf⟩
      rw [UInt64.le_iff_toNat_le] at hlo hhi
      -- the committed entry at `i` is the stored one
      have hi : i.toNat - 1 < full.entries.length := by omega
      have hidx : fmt.index full.entries[i.toNat - 1] = i := by
        apply UInt64.toNat_inj.mp
        rw [full.index_toNat hi]
        omega
      have htake : full.entries[i.toNat - 1] ∈ full.entries.take c := by
        rw [full.mem_take_iff (List.getElem_mem hi), hidx]
        omega
      have hlt : r < fmt.index full.entries[i.toNat - 1] := by
        rw [hidx, UInt64.lt_iff_toNat_lt]
        omega
      have hstored := h _ htake hlt
      rw [hidx, hf] at hstored
      rw [Option.some.inj hstored]
      exact ⟨htake, hlt⟩
    · rintro ⟨htake, hlt⟩
      have hle := (full.mem_take_iff (List.mem_of_mem_take htake)).mp htake
      have hlt' := UInt64.lt_iff_toNat_lt.mp hlt
      refine ⟨fmt.index e, ?_, ?_, h e htake hlt⟩
      · rw [UInt64.le_iff_toNat_le]
        omega
      · rw [UInt64.le_iff_toNat_le]
        omega
  have hsorted : ((full.entries.take c).filter (fun e => r < fmt.index e)).Pairwise
      (fun a b => fmt.index a < fmt.index b) :=
    (full.sorted.sublist (List.take_sublist c full.entries)).filter _
  have : Std.Irrefl (fun a b : Entry => fmt.index a < fmt.index b) :=
    ⟨fun a => UInt64.lt_irrefl (fmt.index a)⟩
  exact hlists.increasing.eq_of_mem_iff hsorted (fun {e} => hmem e)

theorem toNat_le_of_covers {n : ℕ} {r : UInt64} (h : full.applied.Covers n r) :
    r.toNat ≤ full.entries.length := by
  rcases h with rfl | ⟨a, ha, rfl⟩
  · exact Nat.zero_le _
  · obtain ⟨e, he, hcommand⟩ := List.mem_filterMap.mp (List.mem_of_mem_take ha)
    have hall : e ∈ full.entries.take full.entries.length := by
      rw [List.take_length]
      exact he
    rw [full.index_eq e a hcommand]
    exact (full.mem_take_iff he).mp hall

/-- **The tail of the log**: after a position no purge has overtaken, it is what a state
machine at that position is due. -/
theorem FitsTogether.tail {t : UInt64} {k : Bytes} {s : NodeStores} (h : FitsTogether full t k s)
    {r : UInt64} (hr : full.applied.Covers (full.count s.committed) r) (hmarker : s.marker ≤ r)
    {wal : LmdbWal} (henv : wal.env = s.wal.env) {flt : Faults} {out : List Entry}
    (hout : wal.getEntries fmt flt (r + 1) (UInt64.ofNat s.committed) = .ok out) :
    out.filterMap full.command = full.applied.again (full.count s.committed) r := by
  obtain ⟨m, hrep, hstocked⟩ := h.log
  have hrep' : Represents fmt wal.env m := by
    rw [henv]
    exact hrep
  have hlists := hrep'.getEntries_answered flt (r + 1) (UInt64.ofNat s.committed)
  rw [hout] at hlists
  rw [(hstocked.mono hmarker).lists h.bound (toNat_le_of_covers hr) hlists, ← applied_again]

end

/-- **A node recovers from its two stores.** Wherever the process stopped, whatever failed and
however far `last_applied` lags on disk, as long as no purge overtakes it: the log, opened
again, gives back exactly the committed entries that the state machine, opened again, has not
recorded; and these take every key that is never swapped to the value of the log, unless a
read has found that expired. -/
theorem node_recovers {fmt : Formats Entry HardState} (full : FullLog fmt) {k : Bytes}
    (hk : full.applied.SwapFree k) {es : List (StoreEvent Entry HardState)}
    (hes : Along (NodeStores.step full) (NodeStores.Allows full) NodeStores.fresh es)
    {t : UInt64} (ht : ∀ flt key now, StoreEvent.reap flt key now ∈ es → now ≤ t) :
    let s := runFrom (NodeStores.step full) NodeStores.fresh es
    ∀ flt flt' flt'' wal sm out, LmdbWal.new flt s.wal.env = .ok wal →
      LmdbStateMachine.new flt' s.sm.env = .ok sm →
      wal.getEntries fmt flt'' (sm.lastAppliedIndex + 1) (UInt64.ofNat s.committed) = .ok out →
      out.filterMap full.command =
        full.applied.again (full.count s.committed) sm.lastAppliedIndex ∧
      ∀ cuts sm' rs, cutEntries cuts = out.filterMap full.command →
        applyChunks sm cuts = .ok (sm', rs) →
        logicalValue (sm'.kv.get k) t =
          logicalValue (full.applied.contents (full.count s.committed) k) t := by
  intro s flt flt' flt'' wal sm out hwal hsm hout
  have hs : FitsTogether full t k s := ((FitsTogether.fresh full t k).run hk hes ht).1
  cases eq_reopened_of_new hsm
  have hdue : out.filterMap full.command =
      full.applied.again (full.count s.committed) (reopened s.sm.env).lastAppliedIndex :=
    hs.tail hs.node.marker (UInt64.le_refl _) (LmdbWal.new_ok hwal).1 hout
  refine ⟨hdue, ?_⟩
  intro cuts sm' rs hcuts happly
  rw [hdue] at hcuts
  exact ((hs.node.reopened hk).caughtUp hk hcuts happly).logicalValue_eq

/-- A membership entry, which no state machine gets, and two inserts. -/
def threeEntries : FullLog plainFormats where
  entries := [⟨1, 1⟩, ⟨2, 1⟩, ⟨3, 1⟩]
  command e :=
    if e.index = 1 then none
    else some ⟨e.index, e.term, .insert [7] (Value.encodeRaw (toBeBytes e.index)) none⟩
  consecutive := rfl
  bounded := by decide
  index_eq := by
    intro e a h
    split at h
    · cases h
    · cases h
      rfl

/-- Both inserts are applied, the first is on record, the first entry is purged, and the
process stops before the second is on record. -/
theorem node_recovers_insert :
    let es : List (StoreEvent LogId UInt64) :=
      [.write Faults.none (.persistEntries threeEntries.entries), .commit 3,
        .call (.apply Faults.none 1), .call (.persist Faults.none), .call (.apply Faults.none 1),
        .write Faults.none (.purge ⟨1, 1⟩), .crashCalling (.persist Faults.none) 0]
    let s := runFrom (NodeStores.step threeEntries) NodeStores.fresh es
    ∃ wal sm out, LmdbWal.new Faults.none s.wal.env = .ok wal ∧
      LmdbStateMachine.new Faults.none s.sm.env = .ok sm ∧
      wal.getEntries plainFormats Faults.none (sm.lastAppliedIndex + 1)
        (UInt64.ofNat s.committed) = .ok out ∧
      (out.filterMap threeEntries.command).map ApplyEntry.index = [3] := by
  intro es s
  have hes : Along (NodeStores.step threeEntries) (NodeStores.Allows threeEntries)
      NodeStores.fresh es := by
    refine ⟨?_, ?_, trivial, trivial, trivial, ?_, trivial, trivial⟩
    · have hpos : ∀ e ∈ threeEntries.entries, 0 < e.index.toNat := by decide
      intro e he hle
      exact absurd hle (Nat.not_le.mpr (hpos e he))
    · show ∀ e ∈ _, Database.get _ _ = some _
      decide
    · show (1 : UInt64) ≤ NodeStores.marker _
      decide
  have hk : threeEntries.applied.SwapFree [7] := by decide
  have ht : ∀ flt key now, StoreEvent.reap flt key now ∈ es → now ≤ 0 := by simp [es]
  obtain ⟨m, hrep, -⟩ := ((FitsTogether.fresh _ _ _).run hk hes ht).1.log
  obtain ⟨sm, hsm⟩ := new_noFaults s.sm.env
  obtain ⟨out, hout, -⟩ := (@Represents.getEntries_answered _ _ _
    ⟨s.wal.env, lastIndexOf (s.wal.env .logDb).last⟩ m hrep Faults.none
    (sm.lastAppliedIndex + 1) (UInt64.ofNat s.committed)).exists_ok
  have hrecovers := (@node_recovers _ _ _ threeEntries [7] hk es hes 0 ht
    Faults.none Faults.none Faults.none _ sm out rfl hsm hout).1
  refine ⟨_, sm, out, rfl, hsm, hout, ?_⟩
  rw [hrecovers, eq_reopened_of_new hsm]
  decide

end DLmdb
