import DLmdb.StateMachine.Apply

/-!
# Catching up from a recorded position

A store holds the first `m` entries of the log, the position recorded for it may
lie further back, and the engine delivers everything after that position. The
entries in between are applied a second time, to a store that already contains
their effects. `catchesUp_iff` says exactly when that is harmless. It serves crash
recovery (the position is the persisted `last_applied`) and snapshot installation
(the position is the snapshot's `last_included`).
-/

namespace DLmdb

open Framework Lmdb

/-- A committed log: indices increase, and 0 is the position before it. -/
structure RaftLog where
  entries : List ApplyEntry
  increasing : entries.Pairwise (fun a b => a.index < b.index)
  positive : ∀ e ∈ entries, 0 < e.index

namespace RaftLog

/-- Entries `1..n`. -/
def upTo (log : RaftLog) (n : UInt64) : List ApplyEntry :=
  log.entries.filter (fun e => e.index ≤ n)

/-- The entries after position `r`, up to `n`. -/
def between (log : RaftLog) (r n : UInt64) : List ApplyEntry :=
  log.entries.filter (fun e => r < e.index ∧ e.index ≤ n)

/-- Those of the first `m` entries that come after position `r`: what a store holding
`m` entries gets a second time. -/
def again (log : RaftLog) (m : ℕ) (r : UInt64) : List ApplyEntry :=
  (log.entries.take m).filter (fun e => r < e.index)

/-- A position the first `m` entries cover: the start, or one of them. -/
def Covers (log : RaftLog) (m : ℕ) (r : UInt64) : Prop :=
  r = 0 ∨ ∃ e ∈ log.entries.take m, e.index = r

theorem Covers.mono {log : RaftLog} {m m' : ℕ} {r : UInt64} (h : log.Covers m r)
    (hm : m ≤ m') : log.Covers m' r := by
  rcases h with rfl | ⟨e, he, rfl⟩
  · exact Or.inl rfl
  · exact Or.inr ⟨e, (List.take_subset_take_left log.entries hm) he, rfl⟩

theorem take_lt_drop (log : RaftLog) (m : ℕ) :
    ∀ a ∈ log.entries.take m, ∀ b ∈ log.entries.drop m, a.index < b.index := by
  have h := log.increasing
  rw [← List.take_append_drop m log.entries] at h
  exact (List.pairwise_append.mp h).2.2

/-- Every later entry lies after a covered position. -/
theorem Covers.lt_drop {log : RaftLog} {m : ℕ} {r : UInt64} (h : log.Covers m r) :
    ∀ e ∈ log.entries.drop m, r < e.index := by
  intro e he
  rcases h with rfl | ⟨a, ha, rfl⟩
  · exact log.positive e (List.mem_of_mem_drop he)
  · exact log.take_lt_drop m a ha e he

/-- A delivery splits at the `m`-th entry: what comes again, then what is new. -/
theorem between_split (log : RaftLog) {m : ℕ} {r n : UInt64} (hr : log.Covers m r)
    (hn : ∀ e ∈ log.entries.take m, e.index ≤ n) :
    log.between r n =
      log.again m r ++ (log.entries.drop m).filter (fun e => e.index ≤ n) := by
  have hsplit : log.between r n =
      (log.entries.take m).filter (fun e => r < e.index ∧ e.index ≤ n) ++
        (log.entries.drop m).filter (fun e => r < e.index ∧ e.index ≤ n) := by
    rw [← List.filter_append, List.take_append_drop]
    rfl
  rw [hsplit]
  congr 1
  · apply List.filter_congr
    intro e he
    simp [hn e he]
  · apply List.filter_congr
    intro e he
    simp [hr.lt_drop e he]

theorem upTo_split (log : RaftLog) {m : ℕ} {n : UInt64}
    (hn : ∀ e ∈ log.entries.take m, e.index ≤ n) :
    log.upTo n =
      log.entries.take m ++ (log.entries.drop m).filter (fun e => e.index ≤ n) := by
  have hsplit : log.upTo n =
      (log.entries.take m).filter (fun e => e.index ≤ n) ++
        (log.entries.drop m).filter (fun e => e.index ≤ n) := by
    rw [← List.filter_append, List.take_append_drop]
    rfl
  rw [hsplit, List.filter_eq_self.mpr]
  intro e he
  simpa using hn e he

/-- An increasing log is what lies up to a position, then what lies after it. -/
theorem filter_split (r : UInt64) {l : List ApplyEntry}
    (h : l.Pairwise (fun a b => a.index < b.index)) :
    l = l.filter (fun e => ¬ r < e.index) ++ l.filter (fun e => r < e.index) := by
  induction l with
  | nil => rfl
  | cons e l ih =>
      obtain ⟨he, hl⟩ := List.pairwise_cons.mp h
      by_cases hr : r < e.index
      · -- from here on every entry lies after `r`
        have hall : ∀ a ∈ e :: l, r < a.index := by
          intro a ha
          rcases List.mem_cons.mp ha with rfl | hmem
          · exact hr
          · exact UInt64.lt_trans hr (he a hmem)
        have hnone : (e :: l).filter (fun a => ¬ r < a.index) = [] := by
          rw [List.filter_eq_nil_iff]
          intro a ha
          simpa using hall a ha
        have hself : (e :: l).filter (fun a => r < a.index) = e :: l := by
          rw [List.filter_eq_self]
          intro a ha
          simpa using hall a ha
        rw [hnone, hself, List.nil_append]
      · rw [List.filter_cons_of_pos (by simpa using hr), List.filter_cons_of_neg (by simpa using hr),
          List.cons_append, ← ih hl]

/-- What comes again is a suffix of what the store holds. -/
theorem take_split (log : RaftLog) (m : ℕ) (r : UInt64) :
    log.entries.take m =
      (log.entries.take m).filter (fun e => ¬ r < e.index) ++ log.again m r :=
  filter_split r (log.increasing.sublist (List.take_sublist m log.entries))

/-- Some index bounds the first `m` entries and no later one. -/
theorem exists_bound (log : RaftLog) (m : ℕ) :
    ∃ n : UInt64, (∀ e ∈ log.entries.take m, e.index ≤ n) ∧
      ∀ e ∈ log.entries.drop m, n < e.index := by
  rcases List.eq_nil_or_concat (log.entries.take m) with hnil | ⟨l, e, hl⟩
  · refine ⟨0, by simp [hnil], fun e he => log.positive e (List.mem_of_mem_drop he)⟩
  · have hpw : (log.entries.take m).Pairwise (fun a b => a.index < b.index) :=
      log.increasing.sublist (List.take_sublist m log.entries)
    refine ⟨e.index, ?_, ?_⟩
    · intro a ha
      rw [hl, List.concat_eq_append] at ha hpw
      rcases List.mem_append.mp ha with hmem | hmem
      · have hlt := (List.pairwise_append.mp hpw).2.2 a hmem e List.mem_cons_self
        exact UInt64.le_of_lt hlt
      · rw [List.mem_singleton.mp hmem]
        exact UInt64.le_refl _
    · intro b hb
      exact log.take_lt_drop m e (by simp [hl]) b hb

end RaftLog

/-- The contents a fresh store has after the first `m` entries. -/
def RaftLog.contents (log : RaftLog) (m : ℕ) : Contents Bytes Bytes :=
  Contents.run (fun _ => none) (logWrites (log.entries.take m))

theorem freshStateMachine_kv : freshStateMachine.kv.get = fun _ => none := by
  ext k : 1
  exact Database.get_empty k

/-- The store of `sm` catches up with the log: delivering the entries after `r` up to
any `n` that covers the first `m` gives what applying `1..n` once to an empty
store gives, however both deliveries are cut. -/
def CatchesUp (log : RaftLog) (m : ℕ) (r : UInt64) (sm : LmdbStateMachine) : Prop :=
  ∀ n : UInt64, (∀ e ∈ log.entries.take m, e.index ≤ n) →
    ∀ cuts sm' rs, cutEntries cuts = log.between r n → applyChunks sm cuts = .ok (sm', rs) →
    ∀ once sm₁ rs₁, cutEntries once = log.upTo n →
      applyChunks freshStateMachine once = .ok (sm₁, rs₁) → sm'.kv = sm₁.kv

/-- **Catching up is exact exactly when what comes again can be replayed** on the
contents that already include it. -/
theorem catchesUp_iff {log : RaftLog} {m : ℕ} {r : UInt64} {sm : LmdbStateMachine}
    (hkv : sm.kv.get = log.contents m) (hst : ∀ e ∈ log.entries.take m, e.command.Storable)
    (hr : log.Covers m r) :
    CatchesUp log m r sm ↔ Replayable (logWrites (log.again m r)) sm.kv.get := by
  have hagain : Contents.run (Contents.run (fun _ => none) (logWrites
      ((log.entries.take m).filter (fun e => ¬ r < e.index)))) (logWrites (log.again m r)) =
      sm.kv.get := by
    rw [← Contents.run_append, ← logWrites_append, ← log.take_split m r, hkv]
    rfl
  have hreplay := run_run_eq_iff (Contents.run (fun _ => none) (logWrites
      ((log.entries.take m).filter (fun e => ¬ r < e.index)))) (logWrites (log.again m r))
  rw [hagain] at hreplay
  rw [← hreplay]
  constructor
  · -- deliver exactly what the store holds, without faults
    intro h
    obtain ⟨n, hn, hafter⟩ := log.exists_bound m
    have hnew : (log.entries.drop m).filter (fun e => e.index ≤ n) = [] := by
      rw [List.filter_eq_nil_iff]
      intro e he
      simpa using hafter e he
    have hsub : ∀ e ∈ log.again m r, e.command.Storable :=
      fun e he => hst e (List.mem_of_mem_filter he)
    obtain ⟨sm', rs, h₁⟩ := applyChunks_noFaults sm [log.again m r]
      (by simpa using hsub)
    obtain ⟨sm₁, rs₁, h₂⟩ := applyChunks_noFaults freshStateMachine [log.entries.take m]
      (by simpa using hst)
    have heq := h n hn _ sm' rs (by simp [cutEntries, log.between_split hr hn, hnew]) h₁ _ sm₁ rs₁
      (by simp [cutEntries, log.upTo_split hn, hnew]) h₂
    have hkv' := (applyChunks_applied h₁).kv
    have hkv₁ := (applyChunks_applied h₂).kv
    rw [cutEntries_noFaults, List.flatten_singleton] at hkv' hkv₁
    rw [← hkv', heq, hkv₁, freshStateMachine_kv, hkv]
    rfl
  · intro h n hn cuts sm' rs hcuts h₁ once sm₁ rs₁ honce h₂
    apply Database.ext_get
    intro k
    rw [(applyChunks_applied h₁).kv, (applyChunks_applied h₂).kv, hcuts, honce,
      log.between_split hr hn, log.upTo_split hn, logWrites_append, logWrites_append,
      Contents.run_append, Contents.run_append, h, freshStateMachine_kv, hkv]
    rfl

end DLmdb
