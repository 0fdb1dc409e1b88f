import DLmdb.Cluster.Nodes
import DLmdb.StateMachine.SnapshotTail

/-!
# Every node converges

`apply_chunk` leaves `last_applied` on disk behind what it commits, and a snapshot is
labelled with a position its copy may be ahead of. So a node that restarts, or installs a
snapshot, gets entries a second time, and gets them on a store from which reads have taken
what they found expired. Whatever of this happens, and however often, a key that the log
never swaps comes out right: between the position a node has recorded and what its store
holds of that key, the entries still to come close the gap.
-/

namespace DLmdb

open Framework Lmdb

/-! ## Positions of the log -/

namespace RaftLog

variable {log : RaftLog} {c : ℕ}

/-- No entry compares and swaps `k`. -/
def SwapFree (log : RaftLog) (k : Bytes) : Prop :=
  ∀ w ∈ onKey k (logWrites log.entries), w.isAssign = true

instance (log : RaftLog) (k : Bytes) : Decidable (log.SwapFree k) :=
  inferInstanceAs (Decidable (∀ w ∈ onKey k (logWrites log.entries), w.isAssign = true))

theorem again_sublist (log : RaftLog) (c : ℕ) (r : UInt64) : (log.again c r).Sublist log.entries :=
  List.filter_sublist.trans (List.take_sublist c log.entries)

theorem again_sorted (log : RaftLog) (c : ℕ) (r : UInt64) :
    (log.again c r).Pairwise (fun a b => a.index < b.index) :=
  log.increasing.sublist (log.again_sublist c r)

/-- The writes to `k` among some entries of a log are among those of the log. -/
theorem onKey_sublist {es es' : List ApplyEntry} (h : es.Sublist es') {k : Bytes}
    {w : KeyedWrite Bytes Bytes} (hw : w ∈ onKey k (logWrites es)) :
    w ∈ onKey k (logWrites es') := by
  obtain ⟨hmem, hkey⟩ := List.mem_filter.mp hw
  obtain ⟨e, he, hw⟩ := List.mem_flatMap.mp hmem
  exact List.mem_filter.mpr ⟨List.mem_flatMap.mpr ⟨e, h.subset he, hw⟩, hkey⟩

theorem again_of_le {l r : UInt64} (h : l ≤ r) :
    (log.again c l).filter (fun e => r < e.index) = log.again c r := by
  rw [again, again, List.filter_filter]
  apply List.filter_congr
  intro e he
  rw [← Bool.decide_and]
  apply decide_eq_decide.mpr
  constructor
  · exact fun hb => hb.1
  · exact fun hb => ⟨hb, UInt64.lt_of_le_of_lt h hb⟩

/-- From further back, what lies between comes first. -/
theorem again_split (log : RaftLog) (c : ℕ) {l r : UInt64} (h : l ≤ r) :
    ∃ passed, log.again c l = passed ++ log.again c r := by
  refine ⟨(log.again c l).filter (fun e => ¬ r < e.index), ?_⟩
  have hsplit := filter_split r (log.again_sorted c l)
  rw [again_of_le h] at hsplit
  exact hsplit

theorem again_zero (log : RaftLog) (c : ℕ) : log.again c 0 = log.entries.take c := by
  rw [again, List.filter_eq_self]
  intro e he
  exact decide_eq_true (log.positive e (List.mem_of_mem_take he))

/-- Once a first part is delivered, the rest follows the position it leaves. -/
theorem again_after {l : LogId} {chunk rest : List ApplyEntry}
    (h : log.again c l.index = chunk ++ rest) :
    log.again c (lastLogId l chunk).index = rest := by
  rcases List.eq_nil_or_concat chunk with rfl | ⟨es, e, rfl⟩
  · exact h
  · have hindex : (lastLogId l (es.concat e)).index = e.index := by
      simp [lastLogId, ApplyEntry.logId]
    have hsorted := log.again_sorted c l.index
    have hmem : e ∈ log.again c l.index := by
      rw [h]
      simp
    have hle : l.index ≤ e.index :=
      UInt64.le_of_lt (of_decide_eq_true (List.mem_filter.mp hmem).2)
    rw [hindex, ← again_of_le hle, h]
    rw [h, List.concat_eq_append] at hsorted
    obtain ⟨hfirst, -, hlater⟩ := List.pairwise_append.mp hsorted
    have hnone : (es.concat e).filter (fun a => e.index < a.index) = [] := by
      rw [List.filter_eq_nil_iff, List.concat_eq_append]
      intro a ha hlt
      have hlt := of_decide_eq_true hlt
      rcases List.mem_append.mp ha with hbefore | hlast
      · have hae := (List.pairwise_append.mp hfirst).2.2 a hbefore e List.mem_cons_self
        exact UInt64.lt_irrefl _ (UInt64.lt_trans hlt hae)
      · rw [List.mem_singleton.mp hlast] at hlt
        exact UInt64.lt_irrefl _ hlt
    have hall : rest.filter (fun a => e.index < a.index) = rest := by
      rw [List.filter_eq_self]
      intro a ha
      exact decide_eq_true (hlater e (by simp) a ha)
    rw [List.filter_append, hnone, hall, List.nil_append]

theorem Covers.after {l : LogId} {chunk rest : List ApplyEntry} (hl : log.Covers c l.index)
    (h : log.again c l.index = chunk ++ rest) : log.Covers c (lastLogId l chunk).index := by
  rcases List.eq_nil_or_concat chunk with rfl | ⟨es, e, rfl⟩
  · exact hl
  · refine Or.inr ⟨e, ?_, by simp [lastLogId, ApplyEntry.logId]⟩
    have hmem : e ∈ log.again c l.index := by
      rw [h]
      simp
    exact List.mem_of_mem_filter hmem

theorem le_lastLogId {l : LogId} {chunk rest : List ApplyEntry}
    (h : log.again c l.index = chunk ++ rest) : l.index ≤ (lastLogId l chunk).index := by
  rcases List.eq_nil_or_concat chunk with rfl | ⟨es, e, rfl⟩
  · exact UInt64.le_refl _
  · have hmem : e ∈ log.again c l.index := by
      rw [h]
      simp
    have hindex : (lastLogId l (es.concat e)).index = e.index := by
      simp [lastLogId, ApplyEntry.logId]
    rw [hindex]
    exact UInt64.le_of_lt (of_decide_eq_true (List.mem_filter.mp hmem).2)

/-- More entries are committed: they come after every position covered so far. -/
theorem again_grow {r : UInt64} (hr : log.Covers c r) (n : ℕ) :
    log.again (c + n) r = log.again c r ++ (log.entries.drop c).take n := by
  rw [again, List.take_add, List.filter_append]
  congr 1
  rw [List.filter_eq_self]
  intro e he
  exact decide_eq_true (hr.lt_drop e (List.mem_of_mem_take he))

theorem contents_grow (log : RaftLog) (c n : ℕ) :
    log.contents (c + n) =
      Contents.run (log.contents c) (logWrites ((log.entries.drop c).take n)) := by
  rw [contents, List.take_add, logWrites_append, Contents.run_append]
  rfl

theorem contents_apply (log : RaftLog) (c : ℕ) (k : Bytes) :
    log.contents c k = chain (onKey k (logWrites (log.again c 0))) none := by
  rw [again_zero, contents, run_apply]

/-! ## What a position and a stored value lead to -/

/-- The entries after `r` take `x` to the value the log gives `k`. -/
structure Leads (log : RaftLog) (c : ℕ) (k : Bytes) (r : UInt64) (x : Option Bytes) : Prop where
  covers : log.Covers c r
  value : chain (onKey k (logWrites (log.again c r))) x = log.contents c k

namespace Leads

variable {k : Bytes} {r : UInt64} {x : Option Bytes}

theorem start (log : RaftLog) (c : ℕ) (k : Bytes) : log.Leads c k 0 none :=
  ⟨Or.inl rfl, (log.contents_apply c k).symm⟩

theorem commit (h : log.Leads c k r x) (n : ℕ) : log.Leads (c + n) k r x where
  covers := h.covers.mono (Nat.le_add_right c n)
  value := by
    rw [again_grow h.covers, logWrites_append, onKey_append, chain_append, h.value,
      contents_grow, run_apply]

theorem deliver {l : LogId} {chunk rest : List ApplyEntry} (h : log.Leads c k l.index x)
    (hsplit : log.again c l.index = chunk ++ rest) :
    log.Leads c k (lastLogId l chunk).index (chain (onKey k (logWrites chunk)) x) where
  covers := h.covers.after hsplit
  value := by
    rw [again_after hsplit, ← chain_append, ← onKey_append, ← logWrites_append, ← hsplit]
    exact h.value

/-- **Going back is harmless** where the log never swaps: a store may be taken for an
older one. -/
theorem rewind (h : log.Leads c k r x) (hk : log.SwapFree k) {l : UInt64}
    (hl : log.Covers c l) (hle : l ≤ r) : log.Leads c k l x where
  covers := hl
  value := by
    -- the log up to `l`, from `l` to `r`, and after `r`
    obtain ⟨before, hlog⟩ := log.again_split c (UInt64.zero_le : (0 : UInt64) ≤ l)
    obtain ⟨passed, hback⟩ := log.again_split c hle
    have hcontents : log.contents c k = chain (onKey k (logWrites (log.again c l)))
        (chain (onKey k (logWrites before)) none) := by
      rw [contents_apply, hlog, logWrites_append, onKey_append, chain_append]
    have hvalue := h.value
    rw [hcontents, hback, logWrites_append, onKey_append] at hvalue ⊢
    apply chain_from_further_back ?_ hvalue
    intro w hw
    rw [← onKey_append, ← logWrites_append, ← hback] at hw
    exact hk w (onKey_sublist (log.again_sublist c l) hw)

end Leads

end RaftLog

/-! ## What reads take away -/

/-- `x`, or nothing once that has expired by `t`. -/
def Faded (t : UInt64) (x y : Option Bytes) : Prop :=
  y = x ∨ y = none ∧ ∃ v, x = some v ∧ ExpiredAt v t

theorem Faded.refl (t : UInt64) (x : Option Bytes) : Faded t x x := Or.inl rfl

theorem Faded.mono {t t' : UInt64} {x y : Option Bytes} (h : Faded t x y) (ht : t ≤ t') :
    Faded t' x y := by
  rcases h with rfl | ⟨rfl, v, hx, hv⟩
  · exact Faded.refl t' y
  · exact Or.inr ⟨rfl, v, hx, hv.mono ht⟩

theorem Faded.reap {t : UInt64} {x y : Option Bytes} (h : Faded t x y)
    (hy : ∀ v ∈ y, ExpiredAt v t) : Faded t x none := by
  rcases h with rfl | ⟨rfl, hx⟩
  · cases y with
    | none => exact Or.inl rfl
    | some v => exact Or.inr ⟨rfl, v, rfl, hy v rfl⟩
  · exact Or.inr ⟨rfl, hx⟩

/-- A write takes both to the same value, or leaves both alone. -/
theorem Faded.chain {t : UInt64} {x y : Option Bytes} (h : Faded t x y)
    {ws : List (KeyedWrite Bytes Bytes)} (hws : ∀ w ∈ ws, w.isAssign = true) :
    Faded t (chain ws x) (chain ws y) := by
  cases ws with
  | nil => exact h
  | cons w ws =>
      refine Or.inl (chain_of_assign ⟨w, List.mem_cons_self, ?_⟩ y x)
      exact hws w List.mem_cons_self

theorem Faded.logicalValue_eq {t : UInt64} {x y : Option Bytes} (h : Faded t x y) :
    logicalValue y t = logicalValue x t := by
  rcases h with rfl | ⟨rfl, v, rfl, hv⟩
  · rfl
  · rw [logicalValue_of_expired hv]
    rfl

namespace RaftLog

/-- The entries after `r` take `x` to the value the log gives `k`, up to expiry by `t`. -/
def LeadsBy (log : RaftLog) (t : UInt64) (c : ℕ) (k : Bytes) (r : UInt64) (x : Option Bytes) :
    Prop :=
  ∃ y, log.Leads c k r y ∧ Faded t y x

namespace LeadsBy

variable {log : RaftLog} {t : UInt64} {c : ℕ} {k : Bytes} {r : UInt64} {x : Option Bytes}

theorem covers (h : log.LeadsBy t c k r x) : log.Covers c r := by
  obtain ⟨y, hlead, -⟩ := h
  exact hlead.covers

theorem start (log : RaftLog) (t : UInt64) (c : ℕ) (k : Bytes) : log.LeadsBy t c k 0 none :=
  ⟨none, Leads.start log c k, Faded.refl t none⟩

theorem commit (h : log.LeadsBy t c k r x) (n : ℕ) : log.LeadsBy t (c + n) k r x := by
  obtain ⟨y, hlead, hfade⟩ := h
  exact ⟨y, hlead.commit n, hfade⟩

theorem deliver {l : LogId} {chunk rest : List ApplyEntry} (h : log.LeadsBy t c k l.index x)
    (hk : log.SwapFree k) (hsplit : log.again c l.index = chunk ++ rest) :
    log.LeadsBy t c k (lastLogId l chunk).index (chain (onKey k (logWrites chunk)) x) := by
  obtain ⟨y, hlead, hfade⟩ := h
  refine ⟨_, hlead.deliver hsplit, hfade.chain ?_⟩
  intro w hw
  have hchunk : chunk.Sublist (log.again c l.index) := by
    rw [hsplit]
    exact List.sublist_append_left chunk rest
  exact hk w (onKey_sublist (hchunk.trans (log.again_sublist c l.index)) hw)

theorem rewind (h : log.LeadsBy t c k r x) (hk : log.SwapFree k) {l : UInt64}
    (hl : log.Covers c l) (hle : l ≤ r) : log.LeadsBy t c k l x := by
  obtain ⟨y, hlead, hfade⟩ := h
  exact ⟨y, hlead.rewind hk hl hle, hfade⟩

theorem reap (h : log.LeadsBy t c k r x) (hx : ∀ v ∈ x, ExpiredAt v t) :
    log.LeadsBy t c k r none := by
  obtain ⟨y, hlead, hfade⟩ := h
  exact ⟨y, hlead, hfade.reap hx⟩

end LeadsBy

end RaftLog

/-! ## Nodes and snapshots -/

/-- The position a node serves from leads on, and the one on disk is not ahead of it. -/
structure OnTrack (log : RaftLog) (t : UInt64) (c : ℕ) (k : Bytes) (sm : LmdbStateMachine) :
    Prop where
  memory : log.LeadsBy t c k sm.lastAppliedIndex (sm.kv.get k)
  marker : log.Covers c (recoveredLastApplied sm.env).index
  behind : (recoveredLastApplied sm.env).index ≤ sm.lastAppliedIndex

/-- The label of a snapshot leads on from what its file holds. -/
def Labelled (log : RaftLog) (t : UInt64) (c : ℕ) (k : Bytes)
    (p : SnapshotMetadata × SnapshotFile) : Prop :=
  ∃ l db, p.1.lastIncluded = some l ∧ p.2 .kvDb = some db ∧
    log.LeadsBy t c k l.index (db.get k)

section

variable {log : RaftLog} {t : UInt64} {c : ℕ} {k : Bytes} {sm sm' : LmdbStateMachine}

theorem freshStateMachine_onTrack (log : RaftLog) (t : UInt64) (c : ℕ) (k : Bytes) :
    OnTrack log t c k freshStateMachine where
  memory := by
    rw [freshStateMachine_kv]
    exact RaftLog.LeadsBy.start log t c k
  marker := Or.inl (by simp [freshStateMachine, emptyEnv, recoveredLastApplied])
  behind := by simp [freshStateMachine, emptyEnv, recoveredLastApplied]

theorem OnTrack.commit (h : OnTrack log t c k sm) (n : ℕ) : OnTrack log t (c + n) k sm where
  memory := h.memory.commit n
  marker := h.marker.mono (Nat.le_add_right c n)
  behind := h.behind

theorem Labelled.commit {p : SnapshotMetadata × SnapshotFile} (h : Labelled log t c k p) (n : ℕ) :
    Labelled log t (c + n) k p := by
  obtain ⟨l, db, hlabel, hfile, hlead⟩ := h
  exact ⟨l, db, hlabel, hfile, hlead.commit n⟩

/-- A node that has installed the snapshot, whatever it was before. -/
theorem Labelled.onTrack {p : SnapshotMetadata × SnapshotFile} (h : Labelled log t c k p)
    (kv : p.2 .kvDb = some sm'.kv)
    (lastApplied : sm'.lastApplied = p.1.lastIncluded.getD sm.lastApplied)
    (marker : recoveredLastApplied sm'.env = p.1.lastIncluded.getD (recoveredLastApplied sm.env)) :
    OnTrack log t c k sm' := by
  obtain ⟨l, db, hlabel, hfile, hlead⟩ := h
  rw [hlabel, Option.getD_some] at lastApplied marker
  have hindex : sm'.lastAppliedIndex = l.index := congrArg LogId.index lastApplied
  have hkv : sm'.kv = db := Option.some.inj (kv.symm.trans hfile)
  refine ⟨?_, ?_, ?_⟩
  · rw [hindex, hkv]
    exact hlead
  · rw [marker]
    exact hlead.covers
  · rw [marker, hindex]
    exact UInt64.le_refl _

/-- **A call** keeps a node on track, whether it returns `Ok` or `Err`. -/
theorem OnTrack.moves {chunk rest : List ApplyEntry}
    {snapshots : List (SnapshotMetadata × SnapshotFile)} (h : OnTrack log t c k sm)
    (hk : log.SwapFree k) (hsnap : ∀ p ∈ snapshots, Labelled log t c k p)
    (hdue : log.again c sm.lastAppliedIndex = chunk ++ rest)
    (hmoves : Moves chunk snapshots sm sm') : OnTrack log t c k sm' := by
  cases hmoves with
  | same kv lastApplied marker =>
      have hindex : sm'.lastAppliedIndex = sm.lastAppliedIndex := congrArg LogId.index lastApplied
      refine ⟨?_, ?_, ?_⟩
      · rw [hindex, kv]
        exact h.memory
      · rw [marker]
        exact h.marker
      · rw [marker, hindex]
        exact h.behind
  | applied kv lastApplied marker =>
      have hindex : sm'.lastAppliedIndex = (lastLogId sm.lastApplied chunk).index :=
        congrArg LogId.index lastApplied
      refine ⟨?_, ?_, ?_⟩
      · rw [hindex, kv, run_apply]
        exact h.memory.deliver hk hdue
      · rw [marker]
        exact h.marker
      · rw [marker, hindex]
        exact UInt64.le_trans h.behind (RaftLog.le_lastLogId (l := sm.lastApplied) hdue)
  | persisted kv lastApplied marker =>
      have hindex : sm'.lastAppliedIndex = sm.lastAppliedIndex := congrArg LogId.index lastApplied
      refine ⟨?_, ?_, ?_⟩
      · rw [hindex, kv]
        exact h.memory
      · rw [marker]
        exact h.memory.covers
      · rw [marker, hindex]
        exact UInt64.le_refl _
  | installed p mem kv lastApplied marker => exact (hsnap p mem).onTrack kv lastApplied marker
  | cleared kv lastApplied marker =>
      have hindex : sm'.lastAppliedIndex = 0 := congrArg LogId.index lastApplied
      refine ⟨?_, ?_, ?_⟩
      · rw [hindex, kv, Database.get_empty]
        exact RaftLog.LeadsBy.start log t c k
      · rw [marker]
        exact Or.inl rfl
      · rw [marker]
        exact UInt64.zero_le

/-- A read that takes away what has expired. -/
theorem OnTrack.reap (h : OnTrack log t c k sm) {key : Bytes}
    (hkey : ∀ v ∈ sm.kv.get key, ExpiredAt v t) : OnTrack log t c k (sm.withoutKey key) where
  memory := by
    show log.LeadsBy t c k sm.lastAppliedIndex ((sm.withoutKey key).kv.get k)
    rw [withoutKey_kv]
    split
    · rename_i heq
      subst heq
      exact h.memory.reap hkey
    · exact h.memory
  marker := by
    rw [Cluster.withoutKey_marker]
    exact h.marker
  behind := by
    rw [Cluster.withoutKey_marker]
    exact h.behind

/-- **A restart** keeps a node on track: it goes back to the position on disk. -/
theorem OnTrack.reopened (h : OnTrack log t c k sm) (hk : log.SwapFree k) :
    OnTrack log t c k (reopened sm.env) where
  memory := h.memory.rewind hk h.marker h.behind
  marker := h.marker
  behind := UInt64.le_refl _

/-- A node that is given what it is due. -/
theorem OnTrack.caughtUp (h : OnTrack log t c k sm) (hk : log.SwapFree k)
    {cuts : List (Faults × List ApplyEntry)} {rs : List ApplyResult}
    (hcuts : cutEntries cuts = log.again c sm.lastAppliedIndex)
    (happly : applyChunks sm cuts = .ok (sm', rs)) :
    Faded t (log.contents c k) (sm'.kv.get k) := by
  obtain ⟨y, hlead, hfade⟩ := h.memory
  have hdue : ∀ w ∈ onKey k (logWrites (log.again c sm.lastAppliedIndex)), w.isAssign = true := by
    intro w hw
    exact hk w (RaftLog.onKey_sublist (log.again_sublist c _) hw)
  have hkv : sm'.kv.get k =
      chain (onKey k (logWrites (log.again c sm.lastAppliedIndex))) (sm.kv.get k) := by
    rw [(applyChunks_applied happly).kv, run_apply, hcuts]
  rw [hkv, ← hlead.value]
  exact hfade.chain hdue

end

/-! ## The cluster -/

/-- What holds of `k` in every state of the cluster. -/
structure Consistent (log : RaftLog) (t : UInt64) (k : Bytes) (s : Cluster) : Prop where
  node : ∀ i, OnTrack log t s.committed k (s.node i)
  snapshot : ∀ p ∈ s.snapshots, Labelled log t s.committed k p

namespace Consistent

variable {log : RaftLog} {t : UInt64} {k : Bytes} {s : Cluster}

theorem start (log : RaftLog) (t : UInt64) (k : Bytes) : Consistent log t k Cluster.start where
  node := fun _ => freshStateMachine_onTrack log t 0 k
  snapshot := by simp [Cluster.start]

theorem withNode (h : Consistent log t k s) (i : ℕ) {sm : LmdbStateMachine}
    (hsm : OnTrack log t s.committed k sm) : Consistent log t k (s.withNode i sm) where
  node := s.forall_withNode (OnTrack log t s.committed k) h.node hsm
  snapshot := h.snapshot

theorem commit (h : Consistent log t k s) (len : ℕ) :
    Consistent log t k { s with committed := s.committed + len } where
  node := fun i => (h.node i).commit len
  snapshot := fun p hp => (h.snapshot p hp).commit len

/-- The node after a call. -/
theorem after (h : Consistent log t k s) (hk : log.SwapFree k) {i : ℕ} {c : EngineCall}
    {op : SmOp} (hop : s.op log i c = some op) (hc : c.RestoreEnds) :
    OnTrack log t s.committed k ((s.node i).after (op.call (s.node i))) := by
  obtain ⟨len, hmoves⟩ := Cluster.call_moves hop hc
  exact (h.node i).moves hk h.snapshot (List.take_append_drop len _).symm hmoves

/-- A snapshot may be labelled with a position further back than its copy. -/
theorem made (h : Consistent log t k s) (hk : log.SwapFree k) {i : ℕ} {c : EngineCall}
    {op : SmOp} (hop : s.op log i c = some op) :
    ∀ p ∈ Cluster.made (s.node i) op, Labelled log t s.committed k p := by
  intro p hp
  obtain ⟨-, -, l, -, hcovers, hle, hlabel, hfile⟩ := Cluster.mem_made hop hp
  refine ⟨l, (s.node i).kv, hlabel, ?_, (h.node i).memory.rewind hk hcovers hle⟩
  rw [hfile]
  rfl

/-- **One event** keeps the cluster consistent. -/
theorem step (h : Consistent log t k s) (hk : log.SwapFree k) {e : ClusterEvent}
    (he : e.Orderly s) (ht : ∀ i flt key now, e = .reap i flt key now → now ≤ t) :
    Consistent log t k (s.step log e) := by
  cases e with
  | commit len => exact h.commit len
  | call i c =>
      cases hop : s.op log i c with
      | none =>
          rw [Cluster.step, hop]
          exact h
      | some op =>
          rw [Cluster.step, hop]
          refine ⟨(h.withNode i (h.after hk hop he)).node, ?_⟩
          intro p hp
          rcases List.mem_append.mp hp with hold | hnew
          · exact h.snapshot p hold
          · exact h.made hk hop p hnew
  | reap i flt key now =>
      refine h.withNode i ?_
      rcases Cluster.reap_cases (s.node i) flt key with hsame | hgone
      · rw [hsame]
        exact h.node i
      · rw [hgone]
        refine (h.node i).reap ?_
        intro v hv
        exact (he v hv).mono (ht i flt key now rfl)
  | drop i flt =>
      refine h.withNode i ?_
      rw [Cluster.drop_env]
      refine OnTrack.reopened ?_ hk
      exact (h.node i).moves hk h.snapshot (List.take_append_drop 0 _).symm
        (persistLastApplied_moves flt (s.node i) _ s.snapshots)
  | crash i c j =>
      cases hop : s.op log i c with
      | none =>
          rw [Cluster.step, hop]
          exact h
      | some op =>
          rw [Cluster.step, hop]
          refine h.withNode i ?_
          show OnTrack log t s.committed k
            (reopened ((op.call (s.node i)).crashAt LmdbStateMachine.exec (s.node i) j).env)
          -- the directory of before the call, or of after it
          rcases op.crash_env (s.node i) j with hold | hnew
          · rw [hold]
            exact (h.node i).reopened hk
          · rw [hnew]
            exact (h.after hk hop he).reopened hk

end Consistent

/-- No removal is at a later reading of the clock than `t`. -/
def ReapsUpTo (t : UInt64) (es : List ClusterEvent) : Prop :=
  ∀ i flt key now, ClusterEvent.reap i flt key now ∈ es → now ≤ t

theorem Consistent.run {log : RaftLog} {t : UInt64} {k : Bytes} {s : Cluster}
    (h : Consistent log t k s) (hk : log.SwapFree k) {es : List ClusterEvent}
    (hes : Along (Cluster.step log) (fun s e => e.Orderly s) s es) (ht : ReapsUpTo t es) :
    Consistent log t k (runFrom (Cluster.step log) s es) := by
  have hread : Along (Cluster.step log)
      (fun _ e => ∀ i flt key now, e = .reap i flt key now → now ≤ t) s es := by
    refine Along.of_forall ?_
    rintro e he - i flt key now rfl
    exact ht i flt key now he
  refine runFrom_invariant ?_ h (hes.and hread)
  exact fun s e hs he => hs.step hk he.1 he.2

/-- **Every node converges** on a key that the log never swaps. Whatever the nodes went
through (chunks cut anywhere, failed calls, restarts with a marker that lags, snapshots
labelled with an older position, reads that remove what has expired), a node that is then
given the entries it asks for holds what the log says, unless that has expired; so all of
them have the same logical value, from the last reading of the clock on. -/
theorem cluster_converges (log : RaftLog) {k : Bytes} (hk : log.SwapFree k)
    {es : List ClusterEvent}
    (hes : Along (Cluster.step log) (fun s e => e.Orderly s) Cluster.start es) {t : UInt64}
    (ht : ReapsUpTo t es) :
    let s := runFrom (Cluster.step log) Cluster.start es
    ∀ i cuts sm rs, cutEntries cuts = s.due log i → applyChunks (s.node i) cuts = .ok (sm, rs) →
      (sm.kv.get k = log.contents s.committed k ∨
        sm.kv.get k = none ∧ ∃ v, log.contents s.committed k = some v ∧ ExpiredAt v t) ∧
      logicalValue (sm.kv.get k) t = logicalValue (log.contents s.committed k) t := by
  intro s i cuts sm rs hcuts happly
  have hs : Consistent log t k s := (Consistent.start log t k).run hk hes ht
  have hfinal : Faded t (log.contents s.committed k) (sm.kv.get k) :=
    (hs.node i).caughtUp hk hcuts happly
  exact ⟨hfinal, hfinal.logicalValue_eq⟩

/-- A copy that holds both inserts, under the label of the first: the node that installs it,
and is stopped in its next call, is given the second insert again. -/
theorem cluster_converges_inserts :
    let es : List ClusterEvent :=
      [.commit 2, .call 0 (.apply Faults.none 2), .call 0 (.generate none Faults.none ⟨1, 1⟩),
        .call 1 (.install .returned Faults.none Faults.none 0), .crash 1 (.apply Faults.none 1) 5,
        .reap 0 Faults.none [9] 3]
    let s := runFrom (Cluster.step insertLog) Cluster.start es
    (s.due insertLog 1).map ApplyEntry.index = [2] ∧
      ∃ sm rs, applyChunks (s.node 1) [(Faults.none, s.due insertLog 1)] = .ok (sm, rs) ∧
        logicalValue (sm.kv.get [7]) 3 = logicalValue (some [2]) 3 := by
  intro es s
  have hdue : s.due insertLog 1 = [⟨2, 1, .insert [7] [2] none⟩] := by decide
  refine ⟨by rw [hdue]; rfl, ?_⟩
  obtain ⟨sm, rs, happly⟩ := applyChunks_noFaults (s.node 1) [s.due insertLog 1] (by
    rw [hdue]
    decide)
  refine ⟨sm, rs, happly, ?_⟩
  have hvalue := @cluster_converges insertLog [7] (by decide) es
    ⟨trivial, trivial, trivial, trivial, trivial, by
      show ∀ v ∈ Database.get _ [9], ExpiredAt v 3
      decide, trivial⟩ 3 (by
      intro i flt key now hmem
      simp only [es, List.mem_cons, reduceCtorEq, ClusterEvent.reap.injEq, List.not_mem_nil,
        false_or, or_false] at hmem
      exact UInt64.le_of_eq hmem.2.2.2) 1 _ sm rs
    (by rw [cutEntries_noFaults, List.flatten_singleton]) happly
  rw [hvalue.2]
  decide

end DLmdb
