import Mathlib.Data.Fintype.EquivFin
import DLmdb.Cluster.Convergence
import DLmdb.Db.Agreement

/-!
# Every node lists the same

A scan is more than its keys: it has an order, a limit, for a prefix a key to go on after,
and a revision that says which position of the log it reflects. On nodes that have been
given what they are due all of it agrees, though their stores need not: one of them may
have removed what has expired, another may still keep it.
-/

namespace DLmdb

open Framework Lmdb

/-! ## The scans with all their arguments -/

inductive ScanRequest where
  | all (limit : Option ℕ)
  | startingWith (pfx : Bytes) (after : Option Bytes) (limit : Option ℕ)
  | range (start stop : Bytes) (limit : Option ℕ)
  | rangeRev (start stop : Bytes) (limit : Option ℕ)

namespace ScanRequest

def run (flt : Faults) (sm : LmdbStateMachine) (now : UInt64) :
    ScanRequest → Except Error ScanResult
  | .all limit => Db.scanAll flt sm limit now
  | .startingWith pfx after limit => Db.scanPrefix flt sm pfx after limit now
  | .range start stop limit => Db.scanRange flt sm start stop limit now
  | .rangeRev start stop limit => Db.scanRangeRev flt sm start stop limit now

/-- The key a scan starts from. -/
def first : ScanRequest → Option Bytes
  | .all _ => none
  | .startingWith pfx _ _ => some pfx
  | .range start _ _ => some start
  | .rangeRev start _ _ => some start

def lower : ScanRequest → Bound
  | .all _ => .unbounded
  | .startingWith pfx after _ => prefixStart pfx after
  | .range start _ _ => .included start
  | .rangeRev start _ _ => .included start

def upper : ScanRequest → Bound
  | .all _ => .unbounded
  | .startingWith pfx _ _ => endBound (nextPrefix pfx)
  | .range _ stop _ => .excluded stop
  | .rangeRev _ stop _ => .excluded stop

/-- The keys it walks over: none, when it is to start from the empty key. -/
def Covers (q : ScanRequest) (k : Bytes) : Prop :=
  q.first ≠ some [] ∧ inRange q.lower q.upper k = true

/-- What it returns of the live entries it walks over, which are in key order. -/
def cut : ScanRequest → List (Bytes × Bytes) → List (Bytes × Bytes)
  | .all limit, l => limited limit l
  | .startingWith _ _ limit, l => limited limit l
  | .range _ _ limit, l => limited limit l
  -- a limit of 0 is taken for 1
  | .rangeRev _ _ limit, l => limited (limit.map (max · 1)) l.reverse

theorem cut_nil (q : ScanRequest) : q.cut [] = [] := by
  cases q with
  | all limit => exact limited_nil limit
  | startingWith pfx after limit => exact limited_nil limit
  | range start stop limit => exact limited_nil limit
  | rangeRev start stop limit => exact limited_nil _

/-- The live entries of the contents under the keys that the scan covers. -/
structure IsListing (q : ScanRequest) (σ : Contents Bytes Bytes) (now : UInt64)
    (l : List (Bytes × Bytes)) : Prop where
  increasing : Increasing l
  mem : ∀ k payload, (k, payload) ∈ l ↔
    q.Covers k ∧ logicalValue (σ k) now = .ok (some payload)

namespace IsListing

variable {q : ScanRequest} {σ τ : Contents Bytes Bytes} {now : UInt64}
  {l l' : List (Bytes × Bytes)}

/-- **There is one listing**, whatever else the contents hold. -/
theorem unique (h : q.IsListing σ now l) (h' : q.IsListing σ now l') : l = l' := by
  refine Increasing.ext h.increasing h'.increasing ?_
  rintro ⟨k, payload⟩
  rw [h.mem, h'.mem]

theorem congr (h : q.IsListing σ now l)
    (hvalue : ∀ k, q.Covers k → logicalValue (σ k) now = logicalValue (τ k) now) :
    q.IsListing τ now l where
  increasing := h.increasing
  mem := by
    intro k payload
    rw [h.mem]
    constructor
    · rintro ⟨hcovers, hlive⟩
      exact ⟨hcovers, (hvalue k hcovers).symm.trans hlive⟩
    · rintro ⟨hcovers, hlive⟩
      exact ⟨hcovers, (hvalue k hcovers).trans hlive⟩

/-- What the walk over the range accepts. -/
theorem walk (hfirst : q.first ≠ some []) (db : Database) (now : UInt64) :
    q.IsListing db.get now (scanItems (some (decodeForScan now)) (db.range q.lower q.upper)) where
  increasing := scanItems_sorted _ (db.range_sorted _ _)
  mem := by
    intro k payload
    rw [mem_scanItems_some]
    simp only [Database.mem_range, decodeForScan_eq_some]
    constructor
    · rintro ⟨v, ⟨hget, hrange⟩, hlive⟩
      rw [hget]
      exact ⟨⟨hfirst, hrange⟩, hlive⟩
    · rintro ⟨⟨-, hrange⟩, hlive⟩
      cases hget : db.get k with
      | none =>
          rw [hget] at hlive
          cases hlive
      | some v =>
          rw [hget] at hlive
          exact ⟨v, ⟨rfl, hrange⟩, hlive⟩

theorem nothing (hfirst : q.first = some []) (σ : Contents Bytes Bytes) (now : UInt64) :
    q.IsListing σ now [] where
  increasing := List.Pairwise.nil
  mem := by
    intro k payload
    constructor
    · exact fun hmem => absurd hmem List.not_mem_nil
    · rintro ⟨⟨hne, -⟩, -⟩
      exact absurd hfirst hne

end IsListing

/-- From the empty key a scan returns nothing, and the revision. -/
theorem run_guarded {q : ScanRequest} (hfirst : q.first = some []) {flt : Faults}
    {sm : LmdbStateMachine} {now : UInt64} {r : ScanResult} (h : q.run flt sm now = .ok r) :
    r = ⟨[], sm.lastAppliedIndex⟩ := by
  cases q with
  | all limit => cases hfirst
  | startingWith pfx after limit =>
      obtain rfl := Option.some.inj hfirst
      cases h
      rfl
  | range start stop limit =>
      obtain rfl := Option.some.inj hfirst
      cases h
      rfl
  | rangeRev start stop limit =>
      obtain rfl := Option.some.inj hfirst
      cases h
      rfl

/-- **Each scan** is its listing, cut. -/
theorem run_ok {q : ScanRequest} {flt : Faults} {sm : LmdbStateMachine} {now : UInt64}
    {r : ScanResult} (h : q.run flt sm now = .ok r) :
    ∃ l, q.IsListing sm.kv.get now l ∧ r = ⟨q.cut l, sm.lastAppliedIndex⟩ := by
  by_cases hfirst : q.first = some []
  · refine ⟨[], IsListing.nothing hfirst _ now, ?_⟩
    rw [run_guarded hfirst h, cut_nil]
  · refine ⟨_, IsListing.walk hfirst sm.kv now, ?_⟩
    have hne : ∀ {start : Bytes}, q.first = some start → start ≠ [] := by
      rintro start hstart rfl
      exact hfirst hstart
    cases q with
    | all limit =>
        rw [run, Db.scanAll, mapError_eq_ok] at h
        exact scanRangeCore_ok h
    | startingWith pfx after limit =>
        rw [run, Db.scanPrefix, mapError_eq_ok] at h
        exact scanPrefixBounded_ok (hne rfl) h
    | range start stop limit =>
        rw [run, Db.scanRange, mapError_eq_ok, LmdbStateMachine.scanRange, if_neg (hne rfl)] at h
        exact scanRangeCore_ok h
    | rangeRev start stop limit =>
        rw [run, Db.scanRangeRev, mapError_eq_ok] at h
        exact scanRangeRev_ok (hne rfl) h

end ScanRequest

/-! ## The position of a node that is up to date -/

namespace RaftLog

variable {log : RaftLog} {c : ℕ} {r : UInt64}

/-- The index of the last of the first `c` entries, 0 without one. -/
def lastCommitted (log : RaftLog) (c : ℕ) : UInt64 :=
  (lastLogId ⟨0, 0⟩ (log.entries.take c)).index

/-- A position that nothing follows. -/
theorem eq_lastCommitted (hr : log.Covers c r) (hagain : log.again c r = []) :
    r = log.lastCommitted c := by
  have hsorted := log.again_sorted c 0
  have hall : ∀ e ∈ log.entries.take c, e.index ≤ r := by
    intro e he
    refine UInt64.not_lt.mp ?_
    intro hlt
    have hmem : e ∈ log.again c r := List.mem_filter.mpr ⟨he, decide_eq_true hlt⟩
    rw [hagain] at hmem
    cases hmem
  rw [log.again_zero] at hsorted
  rcases List.eq_nil_or_concat (log.entries.take c) with hnil | ⟨es, e, hlast⟩
  · rw [lastCommitted, hnil]
    rcases hr with rfl | ⟨e, he, -⟩
    · rfl
    · rw [hnil] at he
      cases he
  · have hmem : e ∈ log.entries.take c := by
      rw [hlast]
      simp
    have hindex : log.lastCommitted c = e.index := by
      rw [lastCommitted, hlast]
      simp [lastLogId, ApplyEntry.logId]
    rw [hindex]
    refine UInt64.le_antisymm ?_ (hall e hmem)
    rcases hr with rfl | ⟨e', he', rfl⟩
    · exact UInt64.zero_le
    · rw [hlast, List.concat_eq_append] at he' hsorted
      rcases List.mem_append.mp he' with hbefore | hsame
      · exact UInt64.le_of_lt
          ((List.pairwise_append.mp hsorted).2.2 e' hbefore e List.mem_cons_self)
      · rw [List.mem_singleton.mp hsame]
        exact UInt64.le_refl _

/-- Some key the log does not even write. -/
theorem exists_swapFree (log : RaftLog) : ∃ k, log.SwapFree k := by
  obtain ⟨k, hk⟩ :=
    Infinite.exists_notMem_finset ((logWrites log.entries).map KeyedWrite.key).toFinset
  refine ⟨k, ?_⟩
  intro w hw
  obtain ⟨hmem, hkey⟩ := List.mem_filter.mp hw
  have hwritten : k ∈ (logWrites log.entries).map KeyedWrite.key :=
    List.mem_map.mpr ⟨w, hmem, of_decide_eq_true hkey⟩
  exact absurd (List.mem_toFinset.mpr hwritten) hk

end RaftLog

/-! ## Scans of the cluster -/

/-- Some node of the cluster, given all that it is due. -/
def Cluster.UpToDate (log : RaftLog) (s : Cluster) (sm : LmdbStateMachine) : Prop :=
  ∃ i cuts rs, cutEntries cuts = s.due log i ∧ applyChunks (s.node i) cuts = .ok (sm, rs)

section

variable {log : RaftLog} {t : UInt64} {k : Bytes} {s : Cluster} {sm : LmdbStateMachine}

theorem Consistent.value_upToDate (h : Consistent log t k s) (hk : log.SwapFree k)
    (hsm : s.UpToDate log sm) {now : UInt64} (hnow : t ≤ now) :
    logicalValue (sm.kv.get k) now = logicalValue (log.contents s.committed k) now := by
  obtain ⟨i, cuts, rs, hcuts, happly⟩ := hsm
  have hfade : Faded t (log.contents s.committed k) (sm.kv.get k) :=
    (h.node i).caughtUp hk hcuts happly
  exact (hfade.mono hnow).logicalValue_eq

/-- Positions depend on no key: any key tells. -/
theorem Consistent.position_upToDate (h : Consistent log t k s) (hsm : s.UpToDate log sm) :
    sm.lastAppliedIndex = log.lastCommitted s.committed := by
  obtain ⟨i, cuts, rs, hcuts, happly⟩ := hsm
  have hall : log.again s.committed (s.node i).lastApplied.index = cutEntries cuts ++ [] := by
    rw [List.append_nil, hcuts]
    rfl
  have hindex : sm.lastAppliedIndex =
      (lastLogId (s.node i).lastApplied (cutEntries cuts)).index :=
    congrArg LogId.index (applyChunks_applied happly).lastApplied
  rw [hindex]
  refine RaftLog.eq_lastCommitted ?_ (RaftLog.again_after hall)
  exact RaftLog.Covers.after (h.node i).memory.covers hall

end

/-- **Every node lists the same.** Whatever the nodes of a cluster went through, on one that
is then given the entries it asks for a scan of keys that the log never swaps, at any time
from the last reading of the clock on, returns what the whole log makes live under them, in
order and up to the limit, with the index of the last committed entry as its revision. So
any two such nodes return the same. -/
theorem scans_converge (log : RaftLog) {q : ScanRequest} (hq : ∀ k, q.Covers k → log.SwapFree k)
    {es : List ClusterEvent}
    (hes : Along (Cluster.step log) (fun s e => e.Orderly s) Cluster.start es) {t : UInt64}
    (ht : ReapsUpTo t es) :
    let s := runFrom (Cluster.step log) Cluster.start es
    (∀ sm flt now r, s.UpToDate log sm → t ≤ now → q.run flt sm now = .ok r →
      ∃ l, q.IsListing (log.contents s.committed) now l ∧
        r = ⟨q.cut l, log.lastCommitted s.committed⟩) ∧
    ∀ sm sm' flt flt' now r r', s.UpToDate log sm → s.UpToDate log sm' → t ≤ now →
      q.run flt sm now = .ok r → q.run flt' sm' now = .ok r' → r' = r := by
  intro s
  have hlists : ∀ sm flt now r, s.UpToDate log sm → t ≤ now → q.run flt sm now = .ok r →
      ∃ l, q.IsListing (log.contents s.committed) now l ∧
        r = ⟨q.cut l, log.lastCommitted s.committed⟩ := by
    intro sm flt now r hsm hnow hr
    obtain ⟨l, hl, rfl⟩ := ScanRequest.run_ok hr
    refine ⟨l, hl.congr ?_, ?_⟩
    · intro k hk
      have hs : Consistent log t k s := (Consistent.start log t k).run (hq k hk) hes ht
      exact hs.value_upToDate (hq k hk) hsm hnow
    · obtain ⟨k, hk⟩ := log.exists_swapFree
      have hs : Consistent log t k s := (Consistent.start log t k).run hk hes ht
      rw [hs.position_upToDate hsm]
  refine ⟨hlists, ?_⟩
  intro sm sm' flt flt' now r r' hsm hsm' hnow hr hr'
  obtain ⟨l, hl, rfl⟩ := hlists sm flt now r hsm hnow hr
  obtain ⟨l', hl', rfl⟩ := hlists sm' flt' now r' hsm' hnow hr'
  rw [hl.unique hl']

/-- Two values, one of which expires at 9. -/
def expiringEntries : RaftLog where
  entries := [⟨1, 1, .insert [7, 1] (Value.encodeRaw [5]) none⟩,
    ⟨2, 1, .insert [7, 2] (Value.encodeTtl [6] (some 9)) none⟩]
  increasing := by decide
  positive := by decide

theorem expiringEntries_swapFree (k : Bytes) : expiringEntries.SwapFree k := by
  have hassigns : ∀ w ∈ logWrites expiringEntries.entries, w.isAssign = true := by decide
  intro w hw
  exact hassigns w (List.mem_filter.mp hw).1

/-- Node 0 removes the value when it has expired. -/
def expiredRun : List ClusterEvent :=
  [.commit 2, .call 0 (.apply Faults.none 2), .reap 0 Faults.none [7, 2] 9]

theorem expiredRun_orderly :
    Along (Cluster.step expiringEntries) (fun s e => e.Orderly s) Cluster.start expiredRun := by
  refine ⟨trivial, trivial, ?_, trivial⟩
  show ∀ v ∈ Database.get _ [7, 2], ExpiredAt v 9
  decide

theorem expiredRun_reapsUpTo : ReapsUpTo 9 expiredRun := by
  intro i flt key now hmem
  simp only [expiredRun, List.mem_cons, reduceCtorEq, ClusterEvent.reap.injEq, List.not_mem_nil,
    false_or, or_false] at hmem
  rw [hmem.2.2.2]
  exact UInt64.le_refl 9

/-- Node 0 as it is, and node 1 when it is given the two values, which it keeps. -/
theorem expiredRun_upToDate :
    let s := runFrom (Cluster.step expiringEntries) Cluster.start expiredRun
    s.UpToDate expiringEntries (s.node 0) ∧
      ∃ sm, s.UpToDate expiringEntries sm ∧ (s.node 0).kv.get [7, 2] ≠ sm.kv.get [7, 2] := by
  intro s
  have hdue : s.due expiringEntries 1 = expiringEntries.entries := by decide
  obtain ⟨sm, rs, happly⟩ := applyChunks_noFaults (s.node 1) [s.due expiringEntries 1] (by
    rw [hdue]
    decide)
  have hall : cutEntries ([s.due expiringEntries 1].map (Faults.none, ·)) =
      s.due expiringEntries 1 := by
    rw [cutEntries_noFaults, List.flatten_singleton]
  have hkept : sm.kv.get [7, 2] = some (Value.encodeTtl [6] (some 9)) := by
    rw [(applyChunks_applied happly).kv, hall, hdue]
    rfl
  have hgone : (s.node 0).kv.get [7, 2] = none := by decide
  refine ⟨⟨0, [], [], (by decide : cutEntries [] = s.due expiringEntries 0), rfl⟩, sm,
    ⟨1, _, rs, hall, happly⟩, ?_⟩
  rw [hgone, hkept]
  exact nofun

/-- One node has removed the value that expired, the other still has it: both list the other
value only. -/
theorem scans_converge_expired :
    let s := runFrom (Cluster.step expiringEntries) Cluster.start expiredRun
    let q : ScanRequest := .rangeRev [7] [9] (some 5)
    ∃ sm r, (s.node 0).kv.get [7, 2] ≠ sm.kv.get [7, 2] ∧
      q.run Faults.none (s.node 0) 9 = .ok r ∧ q.run Faults.none sm 9 = .ok r := by
  intro s q
  obtain ⟨hold, sm, hnew, hne⟩ := expiredRun_upToDate
  have hruns : ∀ sm : LmdbStateMachine, ∃ r, q.run Faults.none sm 9 = .ok r := by
    intro sm
    obtain ⟨r, hr⟩ := scanRangeRev_noFaults sm (by decide : ([7] : Bytes) ≠ []) [9] (some 5)
      (some (decodeForScan 9))
    exact ⟨r, mapError_eq_ok.mpr hr⟩
  obtain ⟨r, hr⟩ := hruns (s.node 0)
  obtain ⟨r', hr'⟩ := hruns sm
  have hsame : r' = r := (scans_converge expiringEntries
    (fun k _ => expiringEntries_swapFree k) expiredRun_orderly expiredRun_reapsUpTo).2
    (s.node 0) sm Faults.none Faults.none 9 r r' hold hnew (UInt64.le_refl 9) hr hr'
  refine ⟨sm, r, hne, hr, ?_⟩
  rw [← hsame]
  exact hr'

/-! ## Pages from different nodes -/

/-- What a client may rely on that pages through a prefix of the contents `σ`. -/
structure PagesOf (σ : Contents Bytes Bytes) (pfx : Bytes) (rs : List PageRead)
    (p : Pages Bytes Bytes) : Prop where
  increasing : Increasing p.entries
  inside : ∀ e ∈ p.entries, pfx <+: e.1
  complete : p.ended = true → ∀ k, pfx <+: k →
    (∀ r ∈ rs.take p.read.length, ∃ payload, logicalValue (σ k) r.now = .ok (some payload)) →
    (p.entries.map Prod.fst).count k = 1
  live : List.Forall₂ (fun page r => ∀ e ∈ page, logicalValue (σ e.1) r.now = .ok (some e.2))
    p.read (rs.take p.read.length)

/-- Where every page is read from a store that means what `σ` means. -/
theorem PagesFaithful.pagesOf {σ : Contents Bytes Bytes} {pfx : Bytes} {rs : List PageRead}
    {p : Pages Bytes Bytes} (h : PagesFaithful pfx rs p)
    (hσ : ∀ r ∈ rs, ∀ k, pfx <+: k →
      logicalValue (r.sm.kv.get k) r.now = logicalValue (σ k) r.now) : PagesOf σ pfx rs p where
  increasing := h.increasing
  inside := h.inside
  complete := by
    intro hended k hk hlive
    refine h.complete hended k hk ?_
    intro r hr
    obtain ⟨payload, hpayload⟩ := hlive r hr
    exact ⟨payload, (hσ r (List.mem_of_mem_take hr) k hk).trans hpayload⟩
  live := by
    obtain ⟨hlength, hzip⟩ := List.forall₂_iff_zip.mp h.live
    refine List.forall₂_iff_zip.mpr ⟨hlength, ?_⟩
    intro page r hmem e he
    obtain ⟨hpage, hr⟩ := List.of_mem_zip hmem
    have hkey : pfx <+: e.1 := h.inside e (List.mem_flatten.mpr ⟨page, hpage, he⟩)
    exact (hσ r (List.mem_of_mem_take hr) e.1 hkey).symm.trans (hzip hmem e he)

/-- **A client may page through any nodes.** If each page of a prefix whose keys the log never
swaps is read at some node that is up to date, another for each page and at any time, then
the pages are pages of the log: increasing, every entry what the log makes of its key at
that time, and once the loop has ended each key that was live at all those times is there
once. Read at one time, they come to what one scan at one node returns. -/
theorem pages_converge (log : RaftLog) {pfx : Bytes} (hp : pfx ≠ []) {n : ℕ} (hn : 0 < n)
    (hq : ∀ k, pfx <+: k → log.SwapFree k) {es : List ClusterEvent}
    (hes : Along (Cluster.step log) (fun s e => e.Orderly s) Cluster.start es) {t : UInt64}
    (ht : ReapsUpTo t es) :
    let s := runFrom (Cluster.step log) Cluster.start es
    ∀ rs : List PageRead, (∀ r ∈ rs, s.UpToDate log r.sm ∧ t ≤ r.now) →
      (∀ p, Db.scanPages pfx n none rs = .ok p → PagesOf (log.contents s.committed) pfx rs p) ∧
      ∀ sm flt now whole, s.UpToDate log sm → t ≤ now →
        Db.scanPrefix flt sm pfx none none now = .ok whole →
        (∀ r ∈ rs, r.flt = Faults.none ∧ r.now = now) → whole.entries.length < n * rs.length →
        ∃ p, Db.scanPages pfx n none rs = .ok p ∧ p.ended = true ∧ p.entries = whole.entries := by
  intro s rs hrs
  have hvalue : ∀ sm now k, s.UpToDate log sm → t ≤ now → pfx <+: k →
      logicalValue (sm.kv.get k) now = logicalValue (log.contents s.committed k) now := by
    intro sm now k hsm hnow hk
    have hs : Consistent log t k s := (Consistent.start log t k).run (hq k hk) hes ht
    exact hs.value_upToDate (hq k hk) hsm hnow
  have hnone : ∀ a ∈ (none : Option Bytes), pfx <+: a := nofun
  constructor
  · intro p hpages
    rw [scanPages_ok hp hnone hpages]
    refine (paginate_faithful hn rs).pagesOf ?_
    intro r hr k hk
    exact hvalue r.sm r.now k (hrs r hr).1 (hrs r hr).2 hk
  · intro sm flt now whole hsm hnow hwhole hsame hlen
    obtain ⟨p, hpages⟩ := scanPages_noFaults hp n (fun r hr => (hsame r hr).1) hnone
    have hentries : whole.entries =
        (PageRead.view pfx ⟨flt, sm, now⟩).filter (fun e => beyond none e.1) :=
      scanPrefix_ok (r := ⟨flt, sm, now⟩) hp hnone hwhole
    -- all nodes show the same view
    have hviews : ∀ view ∈ rs.map (PageRead.view pfx), view = PageRead.view pfx ⟨flt, sm, now⟩ := by
      intro view hview
      obtain ⟨r, hr, rfl⟩ := List.mem_map.mp hview
      refine Increasing.ext (PageRead.view_increasing pfx r) (PageRead.view_increasing pfx _) ?_
      rintro ⟨k, payload⟩
      rw [PageRead.mem_view, PageRead.mem_view]
      refine and_congr_right ?_
      intro hk
      rw [PageRead.Has, PageRead.Has, hvalue r.sm r.now k (hrs r hr).1 (hrs r hr).2 hk,
        hvalue sm now k hsm hnow hk, (hsame r hr).2]
    rw [hentries] at hlen ⊢
    refine ⟨p, hpages, ?_⟩
    rw [scanPages_ok hp hnone hpages]
    refine paginate_const hn (PageRead.view_increasing pfx _) hviews ?_
    rw [List.length_map]
    exact hlen

/-- Two pages of one entry, each from another node, come to the scan of either. -/
theorem pages_converge_expired :
    let s := runFrom (Cluster.step expiringEntries) Cluster.start expiredRun
    ∃ sm, (s.node 0).kv.get [7, 2] ≠ sm.kv.get [7, 2] ∧
      ∃ p, Db.scanPages [7] 1 none [⟨Faults.none, s.node 0, 9⟩, ⟨Faults.none, sm, 9⟩] = .ok p ∧
        p.ended = true ∧ p.entries = [([7, 1], [5])] := by
  intro s
  obtain ⟨hold, sm, hnew, hne⟩ := expiredRun_upToDate
  have hwhole : Db.scanPrefix Faults.none (s.node 0) [7] none none 9 =
      .ok ⟨[([7, 1], [5])], 2⟩ := by rfl
  refine ⟨sm, hne, ?_⟩
  refine ((pages_converge expiringEntries (by decide) (by decide)
    (fun k _ => expiringEntries_swapFree k) expiredRun_orderly expiredRun_reapsUpTo)
    [⟨Faults.none, s.node 0, 9⟩, ⟨Faults.none, sm, 9⟩] ?_).2 (s.node 0) Faults.none 9 _ hold
    (UInt64.le_refl 9) hwhole ?_ (Nat.lt_succ_self 1)
  · intro r hr
    rcases List.mem_cons.mp hr with rfl | hr
    · exact ⟨hold, UInt64.le_refl 9⟩
    · rw [List.mem_singleton.mp hr]
      exact ⟨hnew, UInt64.le_refl 9⟩
  · intro r hr
    rcases List.mem_cons.mp hr with rfl | hr
    · exact ⟨rfl, rfl⟩
    · rw [List.mem_singleton.mp hr]
      exact ⟨rfl, rfl⟩

end DLmdb
