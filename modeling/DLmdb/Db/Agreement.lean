import DLmdb.Db.Scans

/-!
# Point reads and scans

Two decoders decide which values are live: one behind `get`, which returns errors and
removes what has expired, and one behind the scans, which passes over both. Here the
scans are one family, each a walk over a range of keys, and a key is met by a scan
exactly when a point read returns it.
-/

namespace DLmdb

open Framework Lmdb

/-! ## The scans as one family -/

/-- The scans of `DLmdb`, without a limit. -/
inductive Scan where
  | all
  | range (start stop : Bytes)
  | rangeRev (start stop : Bytes)
  | startingWith (pfx : Bytes)

namespace Scan

def run (flt : Faults) (sm : LmdbStateMachine) (now : UInt64) : Scan → Except Error ScanResult
  | .all => Db.scanAll flt sm none now
  | .range start stop => Db.scanRange flt sm start stop none now
  | .rangeRev start stop => Db.scanRangeRev flt sm start stop none now
  | .startingWith pfx => Db.scanPrefix flt sm pfx none none now

/-- The key a scan starts from is one LMDB can be asked for. -/
def Startable : Scan → Prop
  | .all => True
  | .range start _ => start ≠ []
  | .rangeRev start _ => start ≠ []
  | .startingWith pfx => pfx ≠ []

/-- The keys a scan is about. -/
def Covers : Scan → Bytes → Prop
  | .all, _ => True
  | .range start stop, k => (compare start k).isLE ∧ compare k stop = .lt
  | .rangeRev start stop, k => (compare start k).isLE ∧ compare k stop = .lt
  | .startingWith pfx, k => pfx <+: k

def lower : Scan → Bound
  | .all => .unbounded
  | .range start _ => .included start
  | .rangeRev start _ => .included start
  | .startingWith pfx => .included pfx

def upper : Scan → Bound
  | .all => .unbounded
  | .range _ stop => .excluded stop
  | .rangeRev _ stop => .excluded stop
  | .startingWith pfx => endBound (nextPrefix pfx)

/-- The order in which a scan returns what it has met. -/
def ordered (scan : Scan) (l : List (Bytes × Bytes)) : List (Bytes × Bytes) :=
  match scan with
  | .rangeRev _ _ => l.reverse
  | _ => l

theorem mem_ordered {scan : Scan} {l : List (Bytes × Bytes)} {e : Bytes × Bytes} :
    e ∈ scan.ordered l ↔ e ∈ l := by
  cases scan with
  | all => exact Iff.rfl
  | range start stop => exact Iff.rfl
  | rangeRev start stop => exact List.mem_reverse
  | startingWith pfx => exact Iff.rfl

theorem inRange_iff_covers {scan : Scan} {k : Bytes} :
    inRange scan.lower scan.upper k = true ↔ scan.Covers k := by
  cases scan with
  | all => exact iff_of_true rfl trivial
  | range start stop =>
      rw [inRange, Bool.and_eq_true]
      exact and_congr_right' beq_iff_eq
  | rangeRev start stop =>
      rw [inRange, Bool.and_eq_true]
      exact and_congr_right' beq_iff_eq
  | startingWith pfx =>
      have hrange : inRange (prefixStart pfx none) (endBound (nextPrefix pfx)) k = true ↔
          pfx <+: k := by
        rw [inRange_prefixStart, isPrefix_iff_nextPrefix]
        simp
      exact hrange

/-- The live entries a scan meets, in key order. -/
def met (scan : Scan) (db : Database) (now : UInt64) : List (Bytes × Bytes) :=
  scanItems (some (decodeForScan now)) (db.range scan.lower scan.upper)

theorem met_increasing (scan : Scan) (db : Database) (now : UInt64) :
    Increasing (scan.met db now) :=
  scanItems_sorted _ (db.range_sorted _ _)

/-- **What a scan meets** is what its keys mean at that time. -/
theorem mem_met {scan : Scan} {db : Database} {now : UInt64} {k payload : Bytes} :
    (k, payload) ∈ scan.met db now ↔
      scan.Covers k ∧ logicalValue (db.get k) now = .ok (some payload) := by
  rw [met, mem_scanItems_some]
  simp only [Database.mem_range, inRange_iff_covers, decodeForScan_eq_some]
  constructor
  · rintro ⟨v, ⟨hget, hcovers⟩, hv⟩
    rw [hget]
    exact ⟨hcovers, hv⟩
  · rintro ⟨hcovers, hlogical⟩
    cases hget : db.get k with
    | none =>
        rw [hget] at hlogical
        cases hlogical
    | some v =>
        rw [hget] at hlogical
        exact ⟨v, ⟨rfl, hcovers⟩, hlogical⟩

/-- A scan that returns has what it met, and the revision of the node. -/
theorem run_ok {scan : Scan} (hscan : scan.Startable) {flt : Faults} {sm : LmdbStateMachine}
    {now : UInt64} {r : ScanResult} (h : scan.run flt sm now = .ok r) :
    r = ⟨scan.ordered (scan.met sm.kv now), sm.lastAppliedIndex⟩ := by
  cases scan with
  | all =>
      rw [run, Db.scanAll, mapError_eq_ok] at h
      exact scanRangeCore_ok h
  | range start stop =>
      rw [run, Db.scanRange, mapError_eq_ok, LmdbStateMachine.scanRange, if_neg hscan] at h
      exact scanRangeCore_ok h
  | rangeRev start stop =>
      rw [run, Db.scanRangeRev, mapError_eq_ok] at h
      exact scanRangeRev_ok hscan h
  | startingWith pfx =>
      rw [run, Db.scanPrefix, mapError_eq_ok] at h
      exact scanPrefixBounded_ok hscan h

theorem run_noFaults {scan : Scan} (hscan : scan.Startable) (sm : LmdbStateMachine)
    (now : UInt64) : ∃ r, scan.run Faults.none sm now = .ok r := by
  cases scan with
  | all => exact ⟨_, mapError_eq_ok.mpr (scanAll_noFaults sm _)⟩
  | range start stop => exact ⟨_, mapError_eq_ok.mpr (scanRange_noFaults sm hscan stop _)⟩
  | rangeRev start stop =>
      obtain ⟨r, hr⟩ := scanRangeRev_noFaults sm hscan stop none (some (decodeForScan now))
      exact ⟨r, mapError_eq_ok.mpr hr⟩
  | startingWith pfx => exact scanPrefix_noFaults sm hscan (by simp) none now

end Scan

/-! ## Reads before a scan -/

/-- The state machine after point reads of the given keys, all at time `t`. -/
def readsAt (t : UInt64) (sm : LmdbStateMachine) (keys : List (Bytes × Faults)) :
    LmdbStateMachine :=
  keys.foldl (fun sm key => sm.after (Db.get key.2 sm key.1 t)) sm

/-- Reads take away what has expired, and nothing else. -/
theorem readsAt_reaped (t : UInt64) (sm : LmdbStateMachine) (keys : List (Bytes × Faults)) :
    Reaped (ExpiredAt · t) sm.kv.get (readsAt t sm keys).kv.get ∧
      (readsAt t sm keys).lastAppliedIndex = sm.lastAppliedIndex := by
  induction keys generalizing sm with
  | nil => exact ⟨Reaped.refl _, rfl⟩
  | cons key keys ih =>
      obtain ⟨hreaped, hindex⟩ := ih (sm.after (Db.get key.2 sm key.1 t))
      refine ⟨(fetchLocal_reaped key.2 sm key.1 t).trans hreaped, hindex.trans ?_⟩
      rcases fetchLocal_after key.2 sm key.1 t with hsame | ⟨-, hgone⟩
      · exact congrArg LmdbStateMachine.lastAppliedIndex hsame
      · have hindex' := congrArg LmdbStateMachine.lastAppliedIndex hgone
        exact hindex'

/-- What has expired means nothing later either, there or gone. -/
theorem logicalValue_reaped {σ τ : Contents Bytes Bytes} {t t' : UInt64}
    (h : Reaped (ExpiredAt · t) σ τ) (ht : t ≤ t') (k : Bytes) :
    logicalValue (τ k) t' = logicalValue (σ k) t' := by
  rcases h k with heq | ⟨hnone, v, hv, hexp⟩
  · rw [heq]
  · rw [hnone, hv, logicalValue_of_expired (hexp.mono ht)]
    rfl

theorem met_reaped (scan : Scan) {db db' : Database} {t t' : UInt64}
    (h : Reaped (ExpiredAt · t) db.get db'.get) (ht : t ≤ t') :
    scan.met db' t' = scan.met db t' := by
  refine Increasing.ext (scan.met_increasing db' t') (scan.met_increasing db t') ?_
  rintro ⟨k, payload⟩
  rw [Scan.mem_met, Scan.mem_met, logicalValue_reaped h ht]

/-! ## Agreement -/

/-- What a scan returned is what point reads return at the same time. -/
structure AgreesWithReads (sm : LmdbStateMachine) (t : UInt64) (scan : Scan)
    (entries : List (Bytes × Bytes)) : Prop where
  exact : ∀ k, k ≠ [] → ∀ payload, (k, payload) ∈ entries ↔
    scan.Covers k ∧ (Db.get Faults.none sm k t).result = .ok (some payload)
  returned : ∀ flt k out, (Db.get flt sm k t).result = .ok out → scan.Covers k →
    ∀ payload, (k, payload) ∈ entries ↔ out = some payload

/-- **Point reads and scans agree.** On any store and at any time, each scan returns the
keys it covers that a point read returns, with the same payloads; and reads at that
time, with all they remove, change no scan from then on. -/
theorem point_reads_and_scans_agree (sm : LmdbStateMachine) (scan : Scan)
    (hscan : scan.Startable) (t : UInt64) :
    (∃ r, scan.run Faults.none sm t = .ok r) ∧
      (∀ flt r, scan.run flt sm t = .ok r → AgreesWithReads sm t scan r.entries) ∧
      ∀ keys t', t ≤ t' →
        (∃ r, scan.run Faults.none (readsAt t sm keys) t' = .ok r) ∧
          ∀ flt flt' r r', scan.run flt sm t' = .ok r →
            scan.run flt' (readsAt t sm keys) t' = .ok r' → r' = r := by
  refine ⟨Scan.run_noFaults hscan sm t, ?_, ?_⟩
  · intro flt r hr
    have hmem : ∀ k payload, (k, payload) ∈ r.entries ↔
        scan.Covers k ∧ logicalValue (sm.kv.get k) t = .ok (some payload) := by
      intro k payload
      rw [Scan.run_ok hscan hr, Scan.mem_ordered, Scan.mem_met]
    constructor
    · intro k hk payload
      rw [hmem, Db.get, fetchLocal_noFaults sm hk]
    · intro flt' k out hout hcovers payload
      rw [hmem, fetchLocal_ok hout, and_iff_right hcovers, Except.ok.injEq]
  · intro keys t' ht
    refine ⟨Scan.run_noFaults hscan _ t', ?_⟩
    intro flt flt' r r' hr hr'
    obtain ⟨hreaped, hindex⟩ := readsAt_reaped t sm keys
    rw [Scan.run_ok hscan hr, Scan.run_ok hscan hr', met_reaped scan hreaped ht, hindex]

/-- A whole scan of the one-key store. -/
theorem point_reads_and_scans_agree_one_key :
    ∃ r, Scan.all.run Faults.none oneKeyStore 0 = .ok r ∧
      AgreesWithReads oneKeyStore 0 .all r.entries := by
  obtain ⟨⟨r, hr⟩, hagrees, -⟩ := point_reads_and_scans_agree oneKeyStore .all trivial 0
  exact ⟨r, hr, hagrees Faults.none r hr⟩

end DLmdb
