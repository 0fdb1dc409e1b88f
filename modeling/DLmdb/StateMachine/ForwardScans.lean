import DLmdb.StateMachine.Scans

/-!
# What a forward scan returns

`scan_range` and `scan_all` share one loop, which stops when it is full, stops at
`end`, and passes over what the filter rejects. What they are for is said here without
the loop: the accepted pairs of the range, in key order, as many as were asked for.
-/

namespace DLmdb

open Framework Lmdb

/-! ## The accepted pairs of a range -/

/-- The pairs the filter accepts, each with its payload. -/
def acceptedPairs (filter : Option ScanFilter) (items : List (Bytes × Bytes)) :
    List (Bytes × Bytes) :=
  items.filterMap (fun e => (scanCandidate filter e.2).map (fun payload => (e.1, payload)))

/-- The keys of `[start, end)`, in increasing order, with what they hold. -/
def keysInRange (db : Database) (start : Bound) (endKey : Option Bytes) : List (Bytes × Bytes) :=
  db.toList.filter (fun e => start.above e.1 && endKey.all (fun stop => compare e.1 stop == .lt))

theorem keysInRange_eq (db : Database) (start : Bound) (endKey : Option Bytes) :
    keysInRange db start endKey = db.range start (endBound endKey) := by
  cases endKey <;> rfl

theorem scanItems_eq_acceptedPairs (filter : Option ScanFilter) (items : List (Bytes × Bytes)) :
    scanItems filter items = acceptedPairs filter items := by
  induction items with
  | nil => rfl
  | cons e items ih =>
      obtain ⟨k, v⟩ := e
      rw [scanItems_cons, ih, scanItem_eq, acceptedPairs, acceptedPairs, List.filterMap_cons]
      cases scanCandidate filter v <;> rfl

/-- A pair is accepted when its key lies in the range and its value passes. -/
theorem mem_acceptedPairs {filter : Option ScanFilter} {db : Database} {start : Bound}
    {endKey : Option Bytes} {k payload : Bytes} :
    (k, payload) ∈ acceptedPairs filter (keysInRange db start endKey) ↔
      ∃ v, db.get k = some v ∧ start.above k = true ∧ (∀ stop ∈ endKey, compare k stop = .lt) ∧
        scanCandidate filter v = some payload := by
  have hend : (endKey.all fun stop => compare k stop == .lt) = true ↔
      ∀ stop ∈ endKey, compare k stop = .lt := by
    cases endKey <;> simp
  have hkeys : ∀ v, (k, v) ∈ keysInRange db start endKey ↔
      db.get k = some v ∧ start.above k = true ∧ ∀ stop ∈ endKey, compare k stop = .lt := by
    intro v
    rw [keysInRange, List.mem_filter, Database.mem_toList, Bool.and_eq_true, hend]
  rw [acceptedPairs, List.mem_filterMap]
  constructor
  · rintro ⟨⟨k', v⟩, hmem, hmap⟩
    obtain ⟨payload', hpass, hpair⟩ := Option.map_eq_some_iff.mp hmap
    cases hpair
    obtain ⟨hget, habove, hbelow⟩ := (hkeys v).mp hmem
    exact ⟨v, hget, habove, hbelow, hpass⟩
  · rintro ⟨v, hget, habove, hbelow, hpass⟩
    exact ⟨(k, v), (hkeys v).mpr ⟨hget, habove, hbelow⟩, by rw [hpass]; rfl⟩

/-! ## Exactness -/

/-- `entries` are the first accepted pairs of the range: as many as the limit allows and
no fewer, and all of them when they stay below the limit. -/
structure ForwardExact (db : Database) (start : Bound) (endKey : Option Bytes)
    (limit : Option ℕ) (filter : Option ScanFilter) (entries : List (Bytes × Bytes)) : Prop where
  first : entries = limited limit (acceptedPairs filter (keysInRange db start endKey))
  increasing : entries.Pairwise (fun a b => compare a.1 b.1 = .lt)
  all : limit = none → entries = acceptedPairs filter (keysInRange db start endKey)
  full : ∀ n ∈ limit, n ≤ (acceptedPairs filter (keysInRange db start endKey)).length →
    entries.length = n
  exhausted : ∀ n ∈ limit, entries.length < n →
    entries = acceptedPairs filter (keysInRange db start endKey)

/-- The first `n` of a list are `n`, or all of it. -/
theorem limited_exhausted {α : Type} {limit : Option ℕ} {n : ℕ} (hn : n ∈ limit) {l : List α}
    (hlt : (limited limit l).length < n) : limited limit l = l := by
  rw [Option.mem_def.mp hn] at hlt ⊢
  rw [limited, List.length_take] at hlt
  exact List.take_of_length_le (by omega)

theorem length_limited {α : Type} {limit : Option ℕ} {n : ℕ} (hn : n ∈ limit) {l : List α}
    (hle : n ≤ l.length) : (limited limit l).length = n := by
  rw [Option.mem_def.mp hn]
  exact List.length_take_of_le hle

/-- A forward scan that returns is exact. -/
theorem scanRangeCore_exact {flt : Faults} {sm : LmdbStateMachine} {start : Bound}
    {endKey : Option Bytes} {limit : Option ℕ} {filter : Option ScanFilter} {r : ScanResult}
    (h : sm.scanRangeCore flt start endKey limit filter = .ok r) :
    ForwardExact sm.kv start endKey limit filter r.entries := by
  have hentries : r.entries =
      limited limit (acceptedPairs filter (keysInRange sm.kv start endKey)) := by
    rw [scanRangeCore_ok h, scanItems_eq_acceptedPairs, keysInRange_eq]
  refine ⟨hentries, ?_, ?_, ?_, ?_⟩
  · rw [scanRangeCore_ok h]
    have hsorted := scanItems_sorted filter (sm.kv.range_sorted start (endBound endKey))
    exact hsorted.sublist (limited_sublist limit _)
  · rintro rfl
    exact hentries
  · intro n hn hle
    rw [hentries]
    exact length_limited hn hle
  · intro n hn hlt
    rw [hentries] at hlt ⊢
    exact limited_exhausted hn hlt

/-- **Forward scans are exact.** Whatever the store, the end, the limit and the filter,
`scan_all` and every `scan_range` from a key return the first accepted pairs of their
range: rejected entries use up nothing of the limit, and a short result is the whole. -/
theorem forward_scans_exact (sm : LmdbStateMachine) (limit : Option ℕ)
    (filter : Option ScanFilter) :
    ((∃ r, sm.scanAll Faults.none limit filter = .ok r) ∧
      ∀ flt r, sm.scanAll flt limit filter = .ok r →
        ForwardExact sm.kv .unbounded none limit filter r.entries) ∧
      ∀ start, start ≠ [] → ∀ endKey,
        (∃ r, sm.scanRange Faults.none start endKey limit filter = .ok r) ∧
          ∀ flt r, sm.scanRange flt start endKey limit filter = .ok r →
            ForwardExact sm.kv (.included start) endKey limit filter r.entries := by
  refine ⟨⟨?_, fun flt r hr => scanRangeCore_exact hr⟩, ?_⟩
  · exact scanRangeCore_noFaults sm (by decide : Bound.unbounded ≠ .included [])
      (by decide) none limit filter
  · intro start hs endKey
    have hstart : Bound.included start ≠ .included [] := fun h => hs (Bound.included.inj h)
    have hcore : ∀ flt, sm.scanRange flt start endKey limit filter =
        sm.scanRangeCore flt (.included start) endKey limit filter := fun flt => if_neg hs
    constructor
    · rw [hcore]
      exact scanRangeCore_noFaults sm hstart nofun endKey limit filter
    · intro flt r hr
      rw [hcore] at hr
      exact scanRangeCore_exact hr

/-- A scan of the one-key store from `a` on, with a filter that takes everything. -/
theorem forward_scans_exact_one_key :
    ∃ r, oneKeyStore.scanRange Faults.none [97] none (some 2) (some fun v => some v) = .ok r ∧
      ForwardExact oneKeyStore.kv (.included [97]) none (some 2) (some fun v => some v)
        r.entries := by
  have h := (forward_scans_exact oneKeyStore (some 2) (some fun v => some v)).2 [97] (by decide) none
  obtain ⟨⟨r, hr⟩, hexact⟩ := h
  exact ⟨r, hr, hexact Faults.none r hr⟩

end DLmdb
