import DLmdb.StateMachine.Basic

/-!
# Local access to `kv_db`

What a node does to its own store without Raft: a point read, the removal of one
key (`delete_local`), and the forward scans. Scans know nothing of envelopes; their
`filter` decides what counts.
-/

namespace DLmdb

open Framework Lmdb

/-! ## The code -/

namespace LmdbStateMachine

def get (flt : Faults) (sm : LmdbStateMachine) (keyBuffer : Bytes) :
    Except EngineError (Option Bytes) :=
  Except.mapError lmdbErr do
    let rtxn ← Txn.begin flt sm.env
    let (_, rawBytes) ← rtxn.get .kvDb keyBuffer
    return rawBytes

def deleteLocal (flt : Faults) (sm : LmdbStateMachine) (key : Bytes) : SmCall Unit := do
  let env ← smLmdb do
    let wtxn ← Txn.begin flt sm.env
    let wtxn ← wtxn.delete .kvDb key
    wtxn.commit
  Call.emit (.commit env)

end LmdbStateMachine

structure ScanResult where
  entries : List (Bytes × Bytes)
  revision : UInt64
deriving DecidableEq

/-- `decode_for_scan` and its like: `none` discards the candidate. -/
abbrev ScanFilter := Bytes → Option Bytes

/-- Is the result full? No limit is `usize::MAX`, which a `Vec` never reaches. -/
def atCap (limit : Option ℕ) (entries : List (Bytes × Bytes)) : Bool :=
  limit.any (fun cap => entries.length ≥ cap)

/-- What an entry contributes: itself without a filter, its payload with one. -/
def scanItem (filter : Option ScanFilter) (k v : Bytes) : List (Bytes × Bytes) :=
  match filter with
  | some f =>
      match f v with
      | some payload => [(k, payload)]
      | none => []
  | none => [(k, v)]

/-- The `for result in iter` loop of `scan_range_core`. -/
def scanLoop (endKey : Option Bytes) (limit : Option ℕ) (filter : Option ScanFilter) :
    List (Bytes × Bytes) → Txn SmDb → List (Bytes × Bytes) →
      Except HeedError (List (Bytes × Bytes))
  | [], _, entries => .ok entries
  | (k, v) :: items, rtxn, entries =>
      if atCap limit entries then .ok entries
      else do
        let rtxn ← rtxn.tick
        if endKey.any (fun e => compare k e ≠ .lt) then .ok entries
        else scanLoop endKey limit filter items rtxn (entries ++ scanItem filter k v)

namespace LmdbStateMachine

def emptyKeyGuard (sm : LmdbStateMachine) : ScanResult := ⟨[], sm.lastAppliedIndex⟩

def scanRangeCore (flt : Faults) (sm : LmdbStateMachine) (start : Bound)
    (endKey : Option Bytes) (limit : Option ℕ) (filter : Option ScanFilter) :
    Except EngineError ScanResult :=
  Except.mapError lmdbErr do
    let rtxn ← Txn.begin flt sm.env
    let revision := sm.lastAppliedIndex
    let (rtxn, iter) ← rtxn.range .kvDb start .unbounded
    let entries ← scanLoop endKey limit filter iter rtxn []
    return ⟨entries, revision⟩

def scanRange (flt : Faults) (sm : LmdbStateMachine) (start : Bytes) (endKey : Option Bytes)
    (limit : Option ℕ) (filter : Option ScanFilter) : Except EngineError ScanResult :=
  if start = [] then .ok sm.emptyKeyGuard
  else sm.scanRangeCore flt (.included start) endKey limit filter

def scanAll (flt : Faults) (sm : LmdbStateMachine) (limit : Option ℕ)
    (filter : Option ScanFilter) : Except EngineError ScanResult :=
  sm.scanRangeCore flt .unbounded none limit filter

end LmdbStateMachine

/-! ## Point reads and `delete_local` -/

theorem get_eq_ok {flt : Faults} {sm : LmdbStateMachine} {key : Bytes} {raw : Option Bytes}
    (h : sm.get flt key = .ok raw) : raw = sm.kv.get key := by
  obtain ⟨t, ht, h⟩ := bind_eq_ok.mp (mapError_eq_ok.mp h)
  obtain ⟨⟨t₁, x⟩, hx, h⟩ := bind_eq_ok.mp h
  obtain ⟨-, -, -, rfl⟩ := Txn.get_ok hx
  cases h
  rw [(Txn.begin_ok ht).1]
  rfl

theorem get_noFaults (sm : LmdbStateMachine) {key : Bytes} (hk : key ≠ []) :
    sm.get Faults.none key = .ok (sm.kv.get key) := by
  simp [LmdbStateMachine.get, Txn.begin_noFaults, Txn.get_noFaults, hk, bind, Except.bind,
    pure, Except.pure, Except.mapError, LmdbStateMachine.kv]

/-- The state machine with one key gone from `kv_db`. -/
def LmdbStateMachine.withoutKey (sm : LmdbStateMachine) (key : Bytes) : LmdbStateMachine :=
  { sm with env := Function.update sm.env .kvDb (sm.kv.erase key) }

theorem withoutKey_kv (sm : LmdbStateMachine) (key k : Bytes) :
    (sm.withoutKey key).kv.get k = if k = key then none else sm.kv.get k := by
  show (Function.update sm.env SmDb.kvDb (sm.kv.erase key) SmDb.kvDb).get k = _
  rw [Function.update_self, Database.get_erase]

/-- `delete_local` removes its key in one commit, or does nothing. -/
theorem deleteLocal_cases (flt : Faults) (sm : LmdbStateMachine) (key : Bytes) :
    (∃ env, sm.deleteLocal flt key = ⟨[.commit env], .ok ()⟩ ∧
      sm.after (sm.deleteLocal flt key) = sm.withoutKey key) ∨
    ∃ e, sm.deleteLocal flt key = ⟨[], .error e⟩ := by
  rcases smLmdb_bind (do
      let wtxn ← Txn.begin flt sm.env
      let wtxn ← wtxn.delete .kvDb key
      wtxn.commit) (fun env => Call.emit (.commit env))
    with ⟨env, hx, hcall⟩ | ⟨e, hcall⟩
  · have hcall' : sm.deleteLocal flt key = ⟨[.commit env], .ok ()⟩ := hcall
    refine Or.inl ⟨env, hcall', ?_⟩
    obtain ⟨t₀, h₀, hx⟩ := bind_eq_ok.mp hx
    obtain ⟨t₁, h₁, hx⟩ := bind_eq_ok.mp hx
    obtain ⟨-, hch⟩ := Txn.delete_ok h₁
    rw [hcall']
    show { sm with env := env } = sm.withoutKey key
    rw [Txn.commit_ok hx, hch.env, (Txn.begin_ok h₀).1]
    rfl
  · exact Or.inr ⟨e, hcall⟩

theorem deleteLocal_noFaults (sm : LmdbStateMachine) {key : Bytes} (hk : key ≠ []) :
    (sm.deleteLocal Faults.none key).result = .ok () := by
  obtain ⟨t', h, ht'⟩ := Txn.delete_noFaults (t := ⟨Faults.none, 1, sm.env⟩) (d := SmDb.kvDb) rfl hk
  have hx : (do
      let wtxn ← Txn.begin Faults.none sm.env
      let wtxn ← wtxn.delete .kvDb key
      wtxn.commit) = .ok t'.env := by
    refine bind_eq_ok.mpr ⟨_, Txn.begin_noFaults _, ?_⟩
    exact bind_eq_ok.mpr ⟨t', h, Txn.commit_noFaults ht'⟩
  rw [LmdbStateMachine.deleteLocal, hx]
  rfl

/-! ## Scans -/

/-- What a scan without a limit collects. -/
def scanItems (filter : Option ScanFilter) (items : List (Bytes × Bytes)) : List (Bytes × Bytes) :=
  items.flatMap (fun e => scanItem filter e.1 e.2)

theorem scanItem_key {filter : Option ScanFilter} {k v : Bytes} {e : Bytes × Bytes}
    (h : e ∈ scanItem filter k v) : e.1 = k := by
  unfold scanItem at h
  split at h
  · split at h
    · rw [List.mem_singleton.mp h]
    · cases h
  · rw [List.mem_singleton.mp h]

/-- A filtered scan has the pairs whose values pass, with their payloads. -/
theorem mem_scanItems_some {f : ScanFilter} {items : List (Bytes × Bytes)} {k payload : Bytes} :
    (k, payload) ∈ scanItems (some f) items ↔ ∃ v, (k, v) ∈ items ∧ f v = some payload := by
  have hitem : ∀ k' v', (k, payload) ∈ scanItem (some f) k' v' ↔ k' = k ∧ f v' = some payload := by
    intro k' v'
    unfold scanItem
    cases hv : f v' with
    | none => simp [hv]
    | some p => simp [hv, eq_comm]
  simp only [scanItems, List.mem_flatMap, Prod.exists, hitem]
  constructor
  · rintro ⟨k', v, hmem, rfl, hf⟩
    exact ⟨v, hmem, hf⟩
  · rintro ⟨v, hmem, hf⟩
    exact ⟨k, v, hmem, rfl, hf⟩

theorem mem_scanItems {f : ScanFilter} {db : Database} {k payload : Bytes} :
    (k, payload) ∈ scanItems (some f) db.toList ↔
      ∃ v, db.get k = some v ∧ f v = some payload := by
  simp only [mem_scanItems_some, Database.mem_toList]

theorem scanItem_pairwise (R : Bytes × Bytes → Bytes × Bytes → Prop)
    (filter : Option ScanFilter) (k v : Bytes) : (scanItem filter k v).Pairwise R := by
  unfold scanItem
  split
  · split
    · exact List.pairwise_singleton R _
    · exact List.Pairwise.nil
  · exact List.pairwise_singleton R _

/-- A scan keeps the order of the keys. -/
theorem scanItems_sorted (filter : Option ScanFilter) {items : List (Bytes × Bytes)}
    (h : items.Pairwise (fun a b => compare a.1 b.1 = .lt)) :
    (scanItems filter items).Pairwise (fun a b => compare a.1 b.1 = .lt) := by
  induction items with
  | nil => exact List.Pairwise.nil
  | cons e items ih =>
      obtain ⟨hlt, hitems⟩ := List.pairwise_cons.mp h
      refine List.pairwise_append.mpr ⟨scanItem_pairwise _ filter e.1 e.2, ih hitems, ?_⟩
      · intro a ha b hb
        obtain ⟨e', he', hb⟩ := List.mem_flatMap.mp hb
        rw [scanItem_key ha, scanItem_key hb]
        exact hlt e' he'

theorem scanLoop_unbounded {filter : Option ScanFilter} {items : List (Bytes × Bytes)}
    {rtxn : Txn SmDb} {entries : List (Bytes × Bytes)} (ht : rtxn.faults = Faults.none) :
    scanLoop none none filter items rtxn entries = .ok (entries ++ scanItems filter items) := by
  induction items generalizing rtxn entries with
  | nil => simp [scanLoop, scanItems]
  | cons e items ih =>
      obtain ⟨k, v⟩ := e
      have hstep : scanLoop none none filter ((k, v) :: items) rtxn entries =
          scanLoop none none filter items { rtxn with ops := rtxn.ops + 1 }
            (entries ++ scanItem filter k v) := by
        simp [scanLoop, atCap, Txn.tick_noFaults ht, bind, Except.bind]
      have ht' : ({ rtxn with ops := rtxn.ops + 1 } : Txn SmDb).faults = Faults.none := ht
      rw [hstep, ih ht']
      simp [scanItems]

/-- **A whole scan**: every stored pair in key order, through the filter. -/
theorem scanAll_noFaults (sm : LmdbStateMachine) (filter : Option ScanFilter) :
    sm.scanAll Faults.none none filter =
      .ok ⟨scanItems filter sm.kv.toList, sm.lastAppliedIndex⟩ := by
  have hrange : (sm.env .kvDb).range .unbounded .unbounded = sm.kv.toList := by
    refine List.filter_eq_self.mpr ?_
    intro e _
    rfl
  have hloop : scanLoop none none filter sm.kv.toList ⟨Faults.none, 2, sm.env⟩ [] =
      .ok ([] ++ scanItems filter sm.kv.toList) := scanLoop_unbounded rfl
  simp only [LmdbStateMachine.scanAll, LmdbStateMachine.scanRangeCore, Txn.begin_noFaults, bind,
    Except.bind]
  simp [Txn.range, Txn.tick, bind, Except.bind, hrange,
    hloop, pure, Except.pure, Except.mapError]

end DLmdb
