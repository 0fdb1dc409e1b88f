import DLmdb.Db.Agreement
import DLmdb.Db.TtlMap
import DLmdb.StateMachine.ForwardScans

/-!
# Counting keys

`len` counts what is stored, and a value past its expiry is stored until a point read meets
it. So `len` is no less than the number of live keys, and a `get_multi` of all keys makes it
that number.
-/

namespace DLmdb

open Framework Lmdb

/-! ## The code -/

/-- `LmdbStateMachine::len`: an error counts as no key at all. -/
def LmdbStateMachine.len (flt : Faults) (sm : LmdbStateMachine) : ℕ :=
  match Txn.begin flt sm.env with
  | .error _ => 0
  | .ok rtxn =>
      match rtxn.len .kvDb with
      | .ok (_, n) => n
      | .error _ => 0

namespace Db

def len (flt : Faults) (sm : LmdbStateMachine) : ℕ := sm.len flt

def isEmpty (flt : Faults) (sm : LmdbStateMachine) : Bool := len flt sm == 0

end Db

theorem len_noFaults (sm : LmdbStateMachine) : Db.len Faults.none sm = sm.kv.toList.length := by
  simp [Db.len, LmdbStateMachine.len, Txn.begin_noFaults, Txn.len, Txn.tick, bind, Except.bind,
    pure, Except.pure, LmdbStateMachine.kv]

/-! ## A sweep -/

/-- A read that meets no error leaves nothing expired under its key. -/
theorem fetchLocal_collects (sm : LmdbStateMachine) {key : Bytes} (hk : key ≠ []) {t : UInt64}
    {v : Bytes} (h : (sm.after (Db.fetchLocal Faults.none sm key t)).kv.get key = some v) :
    ¬ ExpiredAt v t := by
  intro hexp
  have hget : sm.kv.get key = some v := by
    rcases fetchLocal_reaped Faults.none sm key t key with hsame | ⟨hnone, -⟩
    · rw [← hsame]
      exact h
    · rw [hnone] at h
      cases h
  have hfetch : Db.fetchLocal Faults.none sm key t = (do
      engineCall (sm.deleteLocal Faults.none key)
      return none) := by
    unfold Db.fetchLocal engineResult
    rw [get_noFaults sm hk, hget, Except.mapError, Call.ok_bind, Faults.skip_none]
    exact decodeAndReap_expired hexp
  have hdelete := deleteLocal_noFaults sm hk
  rcases deleteLocal_cases Faults.none sm key with ⟨env, hcall, hafter⟩ | ⟨e, hcall⟩
  · have hgone : sm.after (Db.fetchLocal Faults.none sm key t) = sm.withoutKey key := by
      rw [hfetch, ← hafter, hcall]
      rfl
    rw [hgone, withoutKey_kv, if_pos rfl] at h
    cases h
  · rw [hcall] at hdelete
    cases hdelete

/-- The reads of a sweep, none of which fails. -/
def sweepOf (keys : List Bytes) : List (Bytes × Faults) := keys.map (fun k => (k, Faults.none))

/-- What is left under a key that was read has not expired. -/
theorem readsAt_collects {t : UInt64} {sm : LmdbStateMachine} {keys : List Bytes}
    (hkeys : ∀ k ∈ keys, k ≠ []) {k v : Bytes} (hk : k ∈ keys)
    (h : (readsAt t sm (sweepOf keys)).kv.get k = some v) : ¬ ExpiredAt v t := by
  induction keys generalizing sm with
  | nil => cases hk
  | cons key keys ih =>
      have hrest := fun k' hk' => hkeys k' (List.mem_cons_of_mem key hk')
      rcases List.mem_cons.mp hk with rfl | hmem
      · -- the rest of the sweep may only take it away
        refine fetchLocal_collects sm (hkeys k List.mem_cons_self) ?_
        have hreaped := (readsAt_reaped t (sm.after (Db.get Faults.none sm k t)) (sweepOf keys)).1
        rcases hreaped k with hsame | ⟨hnone, -⟩
        · exact hsame.symm.trans h
        · rw [show readsAt t sm (sweepOf (k :: keys)) =
            readsAt t (sm.after (Db.get Faults.none sm k t)) (sweepOf keys) from rfl, hnone] at h
          cases h
      · exact ih hrest hmem h

/-- `get_multi` on a store that holds envelopes reads all its keys. -/
theorem Tracks.getMulti_after {t : UInt64} {sm : LmdbStateMachine} {r : Reference}
    (h : Tracks t sm.kv.get r) {keys : List Bytes} (hkeys : ∀ k ∈ keys, k ≠ []) :
    sm.after (Db.getMulti sm (multiArgs (keys.map (fun k => (k, t))))) =
      readsAt t sm (sweepOf keys) := by
  induction keys generalizing sm with
  | nil => rfl
  | cons key keys ih =>
      obtain ⟨hresult, htracks⟩ := h.fetch (UInt64.le_refl t) key
      rw [Reference.read, if_neg (hkeys key List.mem_cons_self)] at hresult
      have hrest := ih htracks (fun k hk => hkeys k (List.mem_cons_of_mem key hk))
      show sm.after (Db.fetchLocal Faults.none sm key t >>= fun value =>
        Db.getMulti (sm.after (Db.fetchLocal Faults.none sm key t))
          (multiArgs (keys.map (fun k => (k, t)))) >>= fun values => pure (value :: values)) = _
      rw [LmdbStateMachine.after, Call.after_bind_of_ok hresult, Call.bind_pure_eq]
      exact hrest

/-! ## Counting -/

/-- A scan lists no more than there is. -/
theorem length_scanItems_le (filter : Option ScanFilter) (items : List (Bytes × Bytes)) :
    (scanItems filter items).length ≤ items.length := by
  rw [scanItems_eq_acceptedPairs]
  exact List.length_filterMap_le _ _

/-- It lists as much, where the filter takes everything. -/
theorem length_scanItems {f : ScanFilter} {items : List (Bytes × Bytes)}
    (h : ∀ e ∈ items, (f e.2).isSome) : (scanItems (some f) items).length = items.length := by
  rw [scanItems_eq_acceptedPairs, acceptedPairs, List.filterMap_length_eq_length]
  intro e he
  rw [Option.isSome_map]
  exact h e he

theorem scanAll_eq_met {flt : Faults} {sm : LmdbStateMachine} {t : UInt64} {r : ScanResult}
    (h : Db.scanAll flt sm none t = .ok r) : r = ⟨Scan.all.met sm.kv t, sm.lastAppliedIndex⟩ :=
  @Scan.run_ok .all trivial flt sm t r h

/-- What is stored and has not expired is live. -/
theorem Tracked.isSome_decodeForScan {t : UInt64} {s : Option Stored} {v : Bytes}
    (h : Tracked t s (some v)) (hv : ¬ ExpiredAt v t) : (decodeForScan t v).isSome := by
  have hlogical := h.logicalValue (UInt64.le_refl t)
  cases hdecode : decodeLiveValue v t with
  | error e =>
      rw [DLmdb.logicalValue, hdecode] at hlogical
      cases hlogical
  | ok d =>
      cases d with
      | present payload =>
          have hok : DLmdb.logicalValue (some v) t = .ok (some payload) := by
            rw [DLmdb.logicalValue, hdecode]
          rw [decodeForScan_eq_some.mpr hok]
          rfl
      | expired => exact absurd hdecode hv

/-- The map has something for every key that is stored. -/
theorem Tracked.ne_none {t : UInt64} {s : Option Stored} {v : Bytes}
    (h : Tracked t s (some v)) : s ≠ none := by
  rintro rfl
  cases h

/-- Whatever is swept, what is left is what the map has. -/
theorem Tracks.swept {t : UInt64} {sm : LmdbStateMachine} {r : Reference}
    (h : Tracks t sm.kv.get r) {keys : List Bytes} (hkeys : ∀ k ∈ keys, k ≠ [])
    (hall : ∀ k, r k ≠ none → k ∈ keys) :
    (Scan.all.met sm.kv t).length = Db.len Faults.none (readsAt t sm (sweepOf keys)) := by
  have hreaped := (readsAt_reaped t sm (sweepOf keys)).1
  have hleft : Tracks t (readsAt t sm (sweepOf keys)).kv.get r :=
    h.reaped (UInt64.le_refl t) hreaped
  have hrange : (readsAt t sm (sweepOf keys)).kv.range .unbounded .unbounded =
      (readsAt t sm (sweepOf keys)).kv.toList := List.filter_eq_self.mpr fun _ _ => rfl
  rw [← met_reaped .all hreaped (UInt64.le_refl t), len_noFaults, Scan.met, Scan.lower,
    Scan.upper, hrange]
  refine length_scanItems ?_
  rintro ⟨k, v⟩ hmem
  have hget := Database.mem_toList.mp hmem
  have hk := hleft k
  rw [hget] at hk
  exact hk.isSome_decodeForScan (readsAt_collects hkeys (hall k hk.ne_none) hget)

/-- **`len` counts the live keys, after a sweep.** In every run of one node from empty, at any
time: `len` is no less than the number of keys a scan lists, which are the live ones; and after
a `get_multi` of every key that was ever written and not deleted it is that number, the same
scan lists the same, and `is_empty` says whether no key is live. -/
theorem len_counts_live_keys (cfg : DLmdbConfig) {es : List MapEvent}
    (hes : Along (MapRun.step cfg) (MapRun.Valid cfg) MapRun.empty es) :
    let s := runFrom (MapRun.step cfg) MapRun.empty es
    ∀ t, s.clock ≤ t → ∀ flt r, Db.scanAll flt s.sm none t = .ok r →
      (∀ k payload, (k, payload) ∈ r.entries ↔ s.reference.at' k t = some payload) ∧
      r.entries.length ≤ Db.len Faults.none s.sm ∧
      ∀ keys : List Bytes, (∀ k ∈ keys, k ≠ []) → (∀ k, s.reference k ≠ none → k ∈ keys) →
        let sm' := s.sm.after (Db.getMulti s.sm (multiArgs (keys.map (fun k => (k, t)))))
        Db.len Faults.none sm' = r.entries.length ∧
        (∀ flt' r', Db.scanAll flt' sm' none t = .ok r' → r' = r) ∧
        (Db.isEmpty Faults.none sm' = true ↔ ∀ k, s.reference.at' k t = none) := by
  intro s t ht flt r hr
  have hs : s.Tracking :=
    runFrom_invariant (I := MapRun.Tracking) (fun _ _ hs he => (hs.step he).1)
      MapRun.empty_tracking hes
  have htracks : Tracks t s.sm.kv.get s.reference := Tracks.mono ht hs
  have hentries : r.entries = Scan.all.met s.sm.kv t := by rw [scanAll_eq_met hr]
  have hmem : ∀ k payload, (k, payload) ∈ r.entries ↔ s.reference.at' k t = some payload := by
    intro k payload
    rw [hentries, Scan.mem_met, (htracks k).logicalValue (UInt64.le_refl t), Except.ok.injEq]
    exact and_iff_right trivial
  refine ⟨hmem, ?_, ?_⟩
  · rw [hentries, len_noFaults]
    exact (length_scanItems_le _ _).trans (List.length_filter_le _ _)
  · intro keys hkeys hall sm'
    have hsweep : sm' = readsAt t s.sm (sweepOf keys) := htracks.getMulti_after hkeys
    have hlen : Db.len Faults.none sm' = r.entries.length := by
      rw [hsweep, hentries]
      exact (htracks.swept hkeys hall).symm
    refine ⟨hlen, ?_, ?_⟩
    · intro flt' r' hr'
      obtain ⟨hreaped, hindex⟩ := readsAt_reaped t s.sm (sweepOf keys)
      rw [scanAll_eq_met hr', scanAll_eq_met hr, hsweep,
        met_reaped .all hreaped (UInt64.le_refl t), hindex]
    · rw [Db.isEmpty, hlen, beq_iff_eq, List.length_eq_zero_iff]
      constructor
      · intro hnil k
        cases hlive : s.reference.at' k t with
        | none => rfl
        | some payload =>
            have hin := (hmem k payload).mpr hlive
            rw [hnil] at hin
            cases hin
      · intro hnone
        refine List.eq_nil_iff_forall_not_mem.mpr ?_
        rintro ⟨k, payload⟩ hin
        have hlive := (hmem k payload).mp hin
        rw [hnone k] at hlive
        cases hlive

/-- Of three keys one has expired and one is deleted. -/
theorem len_counts_live_keys_swept :
    let ws : List LogWrite := [⟨1, 1, .putWithTtl 3 [7] [1] 5⟩,
      ⟨2, 1, .batch [.insert [8] [2], .delete [8], .insert [9] [3]]⟩]
    let s := runFrom (MapRun.step .default) MapRun.empty [.writes Faults.none ws, .get [7] 7]
    Db.len Faults.none s.sm = 2 ∧
      Db.len Faults.none (s.sm.after (Db.getMulti s.sm (multiArgs [([9], 8), ([7], 8)]))) = 1 := by
  intro ws s
  have hes : Along (MapRun.step .default) (MapRun.Valid .default) MapRun.empty
      [.writes Faults.none ws, .get [7] 7] := by
    refine ⟨⟨?_, applyChunk_noFaults freshStateMachine (by decide)⟩,
      (by decide : (0 : UInt64) ≤ 7), trivial⟩
    intro w hw
    rcases List.mem_cons.mp hw with rfl | hw
    · exact ⟨⟨_, rfl⟩, (by decide : (3 : UInt64).toNat + (5 : UInt64).toNat < 2 ^ 64)⟩
    · rw [List.mem_singleton.mp hw]
      exact ⟨⟨_, rfl⟩, trivial⟩
  have hscan : Db.scanAll Faults.none s.sm none 8 = .ok ⟨[([9], [3])], 2⟩ := by decide
  have hkeys : ∀ k, s.reference k ≠ none → k ∈ ([[9], [7]] : List Bytes) := by
    intro k hk
    by_contra hne
    simp only [List.mem_cons, List.not_mem_nil, or_false, not_or] at hne
    refine hk ?_
    show Function.update (Function.update (Function.update (Function.update
      (fun _ => none) [7] _) [8] _) [8] none) [9] _ k = none
    simp [Function.update_apply, hne.1, hne.2]
  exact ⟨by decide, ((len_counts_live_keys .default hes 8 (by decide) Faults.none _ hscan).2.2
    [[9], [7]] (by decide) hkeys).1⟩

end DLmdb
