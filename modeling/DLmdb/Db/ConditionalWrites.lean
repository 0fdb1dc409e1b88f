import DLmdb.Db.Writes
import DLmdb.Framework.Reaping

/-!
# Conditional writes of `DLmdb`

`compare_and_swap` and `put_if_absent` are decided in `apply_chunk`, on stored bytes; a
client decides what to expect with `get`, on logical values. The two agree as long as
the bytes under the key are a value without expiry: a live value with one differs from
the encoding of its payload, and an expired one that nobody has reaped is not absent.
The stores below are any at all, reached by whatever calls.
-/

namespace DLmdb

open Framework Lmdb

/-- An accepted call, applied in a chunk of its own. -/
def ClientWrite.apply (cfg : DLmdbConfig) (sm : LmdbStateMachine) (w : ClientWrite) :
    SmCall (List ApplyResult) :=
  applyChunk Faults.none sm (submittedChunk cfg [w])

/-! ## What a conditional write does -/

/-- **A compare-and-swap command** succeeds when the stored bytes are the expected ones, and
writes its key then and only then. -/
theorem compareAndSwap_applied {cfg : DLmdbConfig} (sm : LmdbStateMachine) {w : ClientWrite}
    {key : Bytes} {expected : Option Bytes} {value : Bytes}
    (hw : w.call.submit cfg = .ok (.compareAndSwap key expected value)) (hk : ValidKey key) :
    (w.apply cfg sm).result = .ok [⟨w.index, decide (sm.kv.get key = expected)⟩] ∧
      (sm.after (w.apply cfg sm)).kv.get =
        if sm.kv.get key = expected then Function.update sm.kv.get key (some value)
        else sm.kv.get := by
  have hchunk : submittedChunk cfg [w] =
      [⟨w.index, w.term, .compareAndSwap key expected value⟩] := by
    simp [submittedChunk, ClientWrite.entry?, hw]
  have hstorable : ∀ e ∈ submittedChunk cfg [w], e.command.Storable := by
    intro e he
    rw [hchunk, List.mem_singleton] at he
    rw [he]
    exact ⟨ne_nil_of_validKey hk, fun _ => hk⟩
  obtain ⟨rs, hrs⟩ := applyChunk_noFaults sm hstorable
  have happlied := applyChunk_applied hrs
  constructor
  · rw [ClientWrite.apply, hrs, happlied.results, hchunk]
    rfl
  · rw [ClientWrite.apply, happlied.kv, hchunk]
    show Contents.step sm.kv.get (.cas key expected value) = _
    by_cases h : sm.kv.get key = expected
    · rw [if_pos h, Contents.step_cas_hit h]
    · rw [if_neg h, Contents.step_cas_miss h]

section

variable {cfg : DLmdbConfig} {sm : LmdbStateMachine} {w : ClientWrite} {key value : Bytes}
  {expected : Option Bytes}

theorem compareAndSwap_hit
    (hw : w.call.submit cfg = .ok (.compareAndSwap key expected value)) (hk : ValidKey key)
    (h : sm.kv.get key = expected) :
    (w.apply cfg sm).result = .ok [⟨w.index, true⟩] ∧
      (sm.after (w.apply cfg sm)).kv.get key = some value := by
  obtain ⟨hresult, hafter⟩ := compareAndSwap_applied sm hw hk
  constructor
  · rw [hresult, decide_eq_true h]
  · rw [hafter, if_pos h, Function.update_self]

theorem compareAndSwap_miss
    (hw : w.call.submit cfg = .ok (.compareAndSwap key expected value)) (hk : ValidKey key)
    (h : sm.kv.get key ≠ expected) :
    (w.apply cfg sm).result = .ok [⟨w.index, false⟩] ∧
      (sm.after (w.apply cfg sm)).kv = sm.kv := by
  obtain ⟨hresult, hafter⟩ := compareAndSwap_applied sm hw hk
  constructor
  · rw [hresult, decide_eq_false h]
  · refine Database.ext_get (fun k => ?_)
    rw [hafter, if_neg h]

end

/-! ## What a read returns -/

/-- A live value with an expiry and this payload is stored under the key. -/
def HoldsLiveTtl (sm : LmdbStateMachine) (key payload : Bytes) (now : UInt64) : Prop :=
  ∃ raw ts, sm.kv.get key = some raw ∧ Value.decode raw = .ok (.ttl ts payload) ∧ now < ts

/-- An expired value is still stored under the key. -/
def HoldsExpired (sm : LmdbStateMachine) (key : Bytes) (now : UInt64) : Prop :=
  ∃ raw, sm.kv.get key = some raw ∧ ExpiredAt raw now

/-- Two kinds of bytes have a payload: a raw value, and one with an expiry to come. -/
theorem logicalValue_eq_some {v payload : Bytes} {now : UInt64} :
    logicalValue (some v) now = .ok (some payload) ↔
      v = Value.encodeRaw payload ∨ ∃ ts, Value.decode v = .ok (.ttl ts payload) ∧ now < ts := by
  rw [← decodeForScan_eq_some]
  unfold decodeForScan
  constructor
  · intro h
    split at h
    · rename_i p hd
      cases h
      exact Or.inl (Value.decode_eq_ok.mp hd).symm
    · rename_i ts p hd
      split at h
      · rename_i hlt
        cases h
        exact Or.inr ⟨ts, hd, hlt⟩
      · cases h
    · cases h
  · rintro (rfl | ⟨ts, hd, hlt⟩)
    · rfl
    · rw [hd]
      exact if_pos hlt

theorem get_eq_some_iff {sm : LmdbStateMachine} {key payload : Bytes} (hk : key ≠ [])
    {now : UInt64} :
    (Db.get Faults.none sm key now).result = .ok (some payload) ↔
      sm.kv.get key = some (Value.encodeRaw payload) ∨ HoldsLiveTtl sm key payload now := by
  have hget : (Db.get Faults.none sm key now).result = logicalValue (sm.kv.get key) now :=
    fetchLocal_noFaults sm hk now
  rw [hget]
  unfold HoldsLiveTtl
  cases sm.kv.get key with
  | none => simp [logicalValue]
  | some v => simp [logicalValue_eq_some]

/-- A read returns nothing for two kinds of absence. -/
theorem get_eq_none_iff {sm : LmdbStateMachine} {key : Bytes} (hk : key ≠ []) {now : UInt64} :
    (Db.get Faults.none sm key now).result = .ok none ↔
      sm.kv.get key = none ∨ HoldsExpired sm key now := by
  have hget : (Db.get Faults.none sm key now).result = logicalValue (sm.kv.get key) now :=
    fetchLocal_noFaults sm hk now
  rw [hget]
  unfold HoldsExpired ExpiredAt
  cases sm.kv.get key with
  | none => simp [logicalValue]
  | some v =>
      unfold logicalValue
      cases hd : decodeLiveValue v now with
      | error e => simp [hd]
      | ok d => cases d <;> simp [hd]

/-! ## Read, then swap -/

/-- `compare_and_swap` that expects a payload. -/
def swapCall (cfg : DLmdbConfig) (sm : LmdbStateMachine) (index term : UInt64)
    (key expected newValue : Bytes) : SmCall (List ApplyResult) :=
  ClientWrite.apply cfg sm ⟨index, term, .compareAndSwap key (some expected) newValue⟩

/-- What a client that swaps what it has read relies on: success is what a read would
say, the new value is there afterwards, and a failure changes nothing. -/
structure SwapFollowsGet (sm : LmdbStateMachine) (call : SmCall (List ApplyResult))
    (index : UInt64) (key expected newValue : Bytes) (now : UInt64) (succeeded : Bool) :
    Prop where
  result : call.result = .ok [⟨index, succeeded⟩]
  success : succeeded = true ↔ (Db.get Faults.none sm key now).result = .ok (some expected)
  written : succeeded = true → ∀ t,
    (Db.get Faults.none (sm.after call) key t).result = .ok (some newValue)
  unchanged : succeeded = false → (sm.after call).kv = sm.kv

/-- The stored bytes of a value with an expiry are no raw value. -/
theorem HoldsLiveTtl.ne_raw {sm : LmdbStateMachine} {key payload : Bytes} {now : UInt64}
    (h : HoldsLiveTtl sm key payload now) : sm.kv.get key ≠ some (Value.encodeRaw payload) := by
  obtain ⟨raw, ts, hget, hd, -⟩ := h
  rw [hget]
  intro heq
  rw [Option.some.inj heq, Value.decode_encodeRaw] at hd
  cases hd

/-- A swap is submitted with both payloads in raw encoding, and unchecked. -/
theorem swap_submit (cfg : DLmdbConfig) (key expected newValue : Bytes) :
    (WriteCall.compareAndSwap key (some expected) newValue).submit cfg =
      .ok (.compareAndSwap key (some (Value.encodeRaw expected)) (Value.encodeRaw newValue)) :=
  rfl

/-- The swap goes by the raw encoding of what it expects. -/
theorem swapCall_result {cfg : DLmdbConfig} {sm : LmdbStateMachine} {index term : UInt64}
    {key expected newValue : Bytes} (hk : ValidKey key) :
    (swapCall cfg sm index term key expected newValue).result = .ok [⟨index, true⟩] ↔
      sm.kv.get key = some (Value.encodeRaw expected) := by
  have hw := swap_submit cfg key expected newValue
  by_cases h : sm.kv.get key = some (Value.encodeRaw expected)
  · exact iff_of_true (compareAndSwap_hit (w := ⟨index, term, _⟩) hw hk h).1 h
  · refine iff_of_false ?_ h
    rw [swapCall, (compareAndSwap_miss (w := ⟨index, term, _⟩) hw hk h).1]
    simp

/-- **A compare-and-swap follows the read of its key exactly when the key does not hold the
expected payload with an expiry**; and so does the first try of a loop that expects
what it has read, as long as nobody writes the key in between. -/
theorem compareAndSwap_follows_get_iff (cfg : DLmdbConfig) (sm : LmdbStateMachine) {key : Bytes}
    (hk : ValidKey key) (index term : UInt64) (expected newValue : Bytes) (now : UInt64) :
    ((∃ succeeded, SwapFollowsGet sm (swapCall cfg sm index term key expected newValue) index
        key expected newValue now succeeded) ↔ ¬ HoldsLiveTtl sm key expected now) ∧
    ((Db.get Faults.none sm key now).result = .ok (some expected) →
      ∀ sm' : LmdbStateMachine, sm'.kv.get key = sm.kv.get key →
        ((swapCall cfg sm' index term key expected newValue).result = .ok [⟨index, true⟩] ↔
          ¬ HoldsLiveTtl sm key expected now)) := by
  have hne := ne_nil_of_validKey hk
  have hw := swap_submit cfg key expected newValue
  constructor
  · constructor
    · rintro ⟨succeeded, hfollows⟩ hlive
      -- a read returns the payload, and the swap misses
      have hsucceeded := hfollows.success.mpr ((get_eq_some_iff hne).mpr (Or.inr hlive))
      have hresult := hfollows.result
      rw [hsucceeded, swapCall_result hk] at hresult
      exact hlive.ne_raw hresult
    · intro hlive
      by_cases h : sm.kv.get key = some (Value.encodeRaw expected)
      · obtain ⟨hresult, hafter⟩ := compareAndSwap_hit (w := ⟨index, term, _⟩) hw hk h
        refine ⟨true, hresult, iff_of_true rfl ((get_eq_some_iff hne).mpr (Or.inl h)), ?_, nofun⟩
        intro _ t
        exact (get_eq_some_iff hne).mpr (Or.inl hafter)
      · obtain ⟨hresult, hafter⟩ := compareAndSwap_miss (w := ⟨index, term, _⟩) hw hk h
        refine ⟨false, hresult, iff_of_false nofun ?_, nofun, fun _ => hafter⟩
        rw [get_eq_some_iff hne]
        rintro (hraw | hlive')
        · exact h hraw
        · exact hlive hlive'
  · intro hread sm' hsame
    rw [swapCall_result hk, hsame]
    rcases (get_eq_some_iff hne).mp hread with hraw | hlive
    · exact iff_of_true hraw (fun hlive => hlive.ne_raw hraw)
    · exact iff_of_false hlive.ne_raw (not_not_intro hlive)

/-- A node whose one call was a `put_with_ttl` at time 100, for 30 seconds. -/
def ttlStore : LmdbStateMachine :=
  freshStateMachine.after
    (ClientWrite.apply .default freshStateMachine ⟨1, 1, .putWithTtl 100 [97] [1] 30⟩)

/-- There, a swap of another payload. -/
theorem compareAndSwap_follows_get_at :
    ((∃ succeeded, SwapFollowsGet ttlStore (swapCall .default ttlStore 2 1 [97] [7] [2]) 2
        [97] [7] [2] 110 succeeded) ↔ ¬ HoldsLiveTtl ttlStore [97] [7] 110) ∧
    ((Db.get Faults.none ttlStore [97] 110).result = .ok (some [7]) →
      ∀ sm' : LmdbStateMachine, sm'.kv.get [97] = ttlStore.kv.get [97] →
        ((swapCall .default sm' 2 1 [97] [7] [2]).result = .ok [⟨2, true⟩] ↔
          ¬ HoldsLiveTtl ttlStore [97] [7] 110)) :=
  compareAndSwap_follows_get_iff .default ttlStore (by decide) 2 1 [7] [2] 110

/-- A read at time 110 returns the payload, and the swap that expects it fails. -/
theorem compareAndSwap_misses_ttl :
    (Db.get Faults.none ttlStore [97] 110).result = .ok (some [1]) ∧
      (swapCall .default ttlStore 2 1 [97] [1] [2]).result = .ok [⟨2, false⟩] ∧
      ¬ ∃ succeeded, SwapFollowsGet ttlStore (swapCall .default ttlStore 2 1 [97] [1] [2]) 2
        [97] [1] [2] 110 succeeded := by
  have hget : (Db.get Faults.none ttlStore [97] 110).result = .ok (some [1]) := by decide
  have hswap : (swapCall .default ttlStore 2 1 [97] [1] [2]).result = .ok [⟨2, false⟩] := by decide
  refine ⟨hget, hswap, ?_⟩
  rintro ⟨succeeded, hfollows⟩
  have hresult := hfollows.result
  rw [hfollows.success.mpr hget, hswap] at hresult
  exact absurd hresult (by decide)

/-! ## Insertion where nothing is -/

/-- `put_if_absent`. -/
def insertCall (cfg : DLmdbConfig) (sm : LmdbStateMachine) (index term : UInt64)
    (key value : Bytes) : SmCall (List ApplyResult) :=
  ClientWrite.apply cfg sm ⟨index, term, .putIfAbsent key value⟩

/-- What the holder of a lock relies on: success is what a read would call absent, the
value is there without expiry afterwards, and a failure leaves the key alone. -/
structure InsertFollowsAbsence (sm : LmdbStateMachine) (call : SmCall (List ApplyResult))
    (index : UInt64) (key value : Bytes) (now : UInt64) (succeeded : Bool) : Prop where
  result : call.result = .ok [⟨index, succeeded⟩]
  success : succeeded = true ↔ (Db.get Faults.none sm key now).result = .ok none
  written : succeeded = true → (sm.after call).kv.get key = some (Value.encodeRaw value)
  unchanged : succeeded = false → (sm.after call).kv.get key = sm.kv.get key

/-- The insertion goes by whether any bytes are stored. -/
theorem insertCall_result {cfg : DLmdbConfig} {sm : LmdbStateMachine} {index term : UInt64}
    {key value : Bytes} (hk : ValidKey key) :
    (insertCall cfg sm index term key value).result =
      .ok [⟨index, decide (sm.kv.get key = none)⟩] :=
  (compareAndSwap_applied sm (w := ⟨index, term, .putIfAbsent key value⟩) rfl hk).1

/-- **`put_if_absent` follows the logical absence of its key exactly when no expired value is
still stored under it.** Then it also does not matter which reads have reaped what. -/
theorem putIfAbsent_follows_absence_iff (cfg : DLmdbConfig) (sm : LmdbStateMachine) {key : Bytes}
    (hk : ValidKey key) (index term : UInt64) (value : Bytes) (now : UInt64) :
    ((∃ succeeded, InsertFollowsAbsence sm (insertCall cfg sm index term key value) index
        key value now succeeded) ↔ ¬ HoldsExpired sm key now) ∧
    ((∀ sm' : LmdbStateMachine, Reaped (ExpiredAt · now) sm.kv.get sm'.kv.get →
        (insertCall cfg sm' index term key value).result =
          (insertCall cfg sm index term key value).result) ↔ ¬ HoldsExpired sm key now) := by
  have hne := ne_nil_of_validKey hk
  have hw : (WriteCall.putIfAbsent key value).submit cfg =
      .ok (.compareAndSwap key none (Value.encodeRaw value)) := rfl
  constructor
  · constructor
    · rintro ⟨succeeded, hfollows⟩ hexp
      have hsucceeded := hfollows.success.mpr ((get_eq_none_iff hne).mpr (Or.inr hexp))
      have hresult := hfollows.result
      obtain ⟨raw, hget, -⟩ := hexp
      rw [hsucceeded, insertCall_result hk, hget] at hresult
      cases hresult
    · intro hexp
      by_cases h : sm.kv.get key = none
      · obtain ⟨hresult, hafter⟩ := compareAndSwap_hit (w := ⟨index, term, _⟩) hw hk h
        exact ⟨true, hresult, iff_of_true rfl ((get_eq_none_iff hne).mpr (Or.inl h)),
          fun _ => hafter, nofun⟩
      · obtain ⟨hresult, hafter⟩ := compareAndSwap_miss (w := ⟨index, term, _⟩) hw hk h
        refine ⟨false, hresult, iff_of_false nofun ?_, nofun, fun _ => congrArg (·.get key) hafter⟩
        rw [get_eq_none_iff hne]
        rintro (hnone | hexp')
        · exact h hnone
        · exact hexp hexp'
  · constructor
    · rintro hsame ⟨raw, hget, hexp⟩
      -- a read that comes first reaps the value
      have hresult := hsame (sm.withoutKey key) (withoutKey_reaped (by simpa [hget] using hexp))
      rw [insertCall_result hk, insertCall_result hk, hget, withoutKey_kv, if_pos rfl] at hresult
      cases hresult
    · intro hexp sm' hreaped
      rw [insertCall_result hk, insertCall_result hk]
      rcases hreaped key with heq | ⟨-, raw, hget, hdead⟩
      · rw [heq]
      · exact absurd ⟨raw, hget, hdead⟩ hexp

/-- While the value of `ttlStore` is live. -/
theorem putIfAbsent_follows_absence_at :
    ((∃ succeeded, InsertFollowsAbsence ttlStore (insertCall .default ttlStore 2 1 [97] [2]) 2
        [97] [2] 110 succeeded) ↔ ¬ HoldsExpired ttlStore [97] 110) ∧
    ((∀ sm' : LmdbStateMachine, Reaped (ExpiredAt · 110) ttlStore.kv.get sm'.kv.get →
        (insertCall .default sm' 2 1 [97] [2]).result =
          (insertCall .default ttlStore 2 1 [97] [2]).result) ↔
      ¬ HoldsExpired ttlStore [97] 110) :=
  putIfAbsent_follows_absence_iff .default ttlStore (by decide) 2 1 [2] 110

/-- At time 130 the value has expired: a read returns nothing, and `put_if_absent` fails,
unless the read came first. -/
theorem putIfAbsent_blocked_by_expired :
    (Db.get Faults.none ttlStore [97] 130).result = .ok none ∧
      (insertCall .default ttlStore 2 1 [97] [2]).result = .ok [⟨2, false⟩] ∧
      (insertCall .default (ttlStore.after (Db.get Faults.none ttlStore [97] 130)) 2 1
        [97] [2]).result = .ok [⟨2, true⟩] ∧
      ¬ ∃ succeeded, InsertFollowsAbsence ttlStore (insertCall .default ttlStore 2 1 [97] [2]) 2
        [97] [2] 130 succeeded := by
  have hget : (Db.get Faults.none ttlStore [97] 130).result = .ok none := by decide
  have hinsert : (insertCall .default ttlStore 2 1 [97] [2]).result = .ok [⟨2, false⟩] := by decide
  refine ⟨hget, hinsert, by decide, ?_⟩
  rintro ⟨succeeded, hfollows⟩
  have hresult := hfollows.result
  rw [hfollows.success.mpr hget, hinsert] at hresult
  exact absurd hresult (by decide)

end DLmdb
