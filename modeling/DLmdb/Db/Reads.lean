import DLmdb.Framework.Reaping
import DLmdb.StateMachine.Reads
import DLmdb.Wire.Values

/-!
# Reads of `DLmdb`

Point reads fetch the stored bytes, decode them against the clock, and remove what
they find expired from the local store. Scans decode and skip; they remove nothing.
-/

namespace DLmdb

open Framework Lmdb

/-! ## The code -/

/-- `d_lmdb::Error`, as far as the calls of `db.rs` build it. -/
inductive Error where
  | engine (e : EngineError)
  | keyTooLarge (n : ℕ)
  | valueTooLarge (n : ℕ)
  | storage (text : String)
deriving DecidableEq

inductive DecodedValue where
  | present (payload : Bytes)
  | expired
deriving DecidableEq

def decodeLiveValue (raw : Bytes) (nowSecs : UInt64) : Except Error DecodedValue :=
  match Value.decode raw with
  | .ok (.raw payload) => .ok (.present payload)
  | .ok (.ttl expiresAt payload) =>
      if expiresAt ≤ nowSecs then .ok .expired else .ok (.present payload)
  | .error _ => .error (.storage "corrupt value: invalid tag byte")

/-- `decode_for_scan` at one clock reading. -/
def decodeForScan (nowSecs : UInt64) : ScanFilter := fun raw =>
  match Value.decode raw with
  | .ok (.raw payload) => some payload
  | .ok (.ttl expiresAt payload) => if expiresAt > nowSecs then some payload else none
  | .error _ => none

abbrev DbCall := Call SmEffect Error

/-- The `?` on a call of the state machine. -/
def engineCall {α : Type} (c : SmCall α) : DbCall α := c.mapError .engine

def engineResult {α : Type} (x : Except EngineError α) : DbCall α :=
  .ofExcept (x.mapError .engine)

namespace Db

def decodeAndReap (flt : Faults) (sm : LmdbStateMachine) (key : Bytes) (raw : Option Bytes)
    (now : UInt64) : DbCall (Option Bytes) :=
  match raw with
  | none => return none
  | some raw => do
      match ← Call.ofExcept (decodeLiveValue raw now) with
      | .present payload => return some payload
      | .expired => do
          -- by key: what is stored by now may be another value
          engineCall (sm.deleteLocal flt key)
          return none

/-- `fetch_local`: a read transaction (two operations), then `decode_and_reap`. -/
def fetchLocal (flt : Faults) (sm : LmdbStateMachine) (key : Bytes) (now : UInt64) :
    DbCall (Option Bytes) := do
  let raw ← engineResult (sm.get flt key)
  decodeAndReap (flt.skip 2) sm key raw now

def get (flt : Faults) (sm : LmdbStateMachine) (key : Bytes) (now : UInt64) :
    DbCall (Option Bytes) :=
  fetchLocal flt sm key now

/-- `exists`. -/
def existsKey (flt : Faults) (sm : LmdbStateMachine) (key : Bytes) (now : UInt64) :
    DbCall Bool := do
  let value ← fetchLocal flt sm key now
  return value.isSome

/-- `get_multi`: one fetch a key, in order, each with its faults and its own reading of
the clock; the first error ends it. -/
def getMulti : LmdbStateMachine → List (Bytes × Faults × UInt64) → DbCall (List (Option Bytes))
  | _, [] => return []
  | sm, (key, flt, now) :: keys => do
      let value ← fetchLocal flt sm key now
      let values ← getMulti (sm.after (fetchLocal flt sm key now)) keys
      return value :: values

def scanAll (flt : Faults) (sm : LmdbStateMachine) (limit : Option ℕ) (now : UInt64) :
    Except Error ScanResult :=
  (sm.scanAll flt limit (some (decodeForScan now))).mapError .engine

end Db

/-! ## Expiry -/

/-- The bytes are a value past its expiry. -/
def ExpiredAt (v : Bytes) (t : UInt64) : Prop := decodeLiveValue v t = .ok .expired

instance (v : Bytes) (t : UInt64) : Decidable (ExpiredAt v t) := by
  unfold ExpiredAt
  infer_instance

theorem expiredAt_iff {v : Bytes} {t : UInt64} :
    ExpiredAt v t ↔ ∃ expiresAt payload, Value.decode v = .ok (.ttl expiresAt payload) ∧
      expiresAt ≤ t := by
  unfold ExpiredAt decodeLiveValue
  constructor
  · intro h
    split at h
    · cases h
    · rename_i expiresAt payload hv
      split at h
      · rename_i hle
        exact ⟨expiresAt, payload, hv, hle⟩
      · cases h
    · cases h
  · rintro ⟨expiresAt, payload, hv, hle⟩
    rw [hv]
    exact if_pos hle

/-- Once expired, always expired. -/
theorem ExpiredAt.mono {v : Bytes} {t t' : UInt64} (h : ExpiredAt v t) (ht : t ≤ t') :
    ExpiredAt v t' := by
  obtain ⟨expiresAt, payload, hv, hle⟩ := expiredAt_iff.mp h
  exact expiredAt_iff.mpr ⟨expiresAt, payload, hv, UInt64.le_trans hle ht⟩

/-- What a key means at time `t`: an expired value is an absent one. -/
def logicalValue (raw : Option Bytes) (t : UInt64) : Except Error (Option Bytes) :=
  match raw with
  | none => .ok none
  | some v =>
      match decodeLiveValue v t with
      | .ok (.present payload) => .ok (some payload)
      | .ok .expired => .ok none
      | .error e => .error e

theorem logicalValue_of_expired {v : Bytes} {t : UInt64} (h : ExpiredAt v t) :
    logicalValue (some v) t = .ok none := by
  have hv : decodeLiveValue v t = .ok .expired := h
  simp [logicalValue, hv]

theorem decodeLiveValue_encodeRaw (payload : Bytes) (t : UInt64) :
    decodeLiveValue (Value.encodeRaw payload) t = .ok (.present payload) := rfl

theorem decodeLiveValue_encodeTtl (payload : Bytes) (ts t : UInt64) :
    decodeLiveValue (Value.encodeTtl payload (some ts)) t =
      if ts ≤ t then .ok .expired else .ok (.present payload) := by
  rw [decodeLiveValue, Value.decode_encodeTtl]

/-- A scan keeps exactly what a point read would return. -/
theorem decodeForScan_eq_some {v payload : Bytes} {t : UInt64} :
    decodeForScan t v = some payload ↔ logicalValue (some v) t = .ok (some payload) := by
  unfold decodeForScan logicalValue decodeLiveValue
  cases hd : Value.decode v with
  | error e => simp [hd]
  | ok value =>
      cases value with
      | raw p => simp [hd]
      | ttl ts p =>
          by_cases h : ts ≤ t
          · simp [hd, h, UInt64.not_lt.mpr h]
          · simp [hd, h, UInt64.not_le.mp h]

/-! ## What a point read does to the store -/

theorem decodeAndReap_live {flt : Faults} {sm : LmdbStateMachine} {key : Bytes}
    {raw : Option Bytes} {now : UInt64} (h : ∀ v, raw = some v → ¬ ExpiredAt v now) :
    Db.decodeAndReap flt sm key raw now = ⟨[], logicalValue raw now⟩ := by
  cases raw with
  | none => rfl
  | some v =>
      have hv : decodeLiveValue v now ≠ .ok .expired := h v rfl
      unfold Db.decodeAndReap logicalValue
      cases hd : decodeLiveValue v now with
      | error e => simp only [hd, Call.error_bind]
      | ok d =>
          cases d with
          | present payload =>
              simp only [hd, Call.ok_bind]
              rfl
          | expired => exact absurd hd hv

theorem decodeAndReap_expired {flt : Faults} {sm : LmdbStateMachine} {key v : Bytes}
    {now : UInt64} (h : ExpiredAt v now) :
    Db.decodeAndReap flt sm key (some v) now = (do
      engineCall (sm.deleteLocal flt key)
      return none) := by
  have hv : decodeLiveValue v now = .ok .expired := h
  unfold Db.decodeAndReap
  simp only [hv, Call.ok_bind]

/-- **A point read changes nothing, or takes its key away**, and the latter only when
the bytes it decoded were expired. -/
theorem decodeAndReap_after (flt : Faults) (sm : LmdbStateMachine) (key : Bytes)
    (raw : Option Bytes) (now : UInt64) :
    sm.after (Db.decodeAndReap flt sm key raw now) = sm ∨
      (∃ v, raw = some v ∧ ExpiredAt v now) ∧
        sm.after (Db.decodeAndReap flt sm key raw now) = sm.withoutKey key := by
  by_cases h : ∃ v, raw = some v ∧ ExpiredAt v now
  · obtain ⟨v, rfl, hv⟩ := h
    rw [decodeAndReap_expired hv]
    rcases deleteLocal_cases flt sm key with ⟨env, hcall, hafter⟩ | ⟨e, hcall⟩
    · refine Or.inr ⟨⟨v, rfl, hv⟩, ?_⟩
      rw [← hafter, hcall]
      rfl
    · rw [hcall]
      exact Or.inl rfl
  · refine Or.inl ?_
    rw [decodeAndReap_live (fun v hv hexp => h ⟨v, hv, hexp⟩)]
    rfl

theorem fetchLocal_after (flt : Faults) (sm : LmdbStateMachine) (key : Bytes) (now : UInt64) :
    sm.after (Db.fetchLocal flt sm key now) = sm ∨
      (∃ v, sm.kv.get key = some v ∧ ExpiredAt v now) ∧
        sm.after (Db.fetchLocal flt sm key now) = sm.withoutKey key := by
  unfold Db.fetchLocal engineResult
  cases hget : sm.get flt key with
  | error e => exact Or.inl rfl
  | ok raw =>
      rw [Except.mapError, Call.ok_bind, ← get_eq_ok hget]
      exact decodeAndReap_after (flt.skip 2) sm key raw now

/-- To take a key away is to reap it, if what it holds has expired. -/
theorem withoutKey_reaped {sm : LmdbStateMachine} {key : Bytes} {t : UInt64}
    (h : ∀ v ∈ sm.kv.get key, ExpiredAt v t) :
    Reaped (ExpiredAt · t) sm.kv.get (sm.withoutKey key).kv.get := by
  intro k
  rw [withoutKey_kv]
  split
  · rename_i hkey
    subst hkey
    cases hget : sm.kv.get k with
    | none => exact Or.inl rfl
    | some v => exact Or.inr ⟨rfl, v, rfl, h v hget⟩
  · exact Or.inl rfl

theorem fetchLocal_reaped (flt : Faults) (sm : LmdbStateMachine) (key : Bytes) (now : UInt64) :
    Reaped (ExpiredAt · now) sm.kv.get (sm.after (Db.fetchLocal flt sm key now)).kv.get := by
  rcases fetchLocal_after flt sm key now with hsame | ⟨⟨v, hget, hexp⟩, hgone⟩
  · rw [hsame]
    exact Reaped.refl _
  · rw [hgone]
    refine withoutKey_reaped ?_
    simpa [hget] using hexp

/-! ## What a point read returns -/

theorem decodeAndReap_noFaults (sm : LmdbStateMachine) {key : Bytes} (hk : key ≠ [])
    (raw : Option Bytes) (now : UInt64) :
    (Db.decodeAndReap Faults.none sm key raw now).result = logicalValue raw now := by
  by_cases h : ∃ v, raw = some v ∧ ExpiredAt v now
  · obtain ⟨v, rfl, hv⟩ := h
    have hdel : (engineCall (sm.deleteLocal Faults.none key)).result = .ok () := by
      show (sm.deleteLocal Faults.none key).result.mapError Error.engine = .ok ()
      rw [deleteLocal_noFaults sm hk]
      rfl
    rw [decodeAndReap_expired hv, Call.bind_of_ok hdel, logicalValue_of_expired hv]
    rfl
  · rw [decodeAndReap_live (fun v hv hexp => h ⟨v, hv, hexp⟩)]

/-- A read that returns has decoded what it fetched, whatever else went wrong. -/
theorem decodeAndReap_ok {flt : Faults} {sm : LmdbStateMachine} {key : Bytes}
    {raw out : Option Bytes} {now : UInt64}
    (h : (Db.decodeAndReap flt sm key raw now).result = .ok out) :
    logicalValue raw now = .ok out := by
  by_cases hexp : ∃ v, raw = some v ∧ ExpiredAt v now
  · obtain ⟨v, rfl, hv⟩ := hexp
    rw [decodeAndReap_expired hv] at h
    obtain ⟨-, -, h⟩ := Call.result_bind_eq_ok.mp h
    cases h
    exact logicalValue_of_expired hv
  · rw [decodeAndReap_live (fun v hv hlive => hexp ⟨v, hv, hlive⟩)] at h
    exact h

theorem fetchLocal_ok {flt : Faults} {sm : LmdbStateMachine} {key : Bytes}
    {out : Option Bytes} {now : UInt64} (h : (Db.fetchLocal flt sm key now).result = .ok out) :
    logicalValue (sm.kv.get key) now = .ok out := by
  obtain ⟨raw, hraw, h⟩ := Call.result_bind_eq_ok.mp h
  rw [engineResult, Call.result_ofExcept, mapError_eq_ok] at hraw
  rw [← get_eq_ok hraw]
  exact decodeAndReap_ok h

/-- **A point read returns the logical value of its key.** -/
theorem fetchLocal_noFaults (sm : LmdbStateMachine) {key : Bytes} (hk : key ≠ [])
    (now : UInt64) :
    (Db.fetchLocal Faults.none sm key now).result = logicalValue (sm.kv.get key) now := by
  unfold Db.fetchLocal engineResult
  rw [get_noFaults sm hk, Except.mapError, Call.ok_bind, Faults.skip_none]
  exact decodeAndReap_noFaults sm hk _ now

end DLmdb
