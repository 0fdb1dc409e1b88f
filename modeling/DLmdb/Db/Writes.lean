import DLmdb.Db.Reads
import DLmdb.StateMachine.Apply

/-!
# Writes of `DLmdb`

Six calls turn client data into commands for Raft. Two of them check their sizes
first, against limits of their own: `validate_key` lets an empty key and one of 512
bytes pass, LMDB neither. The other four check nothing. What an accepted command
then does to the chunk it is applied in is decided by its keys alone
(`submittedChunk_applies_iff`).
-/

namespace DLmdb

open Framework Lmdb

/-! ## The code -/

/-- The size limits of `DLmdbConfig`. -/
structure DLmdbConfig where
  maxKeyBytes : ℕ
  maxValueBytes : ℕ

def defaultMaxKeyBytes : ℕ := 512
def defaultMaxValueBytes : ℕ := 1024 * 1024

/-- The limits of `DLmdbConfig::new`. -/
def DLmdbConfig.default : DLmdbConfig := ⟨defaultMaxKeyBytes, defaultMaxValueBytes⟩

def validateKey (key : Bytes) (max : ℕ) : Except Error Unit :=
  if key.length > max then .error (.keyTooLarge key.length) else .ok ()

def validateValue (value : Bytes) (max : ℕ) : Except Error Unit :=
  if value.length > max then .error (.valueTooLarge value.length) else .ok ()

namespace Db

def put (cfg : DLmdbConfig) (key value : Bytes) : Except Error Command := do
  validateKey key cfg.maxKeyBytes
  validateValue value cfg.maxValueBytes
  return .insert key (Value.encodeRaw value) none

/-- `put_with_ttl` at clock reading `now`; `u64` addition wraps in a release build. -/
def putWithTtl (cfg : DLmdbConfig) (now : UInt64) (key value : Bytes) (ttlSecs : UInt64) :
    Except Error Command := do
  validateKey key cfg.maxKeyBytes
  validateValue value cfg.maxValueBytes
  let expiresAt := now + ttlSecs
  return .insert key (Value.encodeTtl value (some expiresAt)) none

def encodeOp : BatchOp → BatchOp
  | .insert key value => .insert key (Value.encodeRaw value)
  | .delete key => .delete key

def batch (ops : List BatchOp) : Except Error Command := .ok (.batch (ops.map encodeOp))

def delete (key : Bytes) : Except Error Command := .ok (.delete key)

def putIfAbsent (key value : Bytes) : Except Error Command :=
  .ok (.compareAndSwap key none (Value.encodeRaw value))

def compareAndSwap (key : Bytes) (expected : Option Bytes) (newValue : Bytes) :
    Except Error Command :=
  let encExpected := expected.map Value.encodeRaw
  let encNew := Value.encodeRaw newValue
  .ok (.compareAndSwap key encExpected encNew)

end Db

/-- A write call with its arguments. -/
inductive WriteCall where
  | put (key value : Bytes)
  | putWithTtl (now : UInt64) (key value : Bytes) (ttlSecs : UInt64)
  | batch (ops : List BatchOp)
  | delete (key : Bytes)
  | putIfAbsent (key value : Bytes)
  | compareAndSwap (key : Bytes) (expected : Option Bytes) (newValue : Bytes)
deriving DecidableEq

/-- The command the call hands to the Raft client, if its guards let it. -/
def WriteCall.submit (cfg : DLmdbConfig) : WriteCall → Except Error Command
  | .put key value => Db.put cfg key value
  | .putWithTtl now key value ttlSecs => Db.putWithTtl cfg now key value ttlSecs
  | .batch ops => Db.batch ops
  | .delete key => Db.delete key
  | .putIfAbsent key value => Db.putIfAbsent key value
  | .compareAndSwap key expected newValue => Db.compareAndSwap key expected newValue

/-- A call of some client, at its place in the log. -/
structure ClientWrite where
  index : UInt64
  term : UInt64
  call : WriteCall

/-- The entry of an accepted call. -/
def ClientWrite.entry? (cfg : DLmdbConfig) (w : ClientWrite) : Option ApplyEntry :=
  match w.call.submit cfg with
  | .ok command => some ⟨w.index, w.term, command⟩
  | .error _ => none

/-- The chunk that the accepted ones among the calls make. -/
def submittedChunk (cfg : DLmdbConfig) (writes : List ClientWrite) : List ApplyEntry :=
  writes.filterMap (ClientWrite.entry? cfg)

/-! ## The guards -/

theorem validateKey_eq_ok {key : Bytes} {max : ℕ} {u : Unit} :
    validateKey key max = .ok u ↔ key.length ≤ max := by
  unfold validateKey
  split
  · rename_i h
    simp only [reduceCtorEq, false_iff]
    omega
  · rename_i h
    simp only [true_iff]
    omega

theorem validateValue_eq_ok {value : Bytes} {max : ℕ} {u : Unit} :
    validateValue value max = .ok u ↔ value.length ≤ max := by
  unfold validateValue
  split
  · rename_i h
    simp only [reduceCtorEq, false_iff]
    omega
  · rename_i h
    simp only [true_iff]
    omega

/-- The two guards in front of a command. -/
theorem guarded_eq_ok {cfg : DLmdbConfig} {key value : Bytes} {c c' : Command} :
    (do
      validateKey key cfg.maxKeyBytes
      validateValue value cfg.maxValueBytes
      return c' : Except Error Command) = .ok c ↔
      key.length ≤ cfg.maxKeyBytes ∧ value.length ≤ cfg.maxValueBytes ∧ c = c' := by
  constructor
  · intro h
    obtain ⟨_, hk, h⟩ := bind_eq_ok.mp h
    obtain ⟨_, hv, h⟩ := bind_eq_ok.mp h
    cases h
    exact ⟨validateKey_eq_ok.mp hk, validateValue_eq_ok.mp hv, rfl⟩
  · rintro ⟨hk, hv, rfl⟩
    refine bind_eq_ok.mpr ⟨(), validateKey_eq_ok.mpr hk, ?_⟩
    exact bind_eq_ok.mpr ⟨(), validateValue_eq_ok.mpr hv, rfl⟩

theorem put_eq_ok {cfg : DLmdbConfig} {key value : Bytes} {c : Command} :
    Db.put cfg key value = .ok c ↔
      key.length ≤ cfg.maxKeyBytes ∧ value.length ≤ cfg.maxValueBytes ∧
        c = .insert key (Value.encodeRaw value) none := guarded_eq_ok

theorem putWithTtl_eq_ok {cfg : DLmdbConfig} {now : UInt64} {key value : Bytes}
    {ttlSecs : UInt64} {c : Command} :
    Db.putWithTtl cfg now key value ttlSecs = .ok c ↔
      key.length ≤ cfg.maxKeyBytes ∧ value.length ≤ cfg.maxValueBytes ∧
        c = .insert key (Value.encodeTtl value (some (now + ttlSecs))) none := guarded_eq_ok

/-- The keys of the call are ones LMDB takes where the call may store them, and not
empty where it only deletes or compares. -/
def WriteCall.KeysFit : WriteCall → Prop
  | .put key _ => ValidKey key
  | .putWithTtl _ key _ _ => ValidKey key
  | .batch ops => ∀ op ∈ ops, op.Storable
  | .delete key => key ≠ []
  | .putIfAbsent key _ => ValidKey key
  | .compareAndSwap key expected _ => key ≠ [] ∧ (expected = none → ValidKey key)

theorem encodeOp_storable (op : BatchOp) : (Db.encodeOp op).Storable ↔ op.Storable := by
  cases op <;> rfl

theorem ne_nil_of_validKey {key : Bytes} (h : ValidKey key) : key ≠ [] := by
  rintro rfl
  exact absurd h.1 (by decide)

/-- An accepted command is storable exactly when the keys of its call fit. -/
theorem storable_iff_keysFit {cfg : DLmdbConfig} {w : WriteCall} {c : Command}
    (h : w.submit cfg = .ok c) : c.Storable ↔ w.KeysFit := by
  cases w with
  | put key value =>
      obtain ⟨-, -, rfl⟩ := put_eq_ok.mp h
      rfl
  | putWithTtl now key value ttlSecs =>
      obtain ⟨-, -, rfl⟩ := putWithTtl_eq_ok.mp h
      rfl
  | batch ops =>
      cases h
      show (∀ op ∈ ops.map Db.encodeOp, op.Storable) ↔ ∀ op ∈ ops, op.Storable
      simp only [List.forall_mem_map, encodeOp_storable]
  | delete key =>
      cases h
      rfl
  | putIfAbsent key value =>
      cases h
      constructor
      · rintro ⟨-, hvalid⟩
        exact hvalid rfl
      · intro hvalid
        exact ⟨ne_nil_of_validKey hvalid, fun _ => hvalid⟩
  | compareAndSwap key expected newValue =>
      cases h
      show (key ≠ [] ∧ (expected.map Value.encodeRaw = none → ValidKey key)) ↔
        (key ≠ [] ∧ (expected = none → ValidKey key))
      rw [Option.map_eq_none_iff]

/-! ## The expiry of `put_with_ttl` -/

/-- The stored value is live for `ttl_secs` from `now` on, as numbers, for point reads and
for scans. -/
structure ExactExpiry (now ttlSecs : UInt64) (payload stored : Bytes) : Prop where
  read : ∀ t, now ≤ t → (decodeLiveValue stored t = .ok (.present payload) ↔
    t.toNat < now.toNat + ttlSecs.toNat)
  scan : ∀ t, now ≤ t → (decodeForScan t stored = some payload ↔
    t.toNat < now.toNat + ttlSecs.toNat)

/-- The two comparisons of `db.rs` are one. -/
theorem live_encodeTtl_iff (payload : Bytes) (ts t : UInt64) :
    (decodeLiveValue (Value.encodeTtl payload (some ts)) t = .ok (.present payload) ↔ t < ts) ∧
      (decodeForScan t (Value.encodeTtl payload (some ts)) = some payload ↔ t < ts) := by
  constructor
  · rw [decodeLiveValue_encodeTtl]
    by_cases h : ts ≤ t
    · simp [h, UInt64.not_lt.mpr h]
    · simp [h, UInt64.not_le.mp h]
  · rw [decodeForScan, Value.decode_encodeTtl]
    by_cases h : ts > t
    · simp [h]
    · simp [h]

theorem toNat_add_of_lt {a b : UInt64} (h : a.toNat + b.toNat < 2 ^ 64) :
    (a + b).toNat = a.toNat + b.toNat := by
  rw [UInt64.toNat_add, Nat.mod_eq_of_lt h]

/-- **A ttl is kept to the second exactly when `now + ttl_secs` fits in a `u64`**, and up to
there a longer one never expires earlier. Beyond, the sum wraps to a time in the past. -/
theorem putWithTtl_exact_iff {cfg : DLmdbConfig} {now ttlSecs : UInt64} {key payload : Bytes}
    {c : Command} (h : Db.putWithTtl cfg now key payload ttlSecs = .ok c) :
    ∃ stored, c = .insert key stored none ∧
      (ExactExpiry now ttlSecs payload stored ↔ now.toNat + ttlSecs.toNat < 2 ^ 64) ∧
      (now.toNat + ttlSecs.toNat < 2 ^ 64 → ∀ shorter ≤ ttlSecs, ∀ t,
        decodeLiveValue (Value.encodeTtl payload (some (now + shorter))) t =
            .ok (.present payload) →
          decodeLiveValue stored t = .ok (.present payload)) := by
  obtain ⟨-, -, rfl⟩ := putWithTtl_eq_ok.mp h
  refine ⟨_, rfl, ⟨?_, ?_⟩, ?_⟩
  · intro hexact
    by_contra hwraps
    -- at time `now` itself the value reads as expired
    have hlive := (hexact.read now (UInt64.le_refl now)).mpr (by
      have := now.toNat_lt
      omega)
    rw [(live_encodeTtl_iff payload _ now).1, UInt64.lt_iff_toNat_lt, UInt64.toNat_add] at hlive
    have h₁ := now.toNat_lt
    have h₂ := ttlSecs.toNat_lt
    omega
  · intro hfits
    have hsum := toNat_add_of_lt hfits
    constructor
    · intro t _
      rw [(live_encodeTtl_iff payload _ t).1, UInt64.lt_iff_toNat_lt, hsum]
    · intro t _
      rw [(live_encodeTtl_iff payload _ t).2, UInt64.lt_iff_toNat_lt, hsum]
  · intro hfits shorter hle t hlive
    rw [(live_encodeTtl_iff payload _ t).1, UInt64.lt_iff_toNat_lt] at hlive ⊢
    rw [UInt64.le_iff_toNat_le] at hle
    rw [toNat_add_of_lt (by omega)] at hlive
    rw [toNat_add_of_lt hfits]
    omega

/-- A lifetime of one hour. -/
theorem putWithTtl_exact_hour :
    ∃ stored, (.insert [97] [1, 0, 0, 0, 0, 0, 0, 14, 116, 5] none : Command) =
        .insert [97] stored none ∧
      (ExactExpiry 100 3600 [5] stored ↔
        (100 : UInt64).toNat + (3600 : UInt64).toNat < 2 ^ 64) ∧
      ((100 : UInt64).toNat + (3600 : UInt64).toNat < 2 ^ 64 → ∀ shorter ≤ (3600 : UInt64), ∀ t,
        decodeLiveValue (Value.encodeTtl [5] (some (100 + shorter))) t = .ok (.present [5]) →
          decodeLiveValue stored t = .ok (.present [5])) := by
  have hput : Db.putWithTtl .default 100 [97] [5] 3600 =
      .ok (.insert [97] [1, 0, 0, 0, 0, 0, 0, 14, 116, 5] none) := by decide
  exact putWithTtl_exact_iff hput

/-- The longest lifetime there is, from time 1: expired from the start. -/
theorem putWithTtl_wraps :
    ∃ stored, Db.putWithTtl .default 1 [97] [5] 0xffffffffffffffff =
        .ok (.insert [97] stored none) ∧
      decodeLiveValue stored 1 = .ok .expired ∧ decodeForScan 1 stored = none ∧
      ¬ ExactExpiry 1 0xffffffffffffffff [5] stored := by
  refine ⟨[1, 0, 0, 0, 0, 0, 0, 0, 0, 5], by decide, by decide, by decide, ?_⟩
  intro hexact
  have hlive := (hexact.read 1 (UInt64.le_refl 1)).mpr (by decide)
  exact absurd hlive (by decide)

/-! ## Which chunks go through -/

/-- The entries of a chunk are the accepted calls. -/
theorem mem_submittedChunk {cfg : DLmdbConfig} {writes : List ClientWrite} {e : ApplyEntry} :
    e ∈ submittedChunk cfg writes ↔
      ∃ w ∈ writes, w.call.submit cfg = .ok e.command ∧ e.index = w.index ∧ e.term = w.term := by
  have hentry : ∀ w : ClientWrite, w.entry? cfg = some e ↔
      w.call.submit cfg = .ok e.command ∧ e.index = w.index ∧ e.term = w.term := by
    intro w
    obtain ⟨index, term, command⟩ := e
    unfold ClientWrite.entry?
    cases w.call.submit cfg with
    | error err => simp
    | ok c =>
        simp only [Option.some.injEq, ApplyEntry.mk.injEq, Except.ok.injEq]
        constructor
        · rintro ⟨rfl, rfl, rfl⟩
          exact ⟨rfl, rfl, rfl⟩
        · rintro ⟨rfl, rfl, rfl⟩
          exact ⟨rfl, rfl, rfl⟩
  simp only [submittedChunk, List.mem_filterMap, hentry]

theorem submittedChunk_storable_iff {cfg : DLmdbConfig} {writes : List ClientWrite} :
    (∀ e ∈ submittedChunk cfg writes, e.command.Storable) ↔
      ∀ w ∈ writes, (∃ c, w.call.submit cfg = .ok c) → w.call.KeysFit := by
  constructor
  · rintro h w hw ⟨c, hc⟩
    have hmem : (⟨w.index, w.term, c⟩ : ApplyEntry) ∈ submittedChunk cfg writes :=
      mem_submittedChunk.mpr ⟨w, hw, hc, rfl, rfl⟩
    exact (storable_iff_keysFit hc).mp (h _ hmem)
  · intro h e he
    obtain ⟨w, hw, hc, -⟩ := mem_submittedChunk.mp he
    exact (storable_iff_keysFit hc).mpr (h w hw ⟨e.command, hc⟩)

/-- **A chunk of accepted commands is applied exactly when the keys of its calls fit**,
whatever the store holds: one key that does not fit fails the entries of all
clients in the chunk. -/
theorem submittedChunk_applies_iff (cfg : DLmdbConfig) (writes : List ClientWrite)
    (sm : LmdbStateMachine) :
    (∃ rs, (applyChunk Faults.none sm (submittedChunk cfg writes)).result = .ok rs) ↔
      ∀ w ∈ writes, (∃ c, w.call.submit cfg = .ok c) → w.call.KeysFit := by
  rw [← submittedChunk_storable_iff]
  constructor
  · rintro ⟨rs, hrs⟩
    exact (applyChunk_applied hrs).storable
  · exact applyChunk_noFaults sm

/-- A key one byte longer than LMDB takes, and as long as `validate_key` lets it be. -/
def longKey : Bytes := List.replicate 512 107

/-- A `put` that fits and one of `longKey`, both accepted under the default limits: the
chunk fails in every state. -/
theorem long_key_fails_chunk :
    let writes : List ClientWrite := [⟨1, 1, .put [8] [1]⟩, ⟨2, 1, .put longKey [1]⟩]
    (∀ w ∈ writes, ∃ c, w.call.submit .default = .ok c) ∧
      ∀ sm, ¬ ∃ rs, (applyChunk Faults.none sm (submittedChunk .default writes)).result = .ok rs := by
  intro writes
  have hlen : longKey.length = 512 := List.length_replicate
  have hlong : Db.put .default longKey [1] = .ok (.insert longKey [0, 1] none) :=
    put_eq_ok.mpr ⟨Nat.le_of_eq hlen, by decide, rfl⟩
  constructor
  · intro w hw
    rcases List.mem_cons.mp hw with rfl | hw
    · exact ⟨.insert [8] [0, 1] none, put_eq_ok.mpr ⟨by decide, by decide, rfl⟩⟩
    · rw [List.mem_singleton.mp hw]
      exact ⟨.insert longKey [0, 1] none, hlong⟩
  · rintro sm ⟨rs, hrs⟩
    have hfit := submittedChunk_storable_iff.mp (applyChunk_applied hrs).storable
      ⟨2, 1, .put longKey [1]⟩ (by simp [writes]) ⟨_, hlong⟩
    have hvalid : ValidKey longKey := hfit
    rw [ValidKey, hlen] at hvalid
    exact absurd hvalid.2 (by decide)

end DLmdb
