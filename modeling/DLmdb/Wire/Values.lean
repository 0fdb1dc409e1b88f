import DLmdb.Framework.FixedWidth
import DLmdb.Lmdb.Database

/-!
# The value envelope

Every stored value begins with a tag byte: a raw payload, or an expiry time (eight
bytes, big-endian) and a payload. `decode` takes exactly the encodings, and the
slices it takes on the way are all within its argument.
-/

namespace DLmdb

open Framework Lmdb

def tagRaw : UInt8 := 0x00
def tagTtl : UInt8 := 0x01

/-- Tag and `expires_at`. -/
def ttlHeaderLen : ℕ := 1 + 8

inductive Value where
  | raw (payload : Bytes)
  | ttl (expiresAt : UInt64) (payload : Bytes)
deriving DecidableEq

namespace Value

def encodeRaw (payload : Bytes) : Bytes := tagRaw :: payload

def encodeTtl (payload : Bytes) : Option UInt64 → Bytes
  | none => encodeRaw payload
  | some ts => tagTtl :: (toBeBytes ts ++ payload)

/-- `Value::decode`; the error carries nothing. -/
def decode (bytes : Bytes) : Except Unit Value :=
  match bytes with
  | [] => .error ()
  | tag :: rest =>
      if tag = tagRaw then
        .ok (.raw rest)
      else if tag = tagTtl then
        if bytes.length < ttlHeaderLen then .error ()
        else .ok (.ttl (fromBeBytes (rest.take 8)) (bytes.drop ttlHeaderLen))
      else
        .error ()

/-- `&bytes[lo..hi]`; `none` is the panic of a range that is out of bounds. -/
def slice (bytes : Bytes) (lo hi : ℕ) : Option Bytes :=
  if lo ≤ hi ∧ hi ≤ bytes.length then some ((bytes.take hi).drop lo) else none

/-- `u64::from_be_bytes(b.try_into().unwrap())`; `none` is the panic of the `unwrap`. -/
def tryFromBeBytes (b : Bytes) : Option UInt64 :=
  if b.length = 8 then some (fromBeBytes b) else none

/-- `Value::decode` with its indexing as written, so that a panic shows. -/
def decodeIndexed (bytes : Bytes) : Option (Except Unit Value) :=
  match bytes.head? with
  | none => return .error ()
  | some tag =>
      if tag = tagRaw then do
        let payload ← slice bytes 1 bytes.length
        return .ok (.raw payload)
      else if tag = tagTtl then
        if bytes.length < ttlHeaderLen then
          return .error ()
        else do
          let header ← slice bytes 1 9
          let expiresAt ← tryFromBeBytes header
          let payload ← slice bytes ttlHeaderLen bytes.length
          return .ok (.ttl expiresAt payload)
      else
        return .error ()

/-- The bytes of a value. -/
def encode : Value → Bytes
  | .raw payload => encodeRaw payload
  | .ttl expiresAt payload => encodeTtl payload (some expiresAt)

theorem decode_encodeRaw (payload : Bytes) : decode (encodeRaw payload) = .ok (.raw payload) := rfl

theorem decode_encodeTtl (payload : Bytes) (ts : UInt64) :
    decode (encodeTtl payload (some ts)) = .ok (.ttl ts payload) := by
  have hlen : (toBeBytes ts).length = 8 := length_toBeBytes ts
  have hlong : ¬ (tagTtl :: (toBeBytes ts ++ payload)).length < ttlHeaderLen := by
    rw [List.length_cons, List.length_append, hlen, ttlHeaderLen]
    omega
  have htake : (toBeBytes ts ++ payload).take 8 = toBeBytes ts := List.take_left' hlen
  have hdrop : (tagTtl :: (toBeBytes ts ++ payload)).drop ttlHeaderLen = payload :=
    List.drop_left' hlen
  have htag : tagTtl ≠ tagRaw := by decide
  simp only [encodeTtl, decode, if_neg htag, if_neg hlong, if_true, htake, hdrop,
    fromBeBytes_toBeBytes]

/-- **What decodes is an encoding**, and every encoding decodes to its value. -/
theorem decode_eq_ok {bytes : Bytes} {v : Value} : decode bytes = .ok v ↔ v.encode = bytes := by
  constructor
  · intro h
    unfold decode at h
    split at h
    · cases h
    · rename_i tag rest
      split at h
      · rename_i htag
        cases h
        rw [htag]
        rfl
      · split at h
        · rename_i htag
          split at h
          · cases h
          · rename_i hlen
            cases h
            have h8 : (rest.take 8).length = 8 := by
              rw [List.length_take]
              rw [List.length_cons, ttlHeaderLen] at hlen
              omega
            show tagTtl :: (toBeBytes (fromBeBytes (rest.take 8)) ++ rest.drop 8) = tag :: rest
            rw [toBeBytes_fromBeBytes h8, List.take_append_drop, htag]
        · cases h
  · rintro rfl
    cases v with
    | raw payload => exact decode_encodeRaw payload
    | ttl expiresAt payload => exact decode_encodeTtl payload expiresAt

theorem encode_injective : Function.Injective encode := by
  intro v v' h
  have hv : decode v.encode = .ok v := decode_eq_ok.mpr rfl
  have hv' : decode v.encode = .ok v' := decode_eq_ok.mpr h.symm
  rw [hv] at hv'
  exact Except.ok.inj hv'

/-! ## Indexing -/

theorem slice_eq_some {bytes : Bytes} {lo hi : ℕ} (hlo : lo ≤ hi) (hhi : hi ≤ bytes.length) :
    slice bytes lo hi = some ((bytes.take hi).drop lo) := if_pos ⟨hlo, hhi⟩

/-- A slice up to the end. -/
theorem slice_to_end {bytes : Bytes} {lo : ℕ} (hlo : lo ≤ bytes.length) :
    slice bytes lo bytes.length = some (bytes.drop lo) := by
  rw [slice_eq_some hlo le_rfl, List.take_length]

/-- The eight bytes after the tag are there once the length check passed. -/
theorem tryFromBeBytes_header {tag : UInt8} {rest : Bytes} (h : 8 ≤ rest.length) :
    tryFromBeBytes (((tag :: rest).take 9).drop 1) = some (fromBeBytes (rest.take 8)) := by
  have h8 : (rest.take 8).length = 8 := by
    rw [List.length_take]
    omega
  rw [List.take_succ_cons, List.drop_succ_cons, List.drop_zero, tryFromBeBytes, if_pos h8]

/-- No slice of `decode` panics, on any bytes. -/
theorem decodeIndexed_eq (bytes : Bytes) : decodeIndexed bytes = some (decode bytes) := by
  cases bytes with
  | nil => rfl
  | cons tag rest =>
      simp only [decodeIndexed, decode, List.head?_cons]
      by_cases hraw : tag = tagRaw
      · rw [if_pos hraw, if_pos hraw, slice_to_end (by simp)]
        rfl
      rw [if_neg hraw, if_neg hraw]
      by_cases httl : tag = tagTtl
      swap
      · rw [if_neg httl, if_neg httl]
        rfl
      rw [if_pos httl, if_pos httl]
      by_cases hlen : (tag :: rest).length < ttlHeaderLen
      · rw [if_pos hlen, if_pos hlen]
        rfl
      rw [if_neg hlen, if_neg hlen]
      have hlong : ttlHeaderLen ≤ (tag :: rest).length := Nat.not_lt.mp hlen
      have hrest : 8 ≤ rest.length := Nat.le_of_succ_le_succ hlong
      have hheader : slice (tag :: rest) 1 9 = some (((tag :: rest).take 9).drop 1) :=
        slice_eq_some (by decide) hlong
      rw [hheader, slice_to_end hlong]
      simp only [Option.bind_eq_bind, Option.bind_some, tryFromBeBytes_header hrest]
      rfl

/-! ## The envelope as a whole -/

/-- **The envelope is a bijection onto its format.** What is encoded decodes to
itself; what decodes is the encoding of its value, and nothing else is; no two
values share an encoding, and no slice is out of bounds. -/
theorem value_envelope_bijection :
    (∀ payload, decode (encodeRaw payload) = .ok (.raw payload)) ∧
      (∀ payload ts, decode (encodeTtl payload (some ts)) = .ok (.ttl ts payload)) ∧
      (∀ payload, decode (encodeTtl payload none) = .ok (.raw payload)) ∧
      (∀ b, (∃ v, decode b = .ok v) ↔
        (∃ payload, b = encodeRaw payload) ∨ ∃ payload ts, b = encodeTtl payload (some ts)) ∧
      (∀ b v, decode b = .ok v → v.encode = b) ∧
      Function.Injective encode ∧ ∀ b, decodeIndexed b = some (decode b) := by
  refine ⟨decode_encodeRaw, decode_encodeTtl, decode_encodeRaw, fun b => ?_,
    fun b v => decode_eq_ok.mp, encode_injective, decodeIndexed_eq⟩
  constructor
  · rintro ⟨v, hv⟩
    have henc := decode_eq_ok.mp hv
    cases v with
    | raw payload => exact Or.inl ⟨payload, henc.symm⟩
    | ttl expiresAt payload => exact Or.inr ⟨payload, expiresAt, henc.symm⟩
  · rintro (⟨payload, rfl⟩ | ⟨payload, ts, rfl⟩)
    · exact ⟨_, decode_encodeRaw payload⟩
    · exact ⟨_, decode_encodeTtl payload ts⟩

end Value

end DLmdb
