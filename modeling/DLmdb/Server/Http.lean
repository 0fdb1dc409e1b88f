import DLmdb.Db.Writes

/-!
# `PUT /kv/{key}`

Three limits stand in front of a value that comes over HTTP: the body limit layer that
`serve` installs, the limit of the `Bytes` extractor, and that of `db.put`. The first is
computed from the configured maximum, the second is the library's own default, since
the router sets no other.
-/

namespace DLmdb.Http

open Lmdb

/-! ## The code -/

/-- `usize`: the default map size of 10 GiB needs 64 bits. -/
abbrev Usize := UInt64

def bodyLimitOverheadBytes : Usize := 1024

/-- `body_limit` of `serve`, as a release build computes it. -/
def bodyLimit (maxValueBytes : Usize) : Usize := maxValueBytes + bodyLimitOverheadBytes

/-- A debug build panics on this sum. -/
def BodyLimitOverflows (maxValueBytes : Usize) : Prop :=
  2 ^ 64 ≤ maxValueBytes.toNat + bodyLimitOverheadBytes.toNat

/-- What a router says about the limit of its extractors. -/
inductive DefaultBodyLimit where
  | unset
  | disabled
  | max (limit : Usize)

/-- The limit of an extractor when the router says nothing. -/
def extractorDefaultBytes : ℕ := 2097152

/-- The two checks of the HTTP libraries: which bodies they let through. -/
structure TransportLimits where
  layer : Usize → Bytes → Bool
  extractor : DefaultBodyLimit → Bytes → Bool
  layer_iff : ∀ limit body, layer limit body = true ↔ body.length ≤ limit.toNat
  unset_iff : ∀ body, extractor .unset body = true ↔ body.length ≤ extractorDefaultBytes
  disabled_iff : ∀ body, extractor .disabled body = true
  max_iff : ∀ limit body, extractor (.max limit) body = true ↔ body.length ≤ limit.toNat

/-- `ValidKey`: the path segment as decoded, if it is UTF-8. -/
def validKey : Option String → Except String String
  | none => .error "invalid key encoding"
  | some key =>
      if key.toList = [] then .error "key must not be empty"
      else if '/' ∈ key.toList then .error "key must not contain '/'"
      else .ok key

inductive PutResponse where
  | payloadTooLarge
  | badRequest (text : String)
  | fromDb (result : Except Error Command)

/-- The limits of the node behind the server. -/
def nodeConfig (maxKeyBytes : ℕ) (maxValueBytes : Usize) : DLmdbConfig :=
  ⟨maxKeyBytes, maxValueBytes.toNat⟩

/-- `put_handler`, behind its extractors, which run in order. -/
def putHandler (lib : TransportLimits) (routerLimit : DefaultBodyLimit) (cfg : DLmdbConfig)
    (path : Option String) (body : Bytes) : PutResponse :=
  match validKey path with
  | .error text => .badRequest text
  | .ok key =>
      if lib.extractor routerLimit body then .fromDb (Db.put cfg (utf8 key) body)
      else .payloadTooLarge

/-- A `PUT /kv/{key}` through the router of `serve`. -/
def servePut (lib : TransportLimits) (maxKeyBytes : ℕ) (maxValueBytes : Usize)
    (path : Option String) (body : Bytes) : PutResponse :=
  if lib.layer (bodyLimit maxValueBytes) body then
    putHandler lib .unset (nodeConfig maxKeyBytes maxValueBytes) path body
  else .payloadTooLarge

/-! ## When a value gets through -/

/-- Every value up to the configured maximum gets past the transport: it is not refused
for its size, and with a valid key it is handed to `db.put`. -/
structure TakesEveryValue (lib : TransportLimits) (maxKeyBytes : ℕ) (maxValueBytes : Usize) :
    Prop where
  noOverflow : ¬ BodyLimitOverflows maxValueBytes
  notRefused : ∀ path body, body.length ≤ maxValueBytes.toNat →
    servePut lib maxKeyBytes maxValueBytes path body ≠ .payloadTooLarge
  reachesPut : ∀ path key body, body.length ≤ maxValueBytes.toNat → validKey path = .ok key →
    servePut lib maxKeyBytes maxValueBytes path body =
      .fromDb (Db.put (nodeConfig maxKeyBytes maxValueBytes) (utf8 key) body)

theorem bodyLimit_toNat {maxValueBytes : Usize} (h : ¬ BodyLimitOverflows maxValueBytes) :
    (bodyLimit maxValueBytes).toNat = maxValueBytes.toNat + 1024 := by
  have hlt : maxValueBytes.toNat + bodyLimitOverheadBytes.toNat < 2 ^ 64 := Nat.not_le.mp h
  rw [bodyLimit, UInt64.toNat_add, Nat.mod_eq_of_lt hlt]
  rfl

/-- The sum cannot overflow below the extractor's default. -/
theorem not_overflows_of_le {maxValueBytes : Usize}
    (h : maxValueBytes.toNat ≤ extractorDefaultBytes) : ¬ BodyLimitOverflows maxValueBytes := by
  intro hover
  have hsum : 2 ^ 64 ≤ maxValueBytes.toNat + 1024 := hover
  rw [extractorDefaultBytes] at h
  omega

/-- Past the two transport limits, the response is the handler's. -/
theorem servePut_of_fits {lib : TransportLimits} {maxKeyBytes : ℕ} {maxValueBytes : Usize}
    {body : Bytes} (hlayer : body.length ≤ (bodyLimit maxValueBytes).toNat)
    (hextractor : body.length ≤ extractorDefaultBytes) (path : Option String) :
    servePut lib maxKeyBytes maxValueBytes path body =
      match validKey path with
      | .error text => .badRequest text
      | .ok key => .fromDb (Db.put (nodeConfig maxKeyBytes maxValueBytes) (utf8 key) body) := by
  rw [servePut, if_pos ((lib.layer_iff _ _).mpr hlayer), putHandler]
  cases validKey path with
  | error text => rfl
  | ok key => exact if_pos ((lib.unset_iff _).mpr hextractor)

/-- A value up to a maximum below that default is past both. -/
theorem servePut_of_le {lib : TransportLimits} {maxKeyBytes : ℕ} {maxValueBytes : Usize}
    {body : Bytes} (hbody : body.length ≤ maxValueBytes.toNat)
    (hmax : maxValueBytes.toNat ≤ extractorDefaultBytes) (path : Option String) :
    servePut lib maxKeyBytes maxValueBytes path body =
      match validKey path with
      | .error text => .badRequest text
      | .ok key => .fromDb (Db.put (nodeConfig maxKeyBytes maxValueBytes) (utf8 key) body) := by
  refine servePut_of_fits ?_ (hbody.trans hmax) path
  rw [bodyLimit_toNat (not_overflows_of_le hmax)]
  omega

/-- A body over the extractor's default is refused, whatever was configured. -/
theorem servePut_of_long {lib : TransportLimits} {maxKeyBytes : ℕ} {maxValueBytes : Usize}
    {path : Option String} {key : String} {body : Bytes} (hkey : validKey path = .ok key)
    (hlong : extractorDefaultBytes < body.length) :
    servePut lib maxKeyBytes maxValueBytes path body = .payloadTooLarge := by
  have hextractor : ¬ lib.extractor .unset body = true := by
    rw [lib.unset_iff]
    omega
  rw [servePut]
  split
  · simp only [putHandler, hkey]
    exact if_neg hextractor
  · rfl

/-- **Every accepted value gets through exactly when the configured maximum is at most the
extractor's default.** -/
theorem takes_every_value_iff (lib : TransportLimits) (maxKeyBytes : ℕ)
    (maxValueBytes : Usize) :
    TakesEveryValue lib maxKeyBytes maxValueBytes ↔
      maxValueBytes.toNat ≤ extractorDefaultBytes := by
  constructor
  · intro h
    by_contra hmax
    -- one byte more than the extractor takes
    have hlen : (List.replicate (extractorDefaultBytes + 1) (0 : UInt8)).length =
        extractorDefaultBytes + 1 := List.length_replicate
    have hfits : (List.replicate (extractorDefaultBytes + 1) (0 : UInt8)).length ≤
        maxValueBytes.toNat := by
      rw [hlen]
      omega
    refine h.notRefused (some "k") _ hfits ?_
    refine servePut_of_long (by decide : validKey (some "k") = .ok "k") ?_
    rw [hlen]
    exact Nat.lt_succ_self _
  · intro hmax
    refine ⟨not_overflows_of_le hmax, ?_, ?_⟩
    · intro path body hbody
      rw [servePut_of_le hbody hmax]
      cases validKey path <;> nofun
    · intro path key body hbody hkey
      rw [servePut_of_le hbody hmax, hkey]

/-- The checks as the libraries document them. -/
def documentedLimits : TransportLimits where
  layer limit body := decide (body.length ≤ limit.toNat)
  extractor routerLimit body :=
    match routerLimit with
    | .unset => decide (body.length ≤ extractorDefaultBytes)
    | .disabled => true
    | .max limit => decide (body.length ≤ limit.toNat)
  layer_iff := by simp
  unset_iff := by simp
  disabled_iff := by simp
  max_iff := by simp

/-- The default maximum, of one MiB. -/
theorem takes_every_value_default :
    TakesEveryValue documentedLimits defaultMaxKeyBytes 1048576 ↔
      (1048576 : Usize).toNat ≤ extractorDefaultBytes :=
  takes_every_value_iff documentedLimits defaultMaxKeyBytes 1048576

/-- With a maximum of 3 MiB, a value of 2 MiB and a byte is refused before `db.put`. -/
theorem large_value_refused :
    (List.replicate 2097153 (0 : UInt8)).length ≤ (3145728 : Usize).toNat ∧
      servePut documentedLimits defaultMaxKeyBytes 3145728 (some "k")
        (List.replicate 2097153 0) = .payloadTooLarge := by
  have hlen : (List.replicate 2097153 (0 : UInt8)).length = 2097153 := List.length_replicate
  constructor
  · rw [hlen]
    decide
  · refine servePut_of_long (by decide : validKey (some "k") = .ok "k") ?_
    rw [hlen]
    decide

end DLmdb.Http
