import DLmdb.Framework.Text
import DLmdb.Server.Http

/-!
# Errors over HTTP

What a failed call of `DLmdb` becomes on the wire: a status, a JSON body, and for a write
sent to the wrong node a hint where the leader is and how long to wait. Extractors answer in
plain text; `normalize_error_body`, around everything, puts such an answer into the same
envelope.
-/

namespace DLmdb.Http

open Framework Lmdb

/-! ## The code -/

/-- `d_engine::ErrorCode`, as far as the server tells the codes apart. -/
inductive ErrorCode where
  | invalidRequest
  | notLeader
  | clusterUnavailable
  | proposeFailed
  | retryRequired
  | termOutdated
  | uncategorized
  | other (code : ℕ)
deriving DecidableEq

/-- `address` is the one the leader's peers use. -/
structure LeaderHint where
  leaderId : UInt32
  address : String
deriving DecidableEq

/-- `d_engine::ClientApiError`; the server names two of its variants. -/
inductive ClientApiError where
  | network (code : ErrorCode) (message : String) (retryAfterMs : Option UInt64)
      (leaderHint : Option LeaderHint)
  | business (code : ErrorCode) (message : String) (requiredAction : Option String)
  | other (code : ErrorCode) (message : String)
deriving DecidableEq

/-- `d_lmdb::Error`, all of it. -/
inductive DbError where
  | engine (e : EngineError)
  | client (e : ClientApiError)
  | lmdb (text : String)
  | io (text : String)
  | keyTooLarge (n : ℕ)
  | valueTooLarge (n : ℕ)
  | storage (text : String)
  | path (text : String)
  | configError (text : String)
deriving DecidableEq

/-- The errors that the calls of `db.rs` build themselves. -/
def DbError.ofError : Error → DbError
  | .engine e => .engine e
  | .keyTooLarge n => .keyTooLarge n
  | .valueTooLarge n => .valueTooLarge n
  | .storage text => .storage text

/-- `http::StatusCode`. -/
abbrev StatusCode := ℕ

namespace StatusCode

def ok : StatusCode := 200
def noContent : StatusCode := 204
def badRequest : StatusCode := 400
def notFound : StatusCode := 404
def methodNotAllowed : StatusCode := 405
def payloadTooLarge : StatusCode := 413
def internalServerError : StatusCode := 500
def serviceUnavailable : StatusCode := 503

def isClientError (status : StatusCode) : Bool := 400 ≤ status && status < 500
def isServerError (status : StatusCode) : Bool := 500 ≤ status && status < 600

end StatusCode

structure LeaderHintDto where
  leaderId : UInt32
  address : String
deriving DecidableEq

/-- The fields that are absent are not in the JSON. -/
structure ErrorBody where
  error : String
  leaderHint : Option LeaderHintDto
  traceId : Option String
deriving DecidableEq

structure HttpError where
  status : StatusCode
  body : ErrorBody
  retryAfterSecs : Option UInt64
deriving DecidableEq

/-- What stands before the last colon, or all of it. -/
def hostOf (address : List Char) : List Char :=
  match rsplitOnce ':' address with
  | some (host, _) => host
  | none => address

/-- `replace_port`: what follows the last colon becomes `port`. -/
def replacePort (address : List Char) (port : UInt16) : List Char :=
  hostOf address ++ ':' :: Nat.toDigits 10 port.toNat

/-- `rewrite_to_http_address`, with the port of this node if it was set. -/
def rewriteToHttpAddress (localHttpPort : Option UInt16) (raftAddress : String) : String :=
  match localHttpPort with
  | some port => String.ofList (replacePort raftAddress.toList port)
  | none => raftAddress

/-- `u64::div_ceil`. -/
def divCeil (a b : UInt64) : UInt64 := if a % b > 0 then a / b + 1 else a / b

/-- Milliseconds to seconds, rounded up; no header for no wait. -/
def retryAfterMsToSecs : Option UInt64 → Option UInt64
  | none => none
  | some ms => if ms = 0 then none else some (divCeil ms 1000)

/-- What the body of a 500 says. -/
def internalErrorCategory : DbError → String
  | .lmdb _ | .storage _ | .io _ => "storage error"
  | .engine _ => "cluster error"
  | .client (.business .uncategorized _ _) => "cluster error"
  | .configError _ | .path _ => "configuration error"
  | _ => "internal error"

namespace HttpError

def plain (status : StatusCode) (message : String) : HttpError :=
  ⟨status, ⟨message, none, none⟩, none⟩

def notFound : HttpError := plain .notFound "key not found"

/-- `From<d_lmdb::Error>`; `traceId` is the fresh UUID of an error that is only logged. -/
def ofDbError (localHttpPort : Option UInt16) (traceId : String) : DbError → HttpError
  -- the texts name the default limits, whatever is configured
  | .keyTooLarge n => plain .badRequest s!"key too large: {n} bytes (max 512)"
  | .valueTooLarge n => plain .badRequest s!"value too large: {n} bytes (max 1MB)"
  | .client (.business .invalidRequest message _) => plain .badRequest message
  | .client (.network .notLeader message retryAfterMs leaderHint) =>
      ⟨.serviceUnavailable,
        ⟨message, leaderHint.map fun h =>
          ⟨h.leaderId, rewriteToHttpAddress localHttpPort h.address⟩, none⟩,
        retryAfterMsToSecs retryAfterMs⟩
  | .client (.business .clusterUnavailable message _)
  | .client (.business .proposeFailed message _)
  | .client (.business .retryRequired message _)
  | .client (.business .termOutdated message _) => plain .serviceUnavailable message
  | err => ⟨.internalServerError, ⟨internalErrorCategory err, none, some traceId⟩, none⟩

end HttpError

/-- What is not JSON. -/
inductive PlainBody where
  | empty
  | bytes (content : Bytes)
  | text (content : String)
  /-- A stream that fails while it is read. -/
  | broken
deriving DecidableEq

/-- The bodies that handlers, extractors and layers answer with. The `Content-Type` of the
last two starts with `application/json`. -/
inductive Body where
  | plain (body : PlainBody)
  | error (body : ErrorBody)
  | json (text : String)
deriving DecidableEq

structure Response where
  status : StatusCode
  retryAfter : Option String
  body : Body
deriving DecidableEq

/-- `IntoResponse for HttpError`. -/
def HttpError.intoResponse (e : HttpError) : Response :=
  ⟨e.status, e.retryAfterSecs.map fun secs => toString secs.toNat, .error e.body⟩

/-- `(status, text)` and the bare `status` as responses. -/
def plainResponse (status : StatusCode) (body : PlainBody) : Response :=
  ⟨status, none, .plain body⟩

/-- The text that `to_bytes` and `from_utf8_lossy` make of a body. -/
def PlainBody.message : PlainBody → String
  | .empty => ""
  | .bytes content => String.ofList (fromUtf8Lossy content)
  | .text content => String.ofList (fromUtf8Lossy (utf8 content))
  | .broken => "internal error"

/-- `normalize_error_body`. It builds a new response: the headers are gone. -/
def normalizeErrorBody (response : Response) : Response :=
  if !response.status.isClientError && !response.status.isServerError then response
  else
    match response.body with
    | .error _ | .json _ => response
    | .plain body => ⟨response.status, none, .error ⟨body.message, none, none⟩⟩

/-! ## Addresses and waiting times -/

theorem hostOf_of_not_mem {address : List Char} (h : ':' ∉ address) : hostOf address = address := by
  rw [hostOf, rsplitOnce_eq_none.mpr h]

/-- The statuses the server answers with. -/
def answerStatuses : List StatusCode := [200, 204, 400, 404, 405, 413, 500, 503]

def internalErrors : List String :=
  ["storage error", "cluster error", "configuration error", "internal error"]

/-- What a client learns from an answer, if `saw` are the errors its call may have met. -/
structure Sound (traceId : String) (saw : ClientApiError → Prop) (r : Response) : Prop where
  status : r.status ∈ answerStatuses
  reports : ∀ text, r.body = .json text → r.status = 200
  unwrapped : ∀ body, r.body = .plain body → r.status ≠ 500
  traced : ∀ b, r.body = .error b →
    b.traceId = if r.status = 500 then some traceId else none
  discreet : ∀ b, r.body = .error b → r.status = 500 → b.error ∈ internalErrors
  hinted : ∀ b dto, r.body = .error b → b.leaderHint = some dto →
    r.status = 503 ∧ ∃ message ms h, saw (.network .notLeader message ms (some h)) ∧
      dto.leaderId = h.leaderId ∧ hostOf dto.address.toList = hostOf h.address.toList
  waits : ∀ text, r.retryAfter = some text →
    r.status = 503 ∧ ∃ message ms hint secs, saw (.network .notLeader message (some ms) hint) ∧
      text = toString secs ∧ 0 < secs ∧ ∀ n, ms.toNat ≤ n * 1000 ↔ secs ≤ n

section

variable {traceId : String} {saw : ClientApiError → Prop}

theorem Sound.mono {saw' : ClientApiError → Prop} {r : Response} (h : Sound traceId saw r)
    (hsaw : ∀ e, saw e → saw' e) : Sound traceId saw' r where
  status := h.status
  reports := h.reports
  unwrapped := h.unwrapped
  traced := h.traced
  discreet := h.discreet
  hinted := by
    intro b dto hb hdto
    obtain ⟨hstatus, message, ms, hint, hmet, hdto⟩ := h.hinted b dto hb hdto
    exact ⟨hstatus, message, ms, hint, hsaw _ hmet, hdto⟩
  waits := by
    intro text htext
    obtain ⟨hstatus, message, ms, hint, secs, hmet, hsecs⟩ := h.waits text htext
    exact ⟨hstatus, message, ms, hint, secs, hsaw _ hmet, hsecs⟩

@[simp] theorem normalizeErrorBody_status (r : Response) :
    (normalizeErrorBody r).status = r.status := by
  unfold normalizeErrorBody
  split
  · rfl
  · split <;> rfl

end

end DLmdb.Http
