import DLmdb.Server.Errors

/-!
# The HTTP API

`/kv/{key}` and the three health routes, with everything a request passes on its way: the
body limit in front, the extractors, the handler, and `normalize_error_body` around the
answer. The Raft client is outside: what it answers a write or a read with is given.
-/

namespace DLmdb.Http

open Framework Lmdb

/-! ## The code -/

inductive Method where
  | get
  | put
  | delete
  | other
deriving DecidableEq

/-- The routes; the key is as decoded, if it is UTF-8. -/
inductive Route where
  | kv (path : Option String)
  | primary
  | replica
  | status
  | unknown
deriving DecidableEq

/-- `query` is the value of `level`, if there is one, or why the query cannot be read. -/
structure Request where
  method : Method
  route : Route
  query : Except String (Option String)
  body : Bytes

inductive ConsistencyLevel where
  | eventual
  | linearizable
  | lease
deriving DecidableEq

/-- What the HTTP libraries refuse with. -/
structure RejectionTexts where
  layer : String
  extractor : String
  unknownLevel : String → String

/-- What is settled when `serve` starts. -/
structure Site where
  lib : TransportLimits
  texts : RejectionTexts
  maxKeyBytes : ℕ
  maxValueBytes : Usize
  localHttpPort : Option UInt16

/-- What a request meets: the answers of the Raft client, the faults and the clock of the
node, the UUID of an error, whether the node leads, and what it knows of its cluster. -/
structure Outcome where
  write : Except ClientApiError Unit
  read : Except ClientApiError (Option Bytes)
  flt : Faults
  now : UInt64
  traceId : String
  isLeader : Bool
  clusterInfo : String

/-- What a request leads to: the command handed to Raft, the node and the answer. -/
structure Handled where
  submitted : Option Command
  node : LmdbStateMachine
  response : Response

/-- `Query<ConsistencyParam>`: the level defaults to `eventual`. -/
def consistencyLevel (texts : RejectionTexts) :
    Except String (Option String) → Except String ConsistencyLevel
  | .error text => .error text
  | .ok none => .ok .eventual
  | .ok (some level) =>
      if level = "eventual" then .ok .eventual
      else if level = "linearizable" then .ok .linearizable
      else if level = "lease" then .ok .lease
      else .error (texts.unknownLevel level)

/-- `get`, `get_linearizable` and `get_lease`. -/
def readAt (out : Outcome) (sm : LmdbStateMachine) (key : Bytes) :
    ConsistencyLevel → Except ClientApiError (DbCall (Option Bytes))
  | .eventual => .ok (Db.get out.flt sm key out.now)
  | .linearizable | .lease => do
      let raw ← out.read
      return Db.decodeAndReap out.flt sm key raw out.now

section

variable (site : Site) (out : Outcome) (sm : LmdbStateMachine)

/-- An answer to a request that got no further than `sm`. -/
def answer (response : Response) : Handled := ⟨none, sm, response⟩

/-- The `?` of a handler. -/
def failed (e : DbError) : Response :=
  (HttpError.ofDbError site.localHttpPort out.traceId e).intoResponse

/-- The value of a read, or the lack of one. -/
def readResponse : Except Error (Option Bytes) → Response
  | .ok (some bytes) => plainResponse .ok (.bytes bytes)
  | .ok none => HttpError.notFound.intoResponse
  | .error e => failed site out (.ofError e)

def getHandler (path : Option String) (query : Except String (Option String)) : Handled :=
  match validKey path with
  | .error text => answer sm (plainResponse .badRequest (.text text))
  | .ok key =>
      match consistencyLevel site.texts query with
      | .error text => answer sm (plainResponse .badRequest (.text text))
      | .ok level =>
          match readAt out sm (utf8 key) level with
          | .error e => answer sm (failed site out (.client e))
          | .ok call => ⟨none, sm.after call, readResponse site out call.result⟩

/-- `put(..).await` and `delete(..).await`, with the command they hand to Raft. -/
def writeHandled : Except Error Command → Handled
  | .error e => answer sm (failed site out (.ofError e))
  | .ok command =>
      ⟨some command, sm,
        match out.write with
        | .ok () => plainResponse .noContent .empty
        | .error e => failed site out (.client e)⟩

/-- `put_handler` with its answer. -/
def putHandled (path : Option String) (body : Bytes) : Handled :=
  match putHandler site.lib .unset (nodeConfig site.maxKeyBytes site.maxValueBytes) path body with
  | .payloadTooLarge => answer sm (plainResponse .payloadTooLarge (.text site.texts.extractor))
  | .badRequest text => answer sm (plainResponse .badRequest (.text text))
  | .fromDb result => writeHandled site out sm result

def deleteHandler (path : Option String) : Handled :=
  match validKey path with
  | .error text => answer sm (plainResponse .badRequest (.text text))
  | .ok key => writeHandled site out sm (Db.delete (utf8 key))

def primaryHandler : Response :=
  if out.isLeader then plainResponse .ok .empty else plainResponse .serviceUnavailable .empty

def replicaHandler : Response :=
  if out.isLeader then plainResponse .serviceUnavailable .empty else plainResponse .ok .empty

def statusHandler : Response := ⟨.ok, none, .json out.clusterInfo⟩

/-- The router. -/
def route (req : Request) : Handled :=
  match req.route, req.method with
  | .kv path, .get => getHandler site out sm path req.query
  | .kv path, .put => putHandled site out sm path req.body
  | .kv path, .delete => deleteHandler site out sm path
  | .primary, .get => answer sm (primaryHandler out)
  | .replica, .get => answer sm (replicaHandler out)
  | .status, .get => answer sm (statusHandler out)
  | .unknown, _ => answer sm (plainResponse .notFound .empty)
  | _, _ => answer sm (plainResponse .methodNotAllowed .empty)

/-- A request through the layers of `serve`. -/
def serve (req : Request) : Handled :=
  let handled :=
    if site.lib.layer (bodyLimit site.maxValueBytes) req.body then route site out sm req
    else answer sm (plainResponse .payloadTooLarge (.text site.texts.layer))
  { handled with response := normalizeErrorBody handled.response }

end

/-! ## Every answer -/

section

variable {site : Site} {out : Outcome} {sm : LmdbStateMachine}

theorem failed_status (e : DbError) : (failed site out e).status ∈ [400, 500, 503] := by
  unfold failed HttpError.ofDbError
  split <;> simp [HttpError.plain, HttpError.intoResponse, StatusCode.badRequest,
    StatusCode.internalServerError, StatusCode.serviceUnavailable]

/-- A failure has the status of a failure. -/
theorem failed_ne (e : DbError) {status : StatusCode} (h : status ∉ [400, 500, 503]) :
    (failed site out e).status ≠ status := by
  rintro rfl
  exact h (failed_status e)

end

end DLmdb.Http
