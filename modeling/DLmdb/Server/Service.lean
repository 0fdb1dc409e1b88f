import DLmdb.Cluster.Exactness
import DLmdb.Cluster.Provenance
import DLmdb.Server.Api

/-!
# What the API serves

Over the whole cluster, from the request to the stored bytes and back: `PUT` and `DELETE`
become entries of the log, the nodes apply it, and a `GET`, at whichever node and level,
answers from what its node holds. Seen from outside, this is a map from strings to bytes.
The API writes nothing that expires and never swaps, so what makes other clients' keys
diverge does not happen here.
-/

namespace DLmdb.Http

open Framework Lmdb

/-! ## The map -/

/-- What a request does to the map. -/
def Request.act (req : Request) (m : String → Option Bytes) : String → Option Bytes :=
  match req.method, req.route with
  | .put, .kv (some key) => Function.update m key (some req.body)
  | .delete, .kv (some key) => Function.update m key none
  | _, _ => m

/-- The map after the requests, in order; `none` is an entry that Raft put in by itself. -/
def mapAfter (m : String → Option Bytes) (reqs : List (Option Request)) :
    String → Option Bytes :=
  reqs.foldl (fun m req => req.elim m (fun req => req.act m)) m

/-- The entry holds what some server handed to Raft for the request. -/
def Carries (e : ApplyEntry) : Option Request → Prop
  | none => e.command = .noop
  | some req => ∃ site out sm, (serve site out sm req).submitted = some e.command

/-- The answer to a `GET`. -/
def valueResponse : Option Bytes → Response
  | some v => plainResponse .ok (.bytes v)
  | none => HttpError.notFound.intoResponse

/-! ## From requests to entries -/

theorem utf8_inj {s t : String} : utf8 s = utf8 t ↔ s = t := by
  constructor
  · intro h
    apply String.toByteArray_inj.mp
    have hdata : s.toUTF8.data = t.toUTF8.data := Array.toList_inj.mp h
    exact ByteArray.ext hdata
  · rintro rfl
    rfl

theorem eq_some_of_validKey {path : Option String} {key : String} (h : validKey path = .ok key) :
    path = some key := by
  cases path with
  | none => cases h
  | some k =>
      simp only [validKey] at h
      split at h
      · cases h
      · split at h
        · cases h
        · cases h
          rfl

section

variable {site : Site} {out : Outcome} {sm : LmdbStateMachine} {c : Command}

theorem writeHandled_submitted {result : Except Error Command}
    (h : (writeHandled site out sm result).submitted = some c) : result = .ok c := by
  cases result with
  | error e => cases h
  | ok command =>
      cases h
      rfl

theorem putHandled_submitted {path : Option String} {body : Bytes}
    (h : (putHandled site out sm path body).submitted = some c) :
    ∃ key, path = some key ∧ c = .insert (utf8 key) (Value.encodeRaw body) none := by
  unfold putHandled at h
  split at h
  · cases h
  · cases h
  · rename_i result hput
    unfold putHandler at hput
    split at hput
    · cases hput
    · rename_i key hkey
      split at hput
      · cases hput
        obtain ⟨-, -, hc⟩ := put_eq_ok.mp (writeHandled_submitted h)
        exact ⟨key, eq_some_of_validKey hkey, hc⟩
      · cases hput

theorem deleteHandler_submitted {path : Option String}
    (h : (deleteHandler site out sm path).submitted = some c) :
    ∃ key, path = some key ∧ c = .delete (utf8 key) := by
  unfold deleteHandler at h
  split at h
  · cases h
  · rename_i key hkey
    cases writeHandled_submitted h
    exact ⟨key, eq_some_of_validKey hkey, rfl⟩

/-- **What a server hands to Raft** is the write that it was asked for. -/
theorem serve_submitted {req : Request} (h : (serve site out sm req).submitted = some c) :
    ∃ key, req.route = .kv (some key) ∧
      (req.method = .put ∧ c = .insert (utf8 key) (Value.encodeRaw req.body) none ∨
        req.method = .delete ∧ c = .delete (utf8 key)) := by
  rw [serve] at h
  split at h
  · unfold route at h
    split at h
    · rename_i path hroute hmethod
      unfold getHandler at h
      split at h
      · cases h
      · split at h
        · cases h
        · split at h <;> cases h
    · rename_i path hroute hmethod
      obtain ⟨key, rfl, hc⟩ := putHandled_submitted h
      exact ⟨key, hroute, Or.inl ⟨hmethod, hc⟩⟩
    · rename_i path hroute hmethod
      obtain ⟨key, rfl, hc⟩ := deleteHandler_submitted h
      exact ⟨key, hroute, Or.inr ⟨hmethod, hc⟩⟩
    all_goals cases h
  · cases h

end

/-! ## The log is the map -/

/-- The store holds the map, encoded. -/
def Mirrors (σ : Contents Bytes Bytes) (m : String → Option Bytes) : Prop :=
  ∀ key, σ (utf8 key) = (m key).map Value.encodeRaw

theorem Mirrors.empty : Mirrors (fun _ => none) (fun _ => none) := fun _ => rfl

theorem Mirrors.update {σ : Contents Bytes Bytes} {m : String → Option Bytes} (h : Mirrors σ m)
    (key : String) (x : Option Bytes) :
    Mirrors (Function.update σ (utf8 key) (x.map Value.encodeRaw)) (Function.update m key x) := by
  intro key'
  by_cases hkey : key' = key
  · subst hkey
    rw [Function.update_self, Function.update_self]
  · have hbytes : utf8 key' ≠ utf8 key := fun heq => hkey (utf8_inj.mp heq)
    rw [Function.update_of_ne hbytes, Function.update_of_ne hkey]
    exact h key'

theorem Mirrors.entry {σ : Contents Bytes Bytes} {m : String → Option Bytes} (h : Mirrors σ m)
    {e : ApplyEntry} {req : Option Request} (hcarries : Carries e req) :
    Mirrors (σ.run e.command.writes) (mapAfter m [req]) := by
  cases req with
  | none =>
      have hnoop : e.command = .noop := hcarries
      rw [hnoop]
      exact h
  | some req =>
      obtain ⟨site, out, sm, hsub⟩ := hcarries
      obtain ⟨key, hroute, ⟨hmethod, hc⟩ | ⟨hmethod, hc⟩⟩ := serve_submitted hsub
      · have hact : mapAfter m [some req] = Function.update m key (some req.body) := by
          simp [mapAfter, Request.act, hroute, hmethod]
        rw [hc, hact]
        exact h.update key (some req.body)
      · have hact : mapAfter m [some req] = Function.update m key none := by
          simp [mapAfter, Request.act, hroute, hmethod]
        rw [hc, hact]
        exact h.update key none

/-- **A log of requests writes their map.** -/
theorem Mirrors.log {es : List ApplyEntry} {reqs : List (Option Request)}
    (hlog : List.Forall₂ Carries es reqs) {σ : Contents Bytes Bytes}
    {m : String → Option Bytes} (h : Mirrors σ m) :
    Mirrors (σ.run (logWrites es)) (mapAfter m reqs) := by
  induction hlog generalizing σ m with
  | nil => exact h
  | cons hcarries hlog ih =>
      rw [logWrites_cons, Contents.run_append]
      exact ih (h.entry hcarries)

/-- What the requests come to, where every entry carries one. -/
theorem exists_request {es : List ApplyEntry} {reqs : List (Option Request)}
    (hlog : List.Forall₂ Carries es reqs) {e : ApplyEntry} (he : e ∈ es) :
    ∃ req ∈ reqs, Carries e req := by
  induction hlog with
  | nil => cases he
  | cons hcarries hlog ih =>
      rcases List.mem_cons.mp he with rfl | hmem
      · exact ⟨_, List.mem_cons_self, hcarries⟩
      · obtain ⟨req, hreq, hc⟩ := ih hmem
        exact ⟨req, List.mem_cons_of_mem _ hreq, hc⟩

theorem exists_request_of_write {es : List ApplyEntry} {reqs : List (Option Request)}
    (hlog : List.Forall₂ Carries es reqs) {w : KeyedWrite Bytes Bytes} (hw : w ∈ logWrites es) :
    ∃ req key, some req ∈ reqs ∧ req.route = .kv (some key) ∧
      (req.method = .put ∧ w = .assign (utf8 key) (some (Value.encodeRaw req.body)) ∨
        req.method = .delete ∧ w = .assign (utf8 key) none) := by
  obtain ⟨e, he, hw⟩ := List.mem_flatMap.mp hw
  obtain ⟨req, hreq, hcarries⟩ := exists_request hlog he
  cases req with
  | none =>
      have hnoop : e.command = .noop := hcarries
      rw [hnoop] at hw
      cases hw
  | some req =>
      obtain ⟨site, out, sm, hsub⟩ := hcarries
      obtain ⟨key, hroute, ⟨hmethod, hc⟩ | ⟨hmethod, hc⟩⟩ := serve_submitted hsub
      · rw [hc] at hw
        exact ⟨req, key, hreq, hroute, Or.inl ⟨hmethod, List.mem_singleton.mp hw⟩⟩
      · rw [hc] at hw
        exact ⟨req, key, hreq, hroute, Or.inr ⟨hmethod, List.mem_singleton.mp hw⟩⟩

section

variable {log : RaftLog} {reqs : List (Option Request)}

/-- No request swaps. -/
theorem swapFree_of_requests (hlog : List.Forall₂ Carries log.entries reqs) (k : Bytes) :
    log.SwapFree k := by
  intro w hw
  obtain ⟨-, -, -, -, ⟨-, rfl⟩ | ⟨-, rfl⟩⟩ :=
    exists_request_of_write hlog (List.mem_filter.mp hw).1
  · rfl
  · rfl

/-- A value in the log is the body of a `PUT`. -/
theorem exists_put_of_wrote (hlog : List.Forall₂ Carries log.entries reqs) {c : ℕ}
    {key : String} {raw : Bytes} (h : log.Wrote c (utf8 key) raw) :
    ∃ req, some req ∈ reqs.take c ∧ req.method = .put ∧ req.route = .kv (some key) ∧
      raw = Value.encodeRaw req.body := by
  obtain ⟨w, hw, hwritten⟩ := h
  obtain ⟨hmem, hkey⟩ := List.mem_filter.mp hw
  have hkey : w.key = utf8 key := of_decide_eq_true hkey
  obtain ⟨req, key', hreq, hroute, ⟨hmethod, rfl⟩ | ⟨hmethod, rfl⟩⟩ :=
    exists_request_of_write (List.forall₂_take c hlog) hmem
  · rw [utf8_inj.mp hkey] at hroute
    exact ⟨req, hreq, hmethod, hroute, (Option.some.inj hwritten).symm⟩
  · cases hwritten

theorem mirrors_contents (hlog : List.Forall₂ Carries log.entries reqs) (c : ℕ) :
    Mirrors (log.contents c) (mapAfter (fun _ => none) (reqs.take c)) :=
  Mirrors.empty.log (List.forall₂_take c hlog)

end

/-! ## Reading -/

/-- A `GET` of `key` that gets past everything in front of its read. -/
structure Gets (site : Site) (req : Request) (key : String) (level : ConsistencyLevel) : Prop where
  method : req.method = .get
  route : req.route = .kv (some key)
  fits : site.lib.layer (bodyLimit site.maxValueBytes) req.body = true
  valid : validKey (some key) = .ok key
  level : consistencyLevel site.texts req.query = .ok level

/-- The bytes it reads: those of its own node, or what the Raft client comes back with. -/
def Fetches (out : Outcome) (sm : LmdbStateMachine) (key : String) (raw : Option Bytes) :
    ConsistencyLevel → Prop
  | .eventual => sm.kv.get (utf8 key) = raw
  | .linearizable | .lease => out.read = .ok raw

section

variable {site : Site} {out : Outcome} {sm : LmdbStateMachine} {req : Request} {key : String}
  {level : ConsistencyLevel} {raw : Option Bytes}

theorem utf8_ne_nil (hvalid : validKey (some key) = .ok key) : utf8 key ≠ [] := by
  intro hnil
  have hempty : key = "" := utf8_inj.mp (hnil.trans (by decide : [] = utf8 ""))
  rw [hempty] at hvalid
  revert hvalid
  decide

/-- The read is `decode_and_reap`, behind a fetch if it is a local one. -/
theorem readAt_ok (h : Fetches out sm key raw level) :
    ∃ call, readAt out sm (utf8 key) level = .ok call ∧
      ∀ x, call.result = .ok x → logicalValue raw out.now = .ok x := by
  cases level with
  | eventual =>
      have hraw : sm.kv.get (utf8 key) = raw := h
      refine ⟨_, rfl, ?_⟩
      intro x hx
      rw [← hraw]
      exact fetchLocal_ok hx
  | linearizable =>
      have hraw : out.read = .ok raw := h
      refine ⟨Db.decodeAndReap out.flt sm (utf8 key) raw out.now, by rw [readAt, hraw]; rfl, ?_⟩
      exact fun x hx => decodeAndReap_ok hx
  | lease =>
      have hraw : out.read = .ok raw := h
      refine ⟨Db.decodeAndReap out.flt sm (utf8 key) raw out.now, by rw [readAt, hraw]; rfl, ?_⟩
      exact fun x hx => decodeAndReap_ok hx

/-- What never expires is returned, and stays where it is. -/
theorem readAt_plain {x : Option Bytes} (hvalid : validKey (some key) = .ok key)
    (hflt : out.flt = Faults.none) (h : Fetches out sm key (x.map Value.encodeRaw) level) :
    readAt out sm (utf8 key) level = .ok ⟨[], .ok x⟩ := by
  have hreap : Db.decodeAndReap out.flt sm (utf8 key) (x.map Value.encodeRaw) out.now =
      ⟨[], .ok x⟩ := by
    cases x with
    | none => rfl
    | some v => rfl
  cases level with
  | eventual =>
      have hraw : sm.kv.get (utf8 key) = x.map Value.encodeRaw := h
      show Except.ok (Db.get out.flt sm (utf8 key) out.now) = _
      rw [hflt] at hreap ⊢
      rw [Db.get, Db.fetchLocal, engineResult, get_noFaults sm (utf8_ne_nil hvalid),
        Except.mapError, Call.ok_bind, Faults.skip_none, hraw, hreap]
  | linearizable =>
      have hraw : out.read = .ok (x.map Value.encodeRaw) := h
      rw [readAt, hraw, ← hreap]
      rfl
  | lease =>
      have hraw : out.read = .ok (x.map Value.encodeRaw) := h
      rw [readAt, hraw, ← hreap]
      rfl

theorem serve_get (hget : Gets site req key level) {call : DbCall (Option Bytes)}
    (hcall : readAt out sm (utf8 key) level = .ok call) :
    serve site out sm req =
      ⟨none, sm.after call, normalizeErrorBody (readResponse site out call.result)⟩ := by
  have hroute : route site out sm req = getHandler site out sm (some key) req.query := by
    rw [route, hget.method, hget.route]
  rw [serve, if_pos hget.fits, hroute]
  simp only [getHandler, hget.valid, hget.level, hcall]

/-- **A `GET` of a plain value.** -/
theorem serve_get_plain (hget : Gets site req key level) (hflt : out.flt = Faults.none)
    {x : Option Bytes} (h : Fetches out sm key (x.map Value.encodeRaw) level) :
    serve site out sm req = ⟨none, sm, valueResponse x⟩ := by
  rw [serve_get hget (readAt_plain hget.valid hflt h)]
  cases x with
  | none => rfl
  | some v => rfl

/-- A `GET` that is answered 200 has read its body. -/
theorem serve_get_ok (hget : Gets site req key level) (h : Fetches out sm key raw level)
    (hstatus : (serve site out sm req).response.status = 200) :
    ∃ v, (serve site out sm req).response.body = .plain (.bytes v) ∧
      logicalValue raw out.now = .ok (some v) := by
  obtain ⟨call, hcall, hvalue⟩ := readAt_ok h
  rw [serve_get hget hcall] at hstatus ⊢
  cases hres : call.result with
  | error e =>
      rw [hres] at hstatus
      rw [normalizeErrorBody_status] at hstatus
      exact absurd hstatus (failed_ne _ (by decide))
  | ok x =>
      cases x with
      | none =>
          rw [hres] at hstatus
          cases hstatus
      | some v => exact ⟨v, rfl, hvalue (some v) hres⟩

end

/-! ## The service -/

/-- Node `i`, given all that it is due. -/
def CaughtUp (log : RaftLog) (s : Cluster) (i : ℕ) (sm : LmdbStateMachine) : Prop :=
  ∃ cuts rs, cutEntries cuts = s.due log i ∧ applyChunks (s.node i) cuts = .ok (sm, rs)

/-- Nothing that the API stores is taken away by a read. -/
theorem eq_of_faded_plain {t : UInt64} {x y : Option Bytes}
    (h : Faded t (x.map Value.encodeRaw) y) : y = x.map Value.encodeRaw := by
  rcases h with hsame | ⟨-, v, hv, hexp⟩
  · exact hsame
  · obtain ⟨p, -, rfl⟩ := Option.map_eq_some_iff.mp hv
    cases hexp

/-- **The API serves the log.** However the nodes are restarted, fall behind or install
snapshots: a `GET` answered 200, at any moment, any node and any level, returns the body of
a committed `PUT` of its key; and one that reads a node that is up to date, its own or
another, returns what the committed requests, in order, make of that key, or 404, and
changes nothing. -/
theorem http_serves_the_log (log : RaftLog) {reqs : List (Option Request)}
    (hlog : List.Forall₂ Carries log.entries reqs) {es : List ClusterEvent}
    (hes : Along (Cluster.step log) (fun s e => e.Orderly s) Cluster.start es) :
    let s := runFrom (Cluster.step log) Cluster.start es
    (∀ i j site out req key level, Gets site req key level →
      Fetches out (s.node i) key ((s.node j).kv.get (utf8 key)) level →
      (serve site out (s.node i) req).response.status = 200 →
      ∃ put, some put ∈ reqs.take s.committed ∧ put.method = .put ∧ put.route = .kv (some key) ∧
        (serve site out (s.node i) req).response.body = .plain (.bytes put.body)) ∧
    ∀ j sm' sm site out req key level, CaughtUp log s j sm' →
      Gets site req key level → out.flt = Faults.none →
      Fetches out sm key (sm'.kv.get (utf8 key)) level →
      serve site out sm req =
        ⟨none, sm, valueResponse (mapAfter (fun _ => none) (reqs.take s.committed) key)⟩ := by
  intro s
  constructor
  · intro i j site out req key level hget hfetch hstatus
    obtain ⟨v, hbody, hvalue⟩ := serve_get_ok hget hfetch hstatus
    have hsourced := ((SourcedCluster.run hes).node j) (utf8 key)
    cases hraw : (s.node j).kv.get (utf8 key) with
    | none =>
        rw [hraw] at hvalue
        cases hvalue
    | some raw =>
        obtain ⟨put, hput, hmethod, hroute, rfl⟩ :=
          exists_put_of_wrote hlog (hsourced raw hraw)
        rw [hraw] at hvalue
        cases hvalue
        exact ⟨put, hput, hmethod, hroute, hbody⟩
  · rintro j sm' sm site out req key level ⟨cuts, rs, hcuts, happly⟩ hget hflt hfetch
    have hk := swapFree_of_requests hlog (utf8 key)
    have hs : Consistent log 0xffffffffffffffff (utf8 key) s :=
      (Consistent.start log _ _).run hk hes fun _ _ _ now _ => le_allOnes now
    have hfade := (hs.node j).caughtUp hk hcuts happly
    rw [mirrors_contents hlog s.committed key] at hfade
    refine serve_get_plain hget hflt ?_
    rw [← eq_of_faded_plain hfade]
    exact hfetch

/-- A server with the default limits, and a request that meets no trouble. -/
def defaultSite : Site :=
  ⟨documentedLimits, ⟨"length limit exceeded", "length limit exceeded", fun _ => "unknown variant"⟩,
    defaultMaxKeyBytes, 1048576, some 8080⟩

def quietOutcome : Outcome := ⟨.ok (), .ok none, Faults.none, 10, "", true, "{}"⟩

/-- An entry of Raft's own, and two `PUT`s of one key. -/
def putLog : RaftLog where
  entries := [⟨1, 1, .noop⟩, ⟨2, 1, .insert (utf8 "k") (Value.encodeRaw [1]) none⟩,
    ⟨3, 1, .insert (utf8 "k") (Value.encodeRaw [2]) none⟩]
  increasing := by decide
  positive := by decide

def putRequests : List (Option Request) :=
  [none, some ⟨.put, .kv (some "k"), .ok none, [1]⟩, some ⟨.put, .kv (some "k"), .ok none, [2]⟩]

theorem putLog_carries : List.Forall₂ Carries putLog.entries putRequests := by
  refine .cons rfl (.cons ⟨defaultSite, quietOutcome, freshStateMachine, ?_⟩
    (.cons ⟨defaultSite, quietOutcome, freshStateMachine, ?_⟩ .nil))
  · decide
  · decide

def leaseRequest : Request := ⟨.get, .kv (some "k"), .ok (some "lease"), []⟩

def localRequest : Request := ⟨.get, .kv (some "k"), .ok none, []⟩

/-- Node 0 loses its memory and is given everything again; a lease read of what it then holds,
at a node that holds nothing. -/
theorem http_serves_the_log_put :
    let es : List ClusterEvent :=
      [.commit 3, .call 0 (.apply Faults.none 3), .crash 0 (.persist Faults.none) 0]
    let s := runFrom (Cluster.step putLog) Cluster.start es
    ∃ sm rs, applyChunks (s.node 0) [(Faults.none, s.due putLog 0)] = .ok (sm, rs) ∧
      serve defaultSite { quietOutcome with read := .ok (sm.kv.get (utf8 "k")) } (s.node 1)
        leaseRequest = ⟨none, s.node 1, valueResponse (some [2])⟩ := by
  intro es s
  have hdue : s.due putLog 0 = putLog.entries := by decide
  obtain ⟨sm, rs, happly⟩ := applyChunks_noFaults (s.node 0) [s.due putLog 0] (by
    rw [hdue]
    decide)
  refine ⟨sm, rs, happly, ?_⟩
  have hserves := (@http_serves_the_log putLog putRequests putLog_carries es
    ⟨trivial, trivial, trivial, trivial⟩).2
  rw [hserves 0 sm (s.node 1) defaultSite { quietOutcome with read := .ok (sm.kv.get (utf8 "k")) }
    leaseRequest "k" .lease ⟨_, rs, by rw [cutEntries_noFaults, List.flatten_singleton], happly⟩
    ⟨rfl, rfl, by decide, by decide, by decide⟩ rfl rfl]
  rfl

/-- The entries up to a position come first in the log. -/
theorem upTo_eq_take (log : RaftLog) (n : UInt64) :
    log.upTo n = log.entries.take (log.upTo n).length := by
  have hsplit := RaftLog.filter_split n log.increasing
  have hprefix : log.upTo n <+: log.entries := by
    refine ⟨log.entries.filter (fun e => n < e.index), ?_⟩
    simp only [UInt64.not_lt] at hsplit
    exact hsplit.symm
  exact List.prefix_iff_eq_take.mp hprefix

/-- A `GET` that reads node `j` of an exact cluster. -/
theorem serve_get_exact {log : RaftLog} {reqs : List (Option Request)}
    (hlog : List.Forall₂ Carries log.entries reqs) {s : Cluster} (hs : ExactCluster log s) {j : ℕ}
    {site : Site} {out : Outcome} {sm : LmdbStateMachine} {req : Request} {key : String}
    {level : ConsistencyLevel} (hget : Gets site req key level) (hflt : out.flt = Faults.none)
    (hfetch : Fetches out sm key ((s.node j).kv.get (utf8 key)) level) :
    serve site out sm req = ⟨none, sm, valueResponse (mapAfter (fun _ => none)
      (reqs.take (log.upTo (s.node j).lastAppliedIndex).length) key)⟩ := by
  have hheld := hs.node j
  refine serve_get_plain hget hflt ?_
  rw [hheld.value, RaftLog.reached_eq_upTo hheld.covers, upTo_eq_take] at hfetch
  have hmirror := mirrors_contents hlog (log.upTo (s.node j).lastAppliedIndex).length key
  rw [← hmirror]
  exact hfetch

/-- **Reads are prefixes.** In a run whose stops find the position on disk current and whose
snapshots bear the position of their copy, every `GET` at every moment answers from the
requests up to the `last_applied` of the node it reads: never from a mixture, and from the
same ones at every node of that position. -/
theorem http_reads_prefixes (log : RaftLog) {reqs : List (Option Request)}
    (hlog : List.Forall₂ Carries log.entries reqs) {es : List ClusterEvent}
    (hes : Along (Cluster.step log) (fun s e => e.Exact log s) Cluster.start es) :
    let s := runFrom (Cluster.step log) Cluster.start es
    ∀ i j site out req key level, Gets site req key level → out.flt = Faults.none →
      Fetches out (s.node i) key ((s.node j).kv.get (utf8 key)) level →
      serve site out (s.node i) req = ⟨none, s.node i, valueResponse (mapAfter (fun _ => none)
        (reqs.take (log.upTo (s.node j).lastAppliedIndex).length) key)⟩ := by
  intro s i j site out req key level hget hflt hfetch
  have hs : ExactCluster log s :=
    runFrom_invariant (fun _ _ h he => h.step he) (ExactCluster.start log) hes
  exact serve_get_exact hlog hs hget hflt hfetch

/-- Between the two `PUT`s, after a crash. -/
theorem http_reads_prefixes_put :
    let es : List ClusterEvent :=
      [.commit 3, .call 0 (.apply Faults.none 2), .call 0 (.persist Faults.none),
        .crash 0 (.apply Faults.none 1) 0]
    let s := runFrom (Cluster.step putLog) Cluster.start es
    (serve defaultSite quietOutcome (s.node 0) localRequest).response = valueResponse (some [1]) := by
  intro es s
  have hprefixes := @http_reads_prefixes putLog putRequests putLog_carries es (by
    refine ⟨trivial, trivial, trivial, ⟨trivial, ?_⟩, trivial⟩
    rintro op ⟨⟩
    exact Or.inl ⟨rfl, by decide⟩)
  rw [hprefixes 0 0 defaultSite quietOutcome localRequest "k" .eventual
    ⟨rfl, rfl, by decide, by decide, by decide⟩ rfl rfl]
  decide

/-- What a node at a later position holds has come further. -/
theorem length_upTo_mono (log : RaftLog) {r r' : UInt64} (h : r ≤ r') :
    (log.upTo r).length ≤ (log.upTo r').length := by
  refine (List.monotone_filter_right log.entries ?_).length_le
  intro e he
  exact decide_eq_true (UInt64.le_trans (of_decide_eq_true he) h)

/-- **Readers of a node never go back.** Take any run as above, and cut it anywhere. If from
there on a node is not reset and installs no snapshot older than itself, then whatever the
`GET`s before the cut read on it, over restarts and crashes those after the cut read the
effect of at least the same requests, and none that is not committed. -/
theorem http_reads_go_forward (log : RaftLog) {reqs : List (Option Request)}
    (hlog : List.Forall₂ Carries log.entries reqs) {es es' : List ClusterEvent}
    (hes : Along (Cluster.step log) (fun s e => e.Exact log s) Cluster.start (es ++ es')) (j : ℕ)
    (hahead : Along (Cluster.step log) (fun s e => e.Ahead j s)
      (runFrom (Cluster.step log) Cluster.start es) es') :
    let s := runFrom (Cluster.step log) Cluster.start es
    let s' := runFrom (Cluster.step log) s es'
    ∃ n n', n ≤ n' ∧ n' ≤ s'.committed ∧
      (∀ sm site out req key level, Gets site req key level → out.flt = Faults.none →
        Fetches out sm key ((s.node j).kv.get (utf8 key)) level →
        serve site out sm req =
          ⟨none, sm, valueResponse (mapAfter (fun _ => none) (reqs.take n) key)⟩) ∧
      ∀ sm site out req key level, Gets site req key level → out.flt = Faults.none →
        Fetches out sm key ((s'.node j).kv.get (utf8 key)) level →
        serve site out sm req =
          ⟨none, sm, valueResponse (mapAfter (fun _ => none) (reqs.take n') key)⟩ := by
  intro s s'
  obtain ⟨hbefore, hafter⟩ := along_append.mp hes
  have hs : ExactCluster log s :=
    runFrom_invariant (fun _ _ h he => h.step he) (ExactCluster.start log) hbefore
  have hs' : ExactCluster log s' := runFrom_invariant (fun _ _ h he => h.step he) hs hafter
  refine ⟨_, _, length_upTo_mono log (Cluster.run_forward hafter hahead), ?_, ?_, ?_⟩
  · rw [← RaftLog.reached_eq_upTo (hs'.node j).covers]
    calc (log.reached s'.committed (s'.node j).lastAppliedIndex).length
      _ ≤ (log.entries.take s'.committed).length := List.length_filter_le _ _
      _ ≤ s'.committed := List.length_take_le _ _
  · intro sm site out req key level hget hflt hfetch
    exact serve_get_exact hlog hs hget hflt hfetch
  · intro sm site out req key level hget hflt hfetch
    exact serve_get_exact hlog hs' hget hflt hfetch

/-- Node 0 between the two `PUT`s, and once it has both, is restarted and given its own
snapshot. -/
theorem http_reads_go_forward_put :
    let es : List ClusterEvent := [.commit 3, .call 0 (.apply Faults.none 2)]
    let es' : List ClusterEvent :=
      [.call 0 (.apply Faults.none 1), .drop 0 Faults.none,
        .call 0 (.generate none Faults.none ⟨3, 1⟩),
        .call 0 (.install .returned Faults.none Faults.none 0)]
    let s := runFrom (Cluster.step putLog) Cluster.start es
    let s' := runFrom (Cluster.step putLog) s es'
    ∃ n n', n ≤ n' ∧ n' ≤ s'.committed ∧
      (serve defaultSite quietOutcome (s.node 0) localRequest).response =
        valueResponse (mapAfter (fun _ => none) (putRequests.take n) "k") ∧
      (serve defaultSite quietOutcome (s'.node 0) localRequest).response =
        valueResponse (mapAfter (fun _ => none) (putRequests.take n') "k") := by
  intro es es' s s'
  obtain ⟨n, n', hle, hcommitted, hbefore, hafter⟩ :=
    @http_reads_go_forward putLog putRequests putLog_carries es es' (by
      refine ⟨trivial, trivial, trivial, ?_, ?_, trivial, trivial⟩
      · show LmdbStateMachine.Settled _
        decide
      · show (3 : UInt64) = _
        decide) 0 (by
      refine ⟨fun _ => trivial, trivial, fun _ => trivial, ?_, trivial⟩
      rintro -
      show ∀ p ∈ _, ∀ l ∈ _, _
      decide)
  refine ⟨n, n', hle, hcommitted, ?_, ?_⟩
  · rw [hbefore (s.node 0) defaultSite quietOutcome localRequest "k" .eventual
      ⟨rfl, rfl, by decide, by decide, by decide⟩ rfl rfl]
  · rw [hafter (s'.node 0) defaultSite quietOutcome localRequest "k" .eventual
      ⟨rfl, rfl, by decide, by decide, by decide⟩ rfl rfl]

end DLmdb.Http
