import DLmdb.StateMachine.Basic

/-!
# `apply_chunk`

The loop that applies committed log entries to `kv_db`. One write transaction
covers the chunk; the `entry_terms` cache is written entry by entry, inside the
loop; `last_applied` moves after the commit.

Over it stands the sequential reading of a log: every command is a list of keyed
writes (`Command.writes`), and an entry's result is decided by what the earlier
entries left (`resultsOf`). `applyChunk_cases` connects the two.
-/

namespace DLmdb

open Framework Lmdb

/-! ## The code -/

def applyOp (wtxn : Txn SmDb) : BatchOp → Except HeedError (Txn SmDb)
  | .insert key value => wtxn.put .kvDb key value
  | .delete key => wtxn.delete .kvDb key

/-- The `for op in ops` loop of the `Batch` arm. -/
def applyOps : List BatchOp → Txn SmDb → Except HeedError (Txn SmDb)
  | [], wtxn => .ok wtxn
  | op :: ops, wtxn => do
      let wtxn ← applyOp wtxn op
      applyOps ops wtxn

/-- One iteration of the `for entry in chunk` loop, up to its result. -/
def applyEntry (wtxn : Txn SmDb) (entry : ApplyEntry) :
    Except HeedError (Txn SmDb × ApplyResult) :=
  match entry.command with
  | .insert key value _ttlSecs => do
      let wtxn ← wtxn.put .kvDb key value
      return (wtxn, .success entry.index)
  | .delete key => do
      let wtxn ← wtxn.delete .kvDb key
      return (wtxn, .success entry.index)
  | .compareAndSwap key expected value => do
      let (wtxn, current) ← wtxn.get .kvDb key
      -- the stored bytes as they are, whether or not they have expired
      let isMatch :=
        match current, expected with
        | none, none => true
        | some c, some e => c == e
        | _, _ => false
      if isMatch then
        let wtxn ← wtxn.put .kvDb key value
        return (wtxn, .success entry.index)
      else
        return (wtxn, .failure entry.index)
  | .batch ops => do
      let wtxn ← applyOps ops wtxn
      return (wtxn, .success entry.index)
  | .noop => return (wtxn, .success entry.index)

/-- The loop: the transaction, the results so far and `highest` are its locals;
the `entry_terms` cache belongs to the state machine. -/
def applyLoop : List ApplyEntry → Txn SmDb → List ApplyResult → Option LogId →
    SmCall (Txn SmDb × List ApplyResult × Option LogId)
  | [], wtxn, results, highest => pure (wtxn, results, highest)
  | entry :: chunk, wtxn, results, _highest => do
      let (wtxn, result) ← smLmdb (applyEntry wtxn entry)
      -- before the commit, and not taken back when that fails
      Call.emit (.insertEntryTerm entry.index entry.term)
      applyLoop chunk wtxn (results ++ [result]) (some entry.logId)

def applyChunk (flt : Faults) (sm : LmdbStateMachine) (chunk : List ApplyEntry) :
    SmCall (List ApplyResult) := do
  let wtxn ← smLmdb (Txn.begin flt sm.env)
  let (wtxn, results, highest) ← applyLoop chunk wtxn [] none
  let env ← smLmdb wtxn.commit
  Call.emit (.commit env)
  match highest with
  | some logId => updateLastApplied logId
  | none => pure ()
  return results

/-! ## The sequential reading of a log -/

def BatchOp.write : BatchOp → KeyedWrite Bytes Bytes
  | .insert key value => .assign key (some value)
  | .delete key => .assign key none

def Command.writes : Command → List (KeyedWrite Bytes Bytes)
  | .insert key value _ => [.assign key (some value)]
  | .delete key => [.assign key none]
  | .compareAndSwap key expected value => [.cas key expected value]
  | .batch ops => ops.map BatchOp.write
  | .noop => []

/-- A compare-and-swap succeeds when its key holds `expected`; the other commands
always do. -/
def Command.outcome (σ : Contents Bytes Bytes) : Command → Bool
  | .compareAndSwap key expected _ => σ key = expected
  | _ => true

/-- The writes of a log. -/
def logWrites (log : List ApplyEntry) : List (KeyedWrite Bytes Bytes) :=
  log.flatMap (fun e => e.command.writes)

/-- One result an entry, each decided on what the earlier entries left. -/
def resultsOf : Contents Bytes Bytes → List ApplyEntry → List ApplyResult
  | _, [] => []
  | σ, e :: log => ⟨e.index, e.command.outcome σ⟩ :: resultsOf (σ.run e.command.writes) log

/-- The terms cached for a log. -/
def cacheTerms (terms : Std.ExtTreeMap UInt64 UInt64 compare) (log : List ApplyEntry) :
    Std.ExtTreeMap UInt64 UInt64 compare :=
  log.foldl (fun m e => m.insert e.index e.term) terms

/-- `last_applied` after a log: its last entry, if it has one. -/
def lastLogId (l : LogId) (log : List ApplyEntry) : LogId :=
  log.foldl (fun _ e => e.logId) l

@[simp] theorem logWrites_nil : logWrites [] = [] := rfl

@[simp] theorem logWrites_cons (e : ApplyEntry) (log : List ApplyEntry) :
    logWrites (e :: log) = e.command.writes ++ logWrites log := rfl

@[simp] theorem logWrites_append (log log' : List ApplyEntry) :
    logWrites (log ++ log') = logWrites log ++ logWrites log' := by
  simp [logWrites]

theorem resultsOf_append (σ : Contents Bytes Bytes) (log log' : List ApplyEntry) :
    resultsOf σ (log ++ log') =
      resultsOf σ log ++ resultsOf (σ.run (logWrites log)) log' := by
  induction log generalizing σ with
  | nil => rfl
  | cons e log ih => simp [resultsOf, ih, Contents.run_append]

theorem map_index_resultsOf (σ : Contents Bytes Bytes) (log : List ApplyEntry) :
    (resultsOf σ log).map ApplyResult.index = log.map ApplyEntry.index := by
  induction log generalizing σ with
  | nil => rfl
  | cons e log ih => simp [resultsOf, ih]

/-! ## Keys a command needs -/

def BatchOp.Storable : BatchOp → Prop
  | .insert key _ => ValidKey key
  | .delete key => key ≠ []

/-- The keys of the command are ones LMDB takes. A swap that expects a value may
name a key too long to be stored: it finds nothing there and fails as a swap. -/
def Command.Storable : Command → Prop
  | .insert key _ _ => ValidKey key
  | .delete key => key ≠ []
  | .compareAndSwap key expected _ => key ≠ [] ∧ (expected = none → ValidKey key)
  | .batch ops => ∀ op ∈ ops, op.Storable
  | .noop => True

instance : (op : BatchOp) → Decidable op.Storable
  | .insert key _ => inferInstanceAs (Decidable (ValidKey key))
  | .delete key => inferInstanceAs (Decidable (key ≠ []))

instance : (c : Command) → Decidable c.Storable
  | .insert key _ _ => inferInstanceAs (Decidable (ValidKey key))
  | .delete key => inferInstanceAs (Decidable (key ≠ []))
  | .compareAndSwap key expected _ =>
      inferInstanceAs (Decidable (key ≠ [] ∧ (expected = none → ValidKey key)))
  | .batch ops => inferInstanceAs (Decidable (∀ op ∈ ops, op.Storable))
  | .noop => inferInstanceAs (Decidable True)

/-! ## What one entry does -/

/-- `t'` is `t` with the contents of `kv_db` run through `ws`. -/
structure Wrote (t t' : Txn SmDb) (ws : List (KeyedWrite Bytes Bytes)) : Prop where
  kv : (t'.env .kvDb).get = Contents.run (t.env .kvDb).get ws
  other : ∀ d, d ≠ SmDb.kvDb → t'.env d = t.env d
  faults : t'.faults = t.faults

theorem Wrote.refl (t : Txn SmDb) : Wrote t t [] := ⟨rfl, fun _ _ => rfl, rfl⟩

theorem Wrote.trans {t t' t'' : Txn SmDb} {ws ws' : List (KeyedWrite Bytes Bytes)}
    (h : Wrote t t' ws) (h' : Wrote t' t'' ws') : Wrote t t'' (ws ++ ws') where
  kv := by rw [h'.kv, h.kv, Contents.run_append]
  other := fun d hd => (h'.other d hd).trans (h.other d hd)
  faults := h'.faults.trans h.faults

/-- A transaction operation on `kv_db` that leaves the contents `σ` is a write. -/
theorem wrote_of_changes {t t' : Txn SmDb} {db : Database} {ws : List (KeyedWrite Bytes Bytes)}
    (h : t.Changes t' .kvDb db) (hdb : db.get = Contents.run (t.env .kvDb).get ws) :
    Wrote t t' ws where
  kv := by rw [h.env, Function.update_self, hdb]
  other := fun d hd => by rw [h.env, Function.update_of_ne hd]
  faults := h.faults

theorem put_wrote {t t' : Txn SmDb} {k v : Bytes} (h : t.put .kvDb k v = .ok t') :
    ValidKey k ∧ Wrote t t' [.assign k (some v)] := by
  obtain ⟨hk, hc⟩ := Txn.put_ok h
  refine ⟨hk, wrote_of_changes hc ?_⟩
  ext k' : 1
  rw [Database.get_insert, Contents.run_cons, Contents.run_nil, Contents.step_assign,
    Function.update_apply]

theorem delete_wrote {t t' : Txn SmDb} {k : Bytes} (h : t.delete .kvDb k = .ok t') :
    k ≠ [] ∧ Wrote t t' [.assign k none] := by
  obtain ⟨hk, hc⟩ := Txn.delete_ok h
  refine ⟨hk, wrote_of_changes hc ?_⟩
  ext k' : 1
  rw [Database.get_erase, Contents.run_cons, Contents.run_nil, Contents.step_assign,
    Function.update_apply]

theorem applyOp_wrote {t t' : Txn SmDb} {op : BatchOp} (h : applyOp t op = .ok t') :
    op.Storable ∧ Wrote t t' [op.write] := by
  cases op with
  | insert key value => exact put_wrote h
  | delete key => exact delete_wrote h

theorem applyOps_wrote {ops : List BatchOp} {t t' : Txn SmDb} (h : applyOps ops t = .ok t') :
    (∀ op ∈ ops, op.Storable) ∧ Wrote t t' (ops.map BatchOp.write) := by
  induction ops generalizing t with
  | nil =>
      cases h
      exact ⟨by simp, Wrote.refl _⟩
  | cons op ops ih =>
      obtain ⟨t₁, h₁, h₂⟩ := bind_eq_ok.mp h
      obtain ⟨hop, hw⟩ := applyOp_wrote h₁
      obtain ⟨hops, hws⟩ := ih h₂
      refine ⟨?_, by simpa using hw.trans hws⟩
      intro o ho
      rcases List.mem_cons.mp ho with rfl | hmem
      · exact hop
      · exact hops o hmem

/-- The `match (current, expected)` of the swap arm is equality. -/
theorem casMatch_eq (current expected : Option Bytes) :
    (match current, expected with
      | none, none => true
      | some c, some e => c == e
      | _, _ => false) = decide (current = expected) := by
  cases current <;> cases expected <;> simp [beq_eq_decide]

/-- A swap that goes through is the assignment of the new value. -/
theorem Wrote.swap_hit {t t₁ t₂ : Txn SmDb} {key value : Bytes} {expected : Option Bytes}
    (hread : Wrote t t₁ []) (hput : Wrote t₁ t₂ [.assign key (some value)])
    (hm : (t.env .kvDb).get key = expected) : Wrote t t₂ [.cas key expected value] where
  kv := by
    rw [(hread.trans hput).kv, Contents.run_cons, Contents.run_nil, Contents.step_cas_hit hm]
    rfl
  other := (hread.trans hput).other
  faults := (hread.trans hput).faults

/-- One that fails writes nothing. -/
theorem Wrote.swap_miss {t t₁ : Txn SmDb} {key : Bytes} {expected : Option Bytes}
    (hread : Wrote t t₁ []) (hm : (t.env .kvDb).get key ≠ expected) (value : Bytes) :
    Wrote t t₁ [.cas key expected value] where
  kv := by
    rw [hread.kv, Contents.run_cons, Contents.run_nil, Contents.step_cas_miss hm]
    rfl
  other := hread.other
  faults := hread.faults

/-- **One entry.** If it applies, its keys are storable, `kv_db` went through its
writes and its result is the sequential one. -/
theorem applyEntry_wrote {t t' : Txn SmDb} {e : ApplyEntry} {r : ApplyResult}
    (h : applyEntry t e = .ok (t', r)) :
    e.command.Storable ∧ Wrote t t' e.command.writes ∧
      r = ⟨e.index, e.command.outcome (t.env .kvDb).get⟩ := by
  unfold applyEntry at h
  cases hc : e.command with
  | insert key value ttlSecs =>
      simp only [hc] at h
      obtain ⟨t₁, h₁, h₂⟩ := bind_eq_ok.mp h
      cases h₂
      obtain ⟨hk, hw⟩ := put_wrote h₁
      exact ⟨hk, hw, rfl⟩
  | delete key =>
      simp only [hc] at h
      obtain ⟨t₁, h₁, h₂⟩ := bind_eq_ok.mp h
      cases h₂
      obtain ⟨hk, hw⟩ := delete_wrote h₁
      exact ⟨hk, hw, rfl⟩
  | compareAndSwap key expected value =>
      simp only [hc] at h
      obtain ⟨⟨t₁, current⟩, h₁, h₂⟩ := bind_eq_ok.mp h
      obtain ⟨henv, hflt, hne, rfl⟩ := Txn.get_ok h₁
      simp only [casMatch_eq] at h₂
      have hread : Wrote t t₁ [] := ⟨by rw [henv]; rfl, fun d _ => by rw [henv], hflt⟩
      by_cases hm : (t.env .kvDb).get key = expected
      · simp only [hm, decide_true, if_true] at h₂
        obtain ⟨t₂, h₃, h₄⟩ := bind_eq_ok.mp h₂
        cases h₄
        obtain ⟨hk, hw⟩ := put_wrote h₃
        refine ⟨⟨hne, fun _ => hk⟩, hread.swap_hit hw hm, ?_⟩
        simp [Command.outcome, hm, ApplyResult.success]
      · simp only [hm, decide_false] at h₂
        cases h₂
        refine ⟨⟨hne, fun hnone => ?_⟩, hread.swap_miss hm value, ?_⟩
        · by_contra hk
          exact hm (by rw [hnone, Database.get_of_not_valid hk])
        · simp [Command.outcome, hm, ApplyResult.failure]
  | batch ops =>
      simp only [hc] at h
      obtain ⟨t₁, h₁, h₂⟩ := bind_eq_ok.mp h
      cases h₂
      obtain ⟨hops, hw⟩ := applyOps_wrote h₁
      exact ⟨hops, hw, rfl⟩
  | noop =>
      simp only [hc] at h
      cases h
      exact ⟨trivial, Wrote.refl t, rfl⟩

/-! ## What a chunk does -/

/-- The cache write of one iteration. -/
def cacheEffect (e : ApplyEntry) : SmEffect := .insertEntryTerm e.index e.term

/-- The stores of `update_last_applied`, when the chunk had an entry. -/
def highestEffects : Option LogId → List SmEffect
  | some l => [.storeLastAppliedIndex l.index, .storeLastAppliedTerm l.term]
  | none => []

def highestOf (highest : Option LogId) (chunk : List ApplyEntry) : Option LogId :=
  chunk.foldl (fun _ e => some e.logId) highest

/-- The loop either runs through, or stops at an entry with the cache written for
the entries before it. -/
theorem applyLoop_cases (chunk : List ApplyEntry) (t : Txn SmDb) (results : List ApplyResult)
    (highest : Option LogId) :
    (∃ t', applyLoop chunk t results highest =
        ⟨chunk.map cacheEffect,
          .ok (t', results ++ resultsOf (t.env .kvDb).get chunk, highestOf highest chunk)⟩ ∧
      (∀ e ∈ chunk, e.command.Storable) ∧ Wrote t t' (logWrites chunk)) ∨
    ∃ done rest err, chunk = done ++ rest ∧
      applyLoop chunk t results highest = ⟨done.map cacheEffect, .error err⟩ := by
  induction chunk generalizing t results highest with
  | nil => exact Or.inl ⟨t, by simp [applyLoop, resultsOf, highestOf]; rfl, by simp, Wrote.refl t⟩
  | cons e chunk ih =>
      rw [applyLoop]
      rcases smLmdb_bind (applyEntry t e) (fun p => do
          Call.emit (.insertEntryTerm e.index e.term)
          applyLoop chunk p.1 (results ++ [p.2]) (some e.logId))
        with ⟨⟨t₁, r⟩, hx, hcall⟩ | ⟨err, hcall⟩
      · obtain ⟨hst, hw, rfl⟩ := applyEntry_wrote hx
        rw [hcall, Call.emit_bind]
        rcases ih t₁ (results ++ [⟨e.index, e.command.outcome (t.env .kvDb).get⟩])
            (some e.logId) with ⟨t', hl, hsts, hws⟩ | ⟨done, rest, err, hsplit, hl⟩
        · refine Or.inl ⟨t', ?_, ?_, by simpa using hw.trans hws⟩
          · rw [hl]
            simp [cacheEffect, resultsOf, highestOf, hw.kv]
          · intro e' he'
            rcases List.mem_cons.mp he' with rfl | hmem
            · exact hst
            · exact hsts e' hmem
        · refine Or.inr ⟨e :: done, rest, err, by simp [hsplit], ?_⟩
          rw [hl]
          rfl
      · exact Or.inr ⟨[], e :: chunk, err, rfl, hcall⟩

/-- **A chunk is all or nothing in the store.** Either the commit publishes the
contents run through the chunk's writes, and then `last_applied` moves; or the
call fails and only the term cache was touched. -/
theorem applyChunk_cases (flt : Faults) (sm : LmdbStateMachine) (chunk : List ApplyEntry) :
    (∃ env, applyChunk flt sm chunk =
        ⟨chunk.map cacheEffect ++ SmEffect.commit env :: highestEffects (highestOf none chunk),
          .ok (resultsOf sm.kv.get chunk)⟩ ∧
      (∀ e ∈ chunk, e.command.Storable) ∧
      (env .kvDb).get = Contents.run sm.kv.get (logWrites chunk) ∧
      ∀ d, d ≠ SmDb.kvDb → env d = sm.env d) ∨
    ∃ done rest err, chunk = done ++ rest ∧
      applyChunk flt sm chunk = ⟨done.map cacheEffect, .error err⟩ := by
  unfold applyChunk
  cases hb : Txn.begin flt sm.env with
  | error err => exact Or.inr ⟨[], chunk, lmdbErr err, rfl, rfl⟩
  | ok t =>
      obtain ⟨henv, -⟩ := Txn.begin_ok hb
      rcases applyLoop_cases chunk t [] none with
        ⟨t', hl, hst, hw⟩ | ⟨done, rest, err, hsplit, hl⟩
      · cases hcm : t'.commit with
        | error err =>
            refine Or.inr ⟨chunk, [], lmdbErr err, by simp, ?_⟩
            rw [smLmdb, Except.mapError, Call.ok_bind, Call.bind_of_ok (by rw [hl])]
            simp [hl, hcm, smLmdb, Except.mapError]
        | ok env =>
            rw [Txn.commit_ok hcm] at hcm
            refine Or.inl ⟨t'.env, ?_, hst, ?_, ?_⟩
            · rw [smLmdb, Except.mapError, Call.ok_bind, Call.bind_of_ok (by rw [hl])]
              simp only [hl, hcm, smLmdb, Except.mapError, Call.ok_bind, Call.emit_bind,
                List.nil_append, henv]
              cases highestOf none chunk <;> rfl
            · rw [hw.kv, henv]
              rfl
            · intro d hd
              rw [hw.other d hd, henv]
      · refine Or.inr ⟨done, rest, err, hsplit, ?_⟩
        rw [smLmdb, Except.mapError, Call.ok_bind, Call.bind_of_error (by rw [hl])]
        rw [hl]

/-! ## The state after a chunk, and after a cut log -/

/-- The state machine went through `log`: what holds after one successful chunk and,
chunk by chunk, after a whole log. -/
structure Applied (sm sm' : LmdbStateMachine) (log : List ApplyEntry)
    (results : List ApplyResult) : Prop where
  storable : ∀ e ∈ log, e.command.Storable
  kv : sm'.kv.get = Contents.run sm.kv.get (logWrites log)
  other : ∀ d, d ≠ SmDb.kvDb → sm'.env d = sm.env d
  results : results = resultsOf sm.kv.get log
  lastApplied : sm'.lastApplied = lastLogId sm.lastApplied log
  entryTerms : sm'.entryTerms = cacheTerms sm.entryTerms log
  running : sm'.running = sm.running
  snapshotMeta : sm'.snapshotMeta = sm.snapshotMeta

theorem Applied.refl (sm : LmdbStateMachine) : Applied sm sm [] [] := by
  constructor <;> simp [resultsOf, lastLogId, cacheTerms]

theorem Applied.trans {sm sm' sm'' : LmdbStateMachine} {log log' : List ApplyEntry}
    {rs rs' : List ApplyResult} (h : Applied sm sm' log rs) (h' : Applied sm' sm'' log' rs') :
    Applied sm sm'' (log ++ log') (rs ++ rs') where
  storable := by
    intro e he
    rcases List.mem_append.mp he with hmem | hmem
    · exact h.storable e hmem
    · exact h'.storable e hmem
  kv := by rw [h'.kv, h.kv, logWrites_append, Contents.run_append]
  other := fun d hd => (h'.other d hd).trans (h.other d hd)
  results := by rw [h.results, h'.results, h.kv, resultsOf_append]
  lastApplied := by rw [h'.lastApplied, h.lastApplied, lastLogId, lastLogId, lastLogId,
    List.foldl_append]
  entryTerms := by rw [h'.entryTerms, h.entryTerms, cacheTerms, cacheTerms, cacheTerms,
    List.foldl_append]
  running := h'.running.trans h.running
  snapshotMeta := h'.snapshotMeta.trans h.snapshotMeta

theorem foldl_cacheEffect (sm : LmdbStateMachine) (chunk : List ApplyEntry) :
    (chunk.map cacheEffect).foldl LmdbStateMachine.exec sm =
      { sm with entryTerms := cacheTerms sm.entryTerms chunk } := by
  induction chunk generalizing sm with
  | nil => rfl
  | cons e chunk ih =>
      rw [List.map_cons, List.foldl_cons, ih]
      rfl

theorem foldl_highestEffects (sm : LmdbStateMachine) (chunk : List ApplyEntry) :
    (highestEffects (highestOf none chunk)).foldl LmdbStateMachine.exec sm =
      { sm with
        lastAppliedIndex := (lastLogId sm.lastApplied chunk).index
        lastAppliedTerm := (lastLogId sm.lastApplied chunk).term } := by
  rcases List.eq_nil_or_concat chunk with rfl | ⟨log, e, rfl⟩
  · rfl
  · simp [highestOf, lastLogId, List.foldl_append, highestEffects, LmdbStateMachine.exec]

/-- **A chunk that returns `Ok`.** -/
theorem applyChunk_applied {flt : Faults} {sm : LmdbStateMachine} {chunk : List ApplyEntry}
    {rs : List ApplyResult} (h : (applyChunk flt sm chunk).result = .ok rs) :
    Applied sm (sm.after (applyChunk flt sm chunk)) chunk rs := by
  rcases applyChunk_cases flt sm chunk with ⟨env, hcall, hst, hkv, hother⟩ | ⟨_, _, err, _, hcall⟩
  · rw [hcall] at h ⊢
    cases h
    have hafter : sm.after (⟨chunk.map cacheEffect ++
        SmEffect.commit env :: highestEffects (highestOf none chunk),
        .ok (resultsOf sm.kv.get chunk)⟩ : SmCall (List ApplyResult)) =
        { sm with
          env := env
          entryTerms := cacheTerms sm.entryTerms chunk
          lastAppliedIndex := (lastLogId sm.lastApplied chunk).index
          lastAppliedTerm := (lastLogId sm.lastApplied chunk).term } := by
      simp only [LmdbStateMachine.after, Call.after, List.foldl_append, List.foldl_cons,
        foldl_cacheEffect, foldl_highestEffects]
      rfl
    rw [hafter]
    exact ⟨hst, hkv, hother, rfl, rfl, rfl, rfl, rfl⟩
  · rw [hcall] at h
    cases h

/-- A chunk that returns `Err` changed nothing but the term cache. -/
theorem applyChunk_failed {flt : Faults} {sm : LmdbStateMachine} {chunk : List ApplyEntry}
    {err : EngineError} (h : (applyChunk flt sm chunk).result = .error err) :
    ∃ terms, sm.after (applyChunk flt sm chunk) = { sm with entryTerms := terms } := by
  rcases applyChunk_cases flt sm chunk with ⟨env, hcall, _⟩ | ⟨done, _, err, _, hcall⟩
  · rw [hcall] at h
    cases h
  · refine ⟨cacheTerms sm.entryTerms done, ?_⟩
    rw [hcall]
    exact foldl_cacheEffect sm done

/-- A log delivered in consecutive chunks, every call returning `Ok`. -/
def applyChunks : LmdbStateMachine → List (Faults × List ApplyEntry) →
    Except EngineError (LmdbStateMachine × List ApplyResult)
  | sm, [] => .ok (sm, [])
  | sm, (flt, chunk) :: cuts => do
      let results ← (applyChunk flt sm chunk).result
      let (sm', results') ← applyChunks (sm.after (applyChunk flt sm chunk)) cuts
      return (sm', results ++ results')

/-- The entries a cut log delivers. -/
def cutEntries (cuts : List (Faults × List ApplyEntry)) : List ApplyEntry :=
  (cuts.map Prod.snd).flatten

theorem applyChunks_applied {sm sm' : LmdbStateMachine}
    {cuts : List (Faults × List ApplyEntry)} {rs : List ApplyResult}
    (h : applyChunks sm cuts = .ok (sm', rs)) : Applied sm sm' (cutEntries cuts) rs := by
  induction cuts generalizing sm rs with
  | nil =>
      cases h
      exact Applied.refl sm'
  | cons c cuts ih =>
      obtain ⟨flt, chunk⟩ := c
      obtain ⟨rs₁, h₁, h⟩ := bind_eq_ok.mp h
      obtain ⟨⟨sm₂, rs₂⟩, h₂, h⟩ := bind_eq_ok.mp h
      cases h
      exact (applyChunk_applied h₁).trans (ih h₂)

/-! ## Without faults a storable chunk applies -/

theorem applyOps_noFaults {ops : List BatchOp} {t : Txn SmDb} (ht : t.faults = Faults.none)
    (hst : ∀ op ∈ ops, op.Storable) :
    ∃ t', applyOps ops t = .ok t' ∧ t'.faults = Faults.none := by
  induction ops generalizing t with
  | nil => exact ⟨t, rfl, ht⟩
  | cons op ops ih =>
      have hop := hst op List.mem_cons_self
      have hops : ∀ o ∈ ops, o.Storable := fun o ho => hst o (List.mem_cons_of_mem _ ho)
      have hstep : ∃ t₁, applyOp t op = .ok t₁ ∧ t₁.faults = Faults.none := by
        cases op with
        | insert key value => exact Txn.put_noFaults ht hop
        | delete key => exact Txn.delete_noFaults ht hop
      obtain ⟨t₁, h₁, ht₁⟩ := hstep
      obtain ⟨t₂, h₂, ht₂⟩ := ih ht₁ hops
      exact ⟨t₂, bind_eq_ok.mpr ⟨t₁, h₁, h₂⟩, ht₂⟩

theorem applyEntry_noFaults {t : Txn SmDb} {e : ApplyEntry} (ht : t.faults = Faults.none)
    (hst : e.command.Storable) :
    ∃ t' r, applyEntry t e = .ok (t', r) ∧ t'.faults = Faults.none := by
  unfold applyEntry
  cases hc : e.command with
  | insert key value ttlSecs =>
      rw [hc] at hst
      obtain ⟨t', h, ht'⟩ := Txn.put_noFaults (d := SmDb.kvDb) (v := value) ht hst
      exact ⟨t', _, bind_eq_ok.mpr ⟨t', h, rfl⟩, ht'⟩
  | delete key =>
      rw [hc] at hst
      obtain ⟨t', h, ht'⟩ := Txn.delete_noFaults (d := SmDb.kvDb) ht hst
      exact ⟨t', _, bind_eq_ok.mpr ⟨t', h, rfl⟩, ht'⟩
  | compareAndSwap key expected value =>
      rw [hc] at hst
      obtain ⟨hne, hvalid⟩ := hst
      have hget := Txn.get_noFaults (d := SmDb.kvDb) ht hne
      simp only [casMatch_eq]
      by_cases hm : (t.env .kvDb).get key = expected
      · have hk : ValidKey key := by
          by_contra hk
          exact hk (hvalid (by rw [← hm, Database.get_of_not_valid hk]))
        obtain ⟨t', h, ht'⟩ := Txn.put_noFaults (t := { t with ops := t.ops + 1 })
          (d := SmDb.kvDb) (v := value) ht hk
        refine ⟨t', .success e.index, bind_eq_ok.mpr ⟨_, hget, ?_⟩, ht'⟩
        simp only [hm, decide_true, if_true]
        exact bind_eq_ok.mpr ⟨t', h, rfl⟩
      · refine ⟨{ t with ops := t.ops + 1 }, .failure e.index, bind_eq_ok.mpr ⟨_, hget, ?_⟩, ht⟩
        simp only [hm, decide_false]
        rfl
  | batch ops =>
      rw [hc] at hst
      obtain ⟨t', h, ht'⟩ := applyOps_noFaults ht hst
      exact ⟨t', _, bind_eq_ok.mpr ⟨t', h, rfl⟩, ht'⟩
  | noop => exact ⟨t, _, rfl, ht⟩

theorem applyLoop_noFaults {chunk : List ApplyEntry} {t : Txn SmDb}
    (results : List ApplyResult) (highest : Option LogId) (ht : t.faults = Faults.none)
    (hst : ∀ e ∈ chunk, e.command.Storable) :
    ∃ p, (applyLoop chunk t results highest).result = .ok p := by
  induction chunk generalizing t results highest with
  | nil => exact ⟨_, rfl⟩
  | cons e chunk ih =>
      obtain ⟨t₁, r, h₁, ht₁⟩ := applyEntry_noFaults ht (hst e List.mem_cons_self)
      obtain ⟨p, hp⟩ := ih (results ++ [r]) (some e.logId) ht₁
        (fun e' he' => hst e' (List.mem_cons_of_mem _ he'))
      refine ⟨p, ?_⟩
      rw [applyLoop, h₁]
      exact hp

/-- **Only keys matter.** Without injected faults, a chunk whose commands are
storable is applied, whatever the store holds. -/
theorem applyChunk_noFaults (sm : LmdbStateMachine) {chunk : List ApplyEntry}
    (hst : ∀ e ∈ chunk, e.command.Storable) :
    ∃ rs, (applyChunk Faults.none sm chunk).result = .ok rs := by
  obtain ⟨⟨t', rs, highest⟩, hl⟩ :=
    applyLoop_noFaults (t := ⟨Faults.none, 1, sm.env⟩) [] none rfl hst
  have hf : t'.faults = Faults.none := by
    rcases applyLoop_cases chunk ⟨Faults.none, 1, sm.env⟩ [] none with
      ⟨t₁, hcall, -, hw⟩ | ⟨_, _, err, _, hcall⟩
    · rw [hcall] at hl
      cases hl
      exact hw.faults
    · rw [hcall] at hl
      cases hl
  refine ⟨rs, ?_⟩
  unfold applyChunk
  rw [Txn.begin_noFaults, smLmdb, Except.mapError, Call.ok_bind, Call.bind_of_ok hl]
  simp only [Txn.commit_noFaults hf, smLmdb, Except.mapError, Call.ok_bind, Call.emit_bind]
  cases highest <;> rfl

/-- A storable log, delivered without faults, is applied however it is cut. -/
theorem applyChunks_noFaults (sm : LmdbStateMachine) (cuts : List (List ApplyEntry))
    (hst : ∀ chunk ∈ cuts, ∀ e ∈ chunk, e.command.Storable) :
    ∃ sm' rs, applyChunks sm (cuts.map (Faults.none, ·)) = .ok (sm', rs) := by
  induction cuts generalizing sm with
  | nil => exact ⟨sm, [], rfl⟩
  | cons chunk cuts ih =>
      obtain ⟨rs, h₁⟩ := applyChunk_noFaults sm (hst chunk List.mem_cons_self)
      obtain ⟨sm', rs', h₂⟩ := ih (sm.after (applyChunk Faults.none sm chunk))
        (fun c hc => hst c (List.mem_cons_of_mem _ hc))
      exact ⟨sm', rs ++ rs', bind_eq_ok.mpr ⟨rs, h₁, bind_eq_ok.mpr ⟨(sm', rs'), h₂, rfl⟩⟩⟩

@[simp] theorem cutEntries_noFaults (cuts : List (List ApplyEntry)) :
    cutEntries (cuts.map (Faults.none, ·)) = cuts.flatten := by
  simp [cutEntries, Function.comp_def]

end DLmdb
