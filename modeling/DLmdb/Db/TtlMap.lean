import DLmdb.Db.Writes
import DLmdb.Framework.Runs

/-!
# The store as a map with expiry times

The reference: a map from keys to payloads, each with an optional expiry, in which
nothing disappears by itself. One node, its writes applied and its reads answered
one after the other, behaves as this map, although its store keeps expired values
for a while and drops them on reads. LMDB takes no empty key: a read of one is
answered with its error.
-/

namespace DLmdb

open Framework Lmdb

/-! ## The reference map -/

structure Stored where
  payload : Bytes
  expiry : Option ℕ
deriving DecidableEq

abbrev Reference := Bytes → Option Stored

/-- The payload, while its time has not come. -/
def Stored.live (s : Stored) (t : UInt64) : Option Bytes :=
  match s.expiry with
  | none => some s.payload
  | some e => if t.toNat < e then some s.payload else none

namespace Reference

/-- What the map has for `k` at time `t`. -/
def at' (r : Reference) (k : Bytes) (t : UInt64) : Option Bytes := (r k).bind (·.live t)

def applyOp (r : Reference) : BatchOp → Reference
  | .insert key value => Function.update r key (some ⟨value, none⟩)
  | .delete key => Function.update r key none

end Reference

/-- The writes of the reference map. -/
inductive MapWrite where
  | put (key value : Bytes)
  | putWithTtl (now : UInt64) (key value : Bytes) (ttlSecs : UInt64)
  | delete (key : Bytes)
  | batch (ops : List BatchOp)

/-- The call that makes the write. -/
def MapWrite.call : MapWrite → WriteCall
  | .put key value => .put key value
  | .putWithTtl now key value ttlSecs => .putWithTtl now key value ttlSecs
  | .delete key => .delete key
  | .batch ops => .batch ops

def Reference.write (r : Reference) : MapWrite → Reference
  | .put key value => Function.update r key (some ⟨value, none⟩)
  | .putWithTtl now key value ttlSecs =>
      Function.update r key (some ⟨value, some (now.toNat + ttlSecs.toNat)⟩)
  | .delete key => Function.update r key none
  | .batch ops => ops.foldl Reference.applyOp r

/-- `now + ttl_secs < 2^64`. -/
def MapWrite.NoOverflow : MapWrite → Prop
  | .putWithTtl now _ _ ttlSecs => now.toNat + ttlSecs.toNat < 2 ^ 64
  | _ => True

/-! ## How the store tracks the map -/

/-- The stored bytes for a reference value, where the latest clock reading is `t`: the
matching envelope; or nothing any more, if its time has come. -/
def Tracked (t : UInt64) : Option Stored → Option Bytes → Prop
  | none, x => x = none
  | some ⟨payload, none⟩, x => x = some (Value.encodeRaw payload)
  | some ⟨payload, some e⟩, x =>
      (∃ ts : UInt64, ts.toNat = e ∧ x = some (Value.encodeTtl payload (some ts))) ∨
        x = none ∧ e ≤ t.toNat

def Tracks (t : UInt64) (σ : Contents Bytes Bytes) (r : Reference) : Prop :=
  ∀ k, Tracked t (r k) (σ k)

theorem Tracked.mono {t t' : UInt64} (ht : t ≤ t') {s : Option Stored} {x : Option Bytes}
    (h : Tracked t s x) : Tracked t' s x := by
  match s, h with
  | none, h => exact h
  | some ⟨payload, none⟩, h => exact h
  | some ⟨payload, some e⟩, h =>
      rcases h with hstored | ⟨hx, he⟩
      · exact Or.inl hstored
      · exact Or.inr ⟨hx, Nat.le_trans he (UInt64.le_iff_toNat_le.mp ht)⟩

theorem Tracks.mono {t t' : UInt64} (ht : t ≤ t') {σ : Contents Bytes Bytes} {r : Reference}
    (h : Tracks t σ r) : Tracks t' σ r := fun k => (h k).mono ht

/-- **What is stored means what the map says**, at any later time. -/
theorem Tracked.logicalValue {t₀ t : UInt64} (ht : t₀ ≤ t) {s : Option Stored}
    {x : Option Bytes} (h : Tracked t₀ s x) :
    logicalValue x t = .ok (s.bind (·.live t)) := by
  match s, h with
  | none, h =>
      have hx : x = none := h
      rw [hx]
      rfl
  | some ⟨payload, none⟩, h =>
      have hx : x = some (Value.encodeRaw payload) := h
      rw [hx]
      rfl
  | some ⟨payload, some e⟩, h =>
      show DLmdb.logicalValue x t = .ok (if t.toNat < e then some payload else none)
      rcases h with ⟨ts, rfl, rfl⟩ | ⟨rfl, he⟩
      · rw [DLmdb.logicalValue, decodeLiveValue_encodeTtl]
        by_cases hle : ts ≤ t
        · have hlt : ¬ t.toNat < ts.toNat := Nat.not_lt.mpr (UInt64.le_iff_toNat_le.mp hle)
          rw [if_pos hle, if_neg hlt]
        · have hlt : t.toNat < ts.toNat := UInt64.lt_iff_toNat_lt.mp (UInt64.not_le.mp hle)
          rw [if_neg hle, if_pos hlt]
      · have hlt : ¬ t.toNat < e :=
          Nat.not_lt.mpr (Nat.le_trans he (UInt64.le_iff_toNat_le.mp ht))
        rw [if_neg hlt]
        rfl

/-- An expired value may go. -/
theorem Tracked.removed {t₀ t : UInt64} {s : Option Stored} {v : Bytes}
    (h : Tracked t₀ s (some v)) (hv : ExpiredAt v t) : Tracked t s none := by
  match s, h with
  | none, h => cases h
  | some ⟨payload, none⟩, h =>
      cases h
      have hlive := decodeLiveValue_encodeRaw payload t
      rw [hv] at hlive
      cases hlive
  | some ⟨payload, some e⟩, h =>
      rcases h with ⟨ts, rfl, hx⟩ | ⟨hx, -⟩
      · cases hx
        refine Or.inr ⟨rfl, ?_⟩
        have hexp : decodeLiveValue (Value.encodeTtl payload (some ts)) t = .ok .expired := hv
        rw [decodeLiveValue_encodeTtl] at hexp
        split at hexp
        · rename_i hle
          exact UInt64.le_iff_toNat_le.mp hle
        · cases hexp
      · cases hx

/-! ## Writes keep the store on track -/

/-- One key assigned on both sides. -/
theorem Tracks.assign {t : UInt64} {σ : Contents Bytes Bytes} {r : Reference}
    (h : Tracks t σ r) {key : Bytes} {s : Option Stored} {x : Option Bytes}
    (hx : Tracked t s x) :
    Tracks t (σ.run [.assign key x]) (Function.update r key s) := by
  intro k
  show Tracked t (Function.update r key s k) (Function.update σ key x k)
  by_cases hk : k = key
  · subst hk
    rw [Function.update_self, Function.update_self]
    exact hx
  · rw [Function.update_of_ne hk, Function.update_of_ne hk]
    exact h k

theorem Tracks.ops {t : UInt64} {σ : Contents Bytes Bytes} {r : Reference} (h : Tracks t σ r)
    (ops : List BatchOp) :
    Tracks t (σ.run ((ops.map Db.encodeOp).map BatchOp.write))
      (ops.foldl Reference.applyOp r) := by
  induction ops generalizing σ r with
  | nil => exact h
  | cons op ops ih =>
      have hop : Tracks t (σ.run [(Db.encodeOp op).write]) (r.applyOp op) := by
        cases op with
        | insert key value => exact h.assign rfl
        | delete key => exact h.assign rfl
      exact ih hop

/-- **One accepted call**, applied to the store and to the map. -/
theorem Tracks.write {t : UInt64} {σ : Contents Bytes Bytes} {r : Reference}
    (h : Tracks t σ r) {cfg : DLmdbConfig} {w : MapWrite} (hw : w.NoOverflow) {c : Command}
    (hc : w.call.submit cfg = .ok c) : Tracks t (σ.run c.writes) (r.write w) := by
  cases w with
  | put key value =>
      obtain ⟨-, -, rfl⟩ := put_eq_ok.mp hc
      exact h.assign rfl
  | putWithTtl now key value ttlSecs =>
      obtain ⟨-, -, rfl⟩ := putWithTtl_eq_ok.mp hc
      have hsum : (now + ttlSecs).toNat = now.toNat + ttlSecs.toNat := by
        rw [UInt64.toNat_add]
        exact Nat.mod_eq_of_lt hw
      exact h.assign (Or.inl ⟨now + ttlSecs, hsum, rfl⟩)
  | delete key =>
      cases hc
      exact h.assign rfl
  | batch ops =>
      cases hc
      exact h.ops ops

/-- A write at its place in the log. -/
structure LogWrite where
  index : UInt64
  term : UInt64
  write : MapWrite

def LogWrite.client (w : LogWrite) : ClientWrite := ⟨w.index, w.term, w.write.call⟩

/-- **A chunk of accepted calls.** -/
theorem Tracks.chunk {t : UInt64} {σ : Contents Bytes Bytes} {r : Reference}
    (h : Tracks t σ r) {cfg : DLmdbConfig} {ws : List LogWrite}
    (hws : ∀ w ∈ ws, (∃ c, w.write.call.submit cfg = .ok c) ∧ w.write.NoOverflow) :
    Tracks t (σ.run (logWrites (submittedChunk cfg (ws.map LogWrite.client))))
      (ws.foldl (fun r w => r.write w.write) r) := by
  induction ws generalizing σ r with
  | nil => exact h
  | cons w ws ih =>
      obtain ⟨⟨c, hc⟩, hw⟩ := hws w List.mem_cons_self
      have hentry : w.client.entry? cfg = some ⟨w.index, w.term, c⟩ := by
        have hsubmit : w.client.call.submit cfg = .ok c := hc
        rw [ClientWrite.entry?, hsubmit]
        rfl
      have hchunk : submittedChunk cfg ((w :: ws).map LogWrite.client) =
          ⟨w.index, w.term, c⟩ :: submittedChunk cfg (ws.map LogWrite.client) :=
        List.filterMap_cons_some hentry
      rw [hchunk, logWrites_cons, Contents.run_append]
      exact ih (h.write hw hc) (fun w' hw' => hws w' (List.mem_cons_of_mem _ hw'))

/-! ## Reads keep the store on track and answer from the map -/

/-- The map stands for what is left when expired values are reaped. -/
theorem Tracks.reaped {t₀ t : UInt64} {σ τ : Contents Bytes Bytes} {r : Reference}
    (h : Tracks t₀ σ r) (ht : t₀ ≤ t) (hreaped : Reaped (ExpiredAt · t) σ τ) : Tracks t τ r := by
  intro k
  rcases hreaped k with hsame | ⟨hnone, v, hv, hexp⟩
  · rw [hsame]
    exact (h k).mono ht
  · have hk := h k
    rw [hv] at hk
    rw [hnone]
    exact hk.removed hexp

/-- The answer to a point read: what the map has, or LMDB's error for the empty key. -/
def Reference.read (r : Reference) (key : Bytes) (t : UInt64) : Except Error (Option Bytes) :=
  if key = [] then .error (.engine (lmdbErr .badValSize)) else .ok (r.at' key t)

theorem Tracks.fetch {t₀ t : UInt64} {sm : LmdbStateMachine} {r : Reference}
    (h : Tracks t₀ sm.kv.get r) (ht : t₀ ≤ t) (key : Bytes) :
    (Db.fetchLocal Faults.none sm key t).result = r.read key t ∧
      Tracks t (sm.after (Db.fetchLocal Faults.none sm key t)).kv.get r := by
  constructor
  · by_cases hk : key = []
    · subst hk
      rfl
    · rw [fetchLocal_noFaults sm hk, (h key).logicalValue ht, Reference.read, if_neg hk]
      rfl
  · exact h.reaped ht (fetchLocal_reaped Faults.none sm key t)

/-- The readings of the clock for several keys, none before the previous one. -/
def InOrder : UInt64 → List (Bytes × UInt64) → Prop
  | _, [] => True
  | t₀, (_, t) :: keys => t₀ ≤ t ∧ InOrder t keys

def lastReading (t₀ : UInt64) (keys : List (Bytes × UInt64)) : UInt64 :=
  keys.foldl (fun _ p => p.2) t₀

/-- The arguments of `get_multi` when no storage operation fails. -/
def multiArgs (keys : List (Bytes × UInt64)) : List (Bytes × Faults × UInt64) :=
  keys.map (fun p => (p.1, Faults.none, p.2))

theorem InOrder.le_lastReading {t₀ : UInt64} {keys : List (Bytes × UInt64)}
    (h : InOrder t₀ keys) : t₀ ≤ lastReading t₀ keys := by
  induction keys generalizing t₀ with
  | nil => exact UInt64.le_refl _
  | cons p keys ih =>
      obtain ⟨hle, hkeys⟩ := h
      exact UInt64.le_trans hle (ih hkeys)

/-- The answer to `get_multi`: key by key, up to the first error. -/
def Reference.readAll (r : Reference) : List (Bytes × UInt64) → Except Error (List (Option Bytes))
  | [] => .ok []
  | (key, t) :: keys => do
      let value ← r.read key t
      let values ← r.readAll keys
      return value :: values

theorem Tracks.getMulti {t₀ : UInt64} {sm : LmdbStateMachine} {r : Reference}
    (h : Tracks t₀ sm.kv.get r) {keys : List (Bytes × UInt64)} (hkeys : InOrder t₀ keys) :
    (Db.getMulti sm (multiArgs keys)).result = r.readAll keys ∧
      Tracks (lastReading t₀ keys) (sm.after (Db.getMulti sm (multiArgs keys))).kv.get r := by
  induction keys generalizing t₀ sm with
  | nil => exact ⟨rfl, h⟩
  | cons p keys ih =>
      obtain ⟨key, t⟩ := p
      obtain ⟨hle, hkeys⟩ := hkeys
      obtain ⟨hresult, htracks⟩ := h.fetch hle key
      have hcall : Db.getMulti sm (multiArgs ((key, t) :: keys)) =
          (Db.fetchLocal Faults.none sm key t >>= fun value =>
            Db.getMulti (sm.after (Db.fetchLocal Faults.none sm key t)) (multiArgs keys) >>=
              fun values => pure (value :: values)) := rfl
      rw [hcall]
      cases hr : r.read key t with
      | error e =>
          -- the first error ends the call
          rw [hr] at hresult
          constructor
          · rw [Call.bind_of_error hresult, Reference.readAll, hr]
            rfl
          · rw [LmdbStateMachine.after, Call.after_bind_of_error hresult]
            exact htracks.mono hkeys.le_lastReading
      | ok value =>
          rw [hr] at hresult
          obtain ⟨hrest, htracks'⟩ := ih htracks hkeys
          constructor
          · rw [Call.bind_of_ok hresult, Call.bind_pure_eq, Reference.readAll, hr]
            show (Db.getMulti _ (multiArgs keys)).result.map _ =
              (r.readAll keys >>= fun values => Except.ok (value :: values))
            rw [hrest]
            cases r.readAll keys <;> rfl
          · rw [LmdbStateMachine.after, Call.after_bind_of_ok hresult, Call.bind_pure_eq]
            exact htracks'

/-- **A whole scan** lists the live entries of the map, in key order. -/
theorem Tracks.scanAll {t₀ t : UInt64} {sm : LmdbStateMachine} {r : Reference}
    (h : Tracks t₀ sm.kv.get r) (ht : t₀ ≤ t) :
    ∃ entries, Db.scanAll Faults.none sm none t = .ok ⟨entries, sm.lastAppliedIndex⟩ ∧
      entries.Pairwise (fun a b => compare a.1 b.1 = .lt) ∧
      ∀ k payload, (k, payload) ∈ entries ↔ r.at' k t = some payload := by
  refine ⟨scanItems (some (decodeForScan t)) sm.kv.toList, ?_, ?_, ?_⟩
  · rw [Db.scanAll, scanAll_noFaults]
    rfl
  · exact scanItems_sorted _ sm.kv.toList_sorted
  · intro k payload
    have hlogical := (h k).logicalValue ht
    rw [mem_scanItems]
    constructor
    · rintro ⟨v, hget, hf⟩
      rw [hget, decodeForScan_eq_some.mp hf] at hlogical
      exact (Except.ok.inj hlogical).symm
    · intro hlive
      have hok : logicalValue (sm.kv.get k) t = .ok (some payload) := by
        rw [hlogical]
        exact congrArg Except.ok hlive
      cases hget : sm.kv.get k with
      | none =>
          rw [hget] at hok
          cases hok
      | some v =>
          rw [hget] at hok
          exact ⟨v, rfl, decodeForScan_eq_some.mpr hok⟩

/-! ## Runs -/

inductive MapEvent where
  | writes (flt : Faults) (ws : List LogWrite)
  | get (key : Bytes) (now : UInt64)
  | existsKey (key : Bytes) (now : UInt64)
  | getMulti (keys : List (Bytes × UInt64))
  | scanAll (now : UInt64)

/-- A node, the reference map beside it, and the latest clock reading of a read. -/
structure MapRun where
  sm : LmdbStateMachine
  reference : Reference
  clock : UInt64

/-- An empty node beside an empty map. -/
def MapRun.empty : MapRun := ⟨freshStateMachine, fun _ => none, 0⟩

namespace MapRun

variable (cfg : DLmdbConfig)

/-- `apply_chunk` on the accepted calls. -/
def applyWrites (s : MapRun) (flt : Faults) (ws : List LogWrite) : SmCall (List ApplyResult) :=
  applyChunk flt s.sm (submittedChunk cfg (ws.map LogWrite.client))

def step (s : MapRun) : MapEvent → MapRun
  | .writes flt ws =>
      { s with
        sm := s.sm.after (s.applyWrites cfg flt ws)
        reference := ws.foldl (fun r w => r.write w.write) s.reference }
  | .get key now =>
      { s with sm := s.sm.after (Db.get Faults.none s.sm key now), clock := now }
  | .existsKey key now =>
      { s with sm := s.sm.after (Db.existsKey Faults.none s.sm key now), clock := now }
  | .getMulti keys =>
      { s with
        sm := s.sm.after (Db.getMulti s.sm (multiArgs keys))
        clock := lastReading s.clock keys }
  | .scanAll now => { s with clock := now }

/-- Every write is accepted, applied without error, and within `u64`; the clock of the
reads never goes back. -/
def Valid (s : MapRun) : MapEvent → Prop
  | .writes flt ws =>
      (∀ w ∈ ws, (∃ c, w.write.call.submit cfg = .ok c) ∧ w.write.NoOverflow) ∧
        ∃ rs, (s.applyWrites cfg flt ws).result = .ok rs
  | .get _ now => s.clock ≤ now
  | .existsKey _ now => s.clock ≤ now
  | .getMulti keys => InOrder s.clock keys
  | .scanAll now => s.clock ≤ now

/-- The call returns what the map says. -/
def Answers (s : MapRun) : MapEvent → Prop
  | .writes _ _ => True
  | .get key now => (Db.get Faults.none s.sm key now).result = s.reference.read key now
  | .existsKey key now =>
      (Db.existsKey Faults.none s.sm key now).result =
        (s.reference.read key now).map Option.isSome
  | .getMulti keys => (Db.getMulti s.sm (multiArgs keys)).result = s.reference.readAll keys
  | .scanAll now =>
      ∃ entries, Db.scanAll Faults.none s.sm none now = .ok ⟨entries, s.sm.lastAppliedIndex⟩ ∧
        entries.Pairwise (fun a b => compare a.1 b.1 = .lt) ∧
        ∀ k payload, (k, payload) ∈ entries ↔ s.reference.at' k now = some payload

/-- The invariant: the store tracks the map. -/
def Tracking (s : MapRun) : Prop := Tracks s.clock s.sm.kv.get s.reference

variable {cfg}

/-- **One call** keeps the store on track and answers from the map. -/
theorem Tracking.step {s : MapRun} (h : s.Tracking) {e : MapEvent} (he : s.Valid cfg e) :
    (s.step cfg e).Tracking ∧ s.Answers e := by
  cases e with
  | writes flt ws =>
      obtain ⟨hws, rs, hrs⟩ := he
      refine ⟨?_, trivial⟩
      show Tracks s.clock (s.sm.after (s.applyWrites cfg flt ws)).kv.get _
      rw [applyWrites, (applyChunk_applied hrs).kv]
      exact h.chunk hws
  | get key now =>
      obtain ⟨hresult, htracks⟩ := h.fetch he key
      exact ⟨htracks, hresult⟩
  | existsKey key now =>
      obtain ⟨hresult, htracks⟩ := h.fetch he key
      have hcall : Db.existsKey Faults.none s.sm key now =
          (Db.fetchLocal Faults.none s.sm key now >>= fun value => pure value.isSome) := rfl
      constructor
      · show Tracks now (s.sm.after (Db.existsKey Faults.none s.sm key now)).kv.get _
        rw [hcall, Call.bind_pure_eq]
        exact htracks
      · show (Db.existsKey Faults.none s.sm key now).result = _
        rw [hcall, Call.bind_pure_eq, ← hresult]
  | getMulti keys =>
      obtain ⟨hresult, htracks⟩ := h.getMulti he
      exact ⟨htracks, hresult⟩
  | scanAll now => exact ⟨h.mono he, h.scanAll he⟩

theorem empty_tracking : empty.Tracking := by
  intro k
  show freshStateMachine.kv.get k = none
  exact Database.get_empty k

end MapRun

/-- **The store is the map.** In every run of one node from empty, in which every write
is accepted and applied, every read of a non-empty key and every scan returns what
the reference map has at its time; a point read of the empty key returns LMDB's
error. -/
theorem store_refines_ttlMap (cfg : DLmdbConfig) {es : List MapEvent}
    (hes : Along (MapRun.step cfg) (MapRun.Valid cfg) MapRun.empty es) :
    Along (MapRun.step cfg) MapRun.Answers MapRun.empty es :=
  Along.of_invariant (fun _ _ hs he => hs.step he) MapRun.empty_tracking hes

/-- A value with a lifetime of 5 from time 3, overwritten never, read before and after
its time; a batch that overwrites its own insert. -/
theorem store_refines_ttlMap_run :
    let ws : List LogWrite := [⟨1, 1, .putWithTtl 3 [7] [1] 5⟩,
      ⟨2, 1, .batch [.insert [8] [2], .delete [8], .insert [9] [3]]⟩]
    let es : List MapEvent := [.writes Faults.none ws, .get [7] 7, .scanAll 7, .get [7] 8,
      .getMulti [([8], 8), ([9], 9)], .scanAll 10]
    Along (MapRun.step .default) MapRun.Answers MapRun.empty es := by
  intro ws es
  refine store_refines_ttlMap .default ⟨⟨?_, ?_⟩, ?_⟩
  · intro w hw
    rcases List.mem_cons.mp hw with rfl | hw
    · exact ⟨⟨_, rfl⟩, (by decide : (3 : UInt64).toNat + (5 : UInt64).toNat < 2 ^ 64)⟩
    · rw [List.mem_singleton.mp hw]
      exact ⟨⟨_, rfl⟩, trivial⟩
  · exact applyChunk_noFaults freshStateMachine (by decide)
  · -- the clock of the reads: 0, 7, 7, 8, 8, 9, 10
    have h₀ : (0 : UInt64) ≤ 7 := by decide
    have h₁ : (7 : UInt64) ≤ 8 := by decide
    have h₂ : (8 : UInt64) ≤ 9 := by decide
    have h₃ : (9 : UInt64) ≤ 10 := by decide
    exact ⟨h₀, UInt64.le_refl 7, h₁, ⟨UInt64.le_refl 8, h₂, trivial⟩, h₃, trivial⟩

/-- The empty key: absent from every map, and an error from the store. -/
theorem get_empty_key_not_none :
    (Db.get Faults.none freshStateMachine [] 0).result ≠ .ok (MapRun.empty.reference.at' [] 0) := by
  decide

end DLmdb
