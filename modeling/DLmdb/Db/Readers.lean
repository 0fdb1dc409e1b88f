import DLmdb.Db.Reads
import DLmdb.Framework.Reaping
import DLmdb.Framework.Runs
import DLmdb.StateMachine.Apply

/-!
# Point reads beside `apply_chunk`

A point read is two transactions: one fetches the stored bytes (`get`, `exists`,
`get_multi`), or the client does it at another node (`get_linearizable`,
`get_lease`); a second one removes the key, unconditionally, when the fetched bytes
turn out expired. Chunks are applied in between, and any number of reads are under
way at once.

`delete_local` does not look at what it deletes. So a read is harmless exactly as
long as no live value has come under its key since the fetch (`InTime`).
-/

namespace DLmdb

open Framework Lmdb

/-! ## A node that serves reads -/

/-- A read after its fetch: the key, the bytes it got, and the `shadow` of the key: what
the node stored under it at the fetch, or what applied entries have put there since. -/
structure PendingRead where
  key : Bytes
  raw : Option Bytes
  shadow : Option Bytes

/-- An applied entry, with the contents it was applied to and its result. -/
structure AppliedEntry where
  entry : ApplyEntry
  before : Contents Bytes Bytes
  result : ApplyResult

/-- A state machine, the reads under way, and two records of its run: the last value
written to each key (which removals by reads do not touch), and the applied
entries. -/
structure Server where
  sm : LmdbStateMachine
  pending : List PendingRead
  written : Contents Bytes Bytes
  history : List AppliedEntry

inductive ServerEvent where
  | apply (flt : Faults) (chunk : List ApplyEntry)
  | fetch (flt : Faults) (key : Bytes)
  | fetchRemote (key : Bytes) (raw : Option Bytes)
  | reap (flt : Faults) (i : ℕ) (now : UInt64)

/-- The entries of a chunk with what each of them found. -/
def recordChunk : Contents Bytes Bytes → List ApplyEntry → List ApplyResult → List AppliedEntry
  | σ, e :: chunk, r :: rs => ⟨e, σ, r⟩ :: recordChunk (σ.run e.command.writes) chunk rs
  | _, _, _ => []

namespace Server

/-- Any store may be the start; what it holds counts as written. -/
def start (sm : LmdbStateMachine) : Server := ⟨sm, [], sm.kv.get, []⟩

/-- The records of a chunk that was applied. -/
def applied (s : Server) (sm : LmdbStateMachine) (chunk : List ApplyEntry)
    (rs : List ApplyResult) : Server where
  sm := sm
  pending := s.pending.map fun p =>
    { p with shadow := leaves s.sm.kv.get (logWrites chunk) p.key p.shadow }
  written := fun k => leaves s.sm.kv.get (logWrites chunk) k (s.written k)
  history := s.history ++ recordChunk s.sm.kv.get chunk rs

/-- A fetch that returned `raw`. -/
def fetched (s : Server) (key : Bytes) (raw : Option Bytes) : Server :=
  { s with pending := s.pending ++ [⟨key, raw, s.sm.kv.get key⟩] }

def step (s : Server) : ServerEvent → Server
  | .apply flt chunk =>
      let sm := s.sm.after (applyChunk flt s.sm chunk)
      match (applyChunk flt s.sm chunk).result with
      | .ok rs => s.applied sm chunk rs
      | .error _ => { s with sm := sm }
  | .fetch flt key =>
      match s.sm.get flt key with
      | .ok raw => s.fetched key raw
      | .error _ => s
  | .fetchRemote key raw => s.fetched key raw
  | .reap flt i now =>
      match s.pending[i]? with
      | some p =>
          { s with
            sm := s.sm.after (Db.decodeAndReap flt s.sm p.key p.raw now)
            pending := s.pending.eraseIdx i }
      | none => s

/-- What the step of a read removes was expired when it read the clock. -/
def RemovesOnlyExpired (s : Server) : ServerEvent → Prop
  | .reap flt i now =>
      Reaped (ExpiredAt · now) s.sm.kv.get (s.step (.reap flt i now)).sm.kv.get
  | _ => True

/-- Where a read is about to remove its key: the key is gone already, or its shadow has
nothing live. -/
def InTime (s : Server) : ServerEvent → Prop
  | .reap _ i now =>
      ∀ p ∈ s.pending[i]?, (∃ v ∈ p.raw, ExpiredAt v now) →
        s.sm.kv.get p.key = none ∨ ∀ v ∈ p.shadow, ExpiredAt v now
  | _ => True

instance (s : Server) : (e : ServerEvent) → Decidable (s.InTime e)
  | .apply _ _ => inferInstanceAs (Decidable True)
  | .fetch _ _ => inferInstanceAs (Decidable True)
  | .fetchRemote _ _ => inferInstanceAs (Decidable True)
  | .reap _ i now =>
      inferInstanceAs (Decidable (∀ p ∈ s.pending[i]?, (∃ v ∈ p.raw, ExpiredAt v now) →
        s.sm.kv.get p.key = none ∨ ∀ v ∈ p.shadow, ExpiredAt v now))

end Server

/-- No reading of the clock is later than `t`. -/
def ReadUpTo (t : UInt64) (es : List ServerEvent) : Prop :=
  ∀ flt i now, ServerEvent.reap flt i now ∈ es → now ≤ t

namespace Server

/-! ## One step at a time -/

theorem step_apply_cases (s : Server) (flt : Faults) (chunk : List ApplyEntry) :
    (∃ sm rs, s.step (.apply flt chunk) = s.applied sm chunk rs ∧ Applied s.sm sm chunk rs) ∨
      ∃ terms, s.step (.apply flt chunk) = { s with sm := { s.sm with entryTerms := terms } } := by
  cases hr : (applyChunk flt s.sm chunk).result with
  | ok rs =>
      refine Or.inl ⟨_, rs, ?_, applyChunk_applied hr⟩
      simp only [step, hr]
  | error e =>
      obtain ⟨terms, hterms⟩ := applyChunk_failed hr
      refine Or.inr ⟨terms, ?_⟩
      simp only [step, hr, hterms]

theorem step_fetch_cases (s : Server) (flt : Faults) (key : Bytes) :
    s.step (.fetch flt key) = s.fetched key (s.sm.kv.get key) ∨ s.step (.fetch flt key) = s := by
  cases hg : s.sm.get flt key with
  | ok raw =>
      refine Or.inl ?_
      simp only [step, hg]
      rw [get_eq_ok hg]
  | error e =>
      refine Or.inr ?_
      simp only [step, hg]

/-- The second half of a read: nothing happens to the store, or the key of an expired
fetch goes. -/
theorem step_reap_cases (s : Server) (flt : Faults) (i : ℕ) (now : UInt64) :
    (s.step (.reap flt i now)).sm = s.sm ∨
      ∃ p, s.pending[i]? = some p ∧ (∃ v, p.raw = some v ∧ ExpiredAt v now) ∧
        (s.step (.reap flt i now)).sm = s.sm.withoutKey p.key := by
  cases hp : s.pending[i]? with
  | none =>
      refine Or.inl ?_
      simp only [step, hp]
  | some p =>
      have hsm : (s.step (.reap flt i now)).sm =
          s.sm.after (Db.decodeAndReap flt s.sm p.key p.raw now) := by
        simp only [step, hp]
      rw [hsm]
      rcases decodeAndReap_after flt s.sm p.key p.raw now with hsame | ⟨hexp, hgone⟩
      · exact Or.inl hsame
      · exact Or.inr ⟨p, rfl, hexp, hgone⟩

theorem step_reap_records (s : Server) (flt : Faults) (i : ℕ) (now : UInt64) :
    (s.step (.reap flt i now)).written = s.written ∧
      (s.step (.reap flt i now)).history = s.history ∧
      ∀ p ∈ (s.step (.reap flt i now)).pending, p ∈ s.pending := by
  cases hp : s.pending[i]? with
  | none =>
      simp only [step, hp]
      exact ⟨trivial, trivial, fun p h => h⟩
  | some p =>
      simp only [step, hp]
      exact ⟨trivial, trivial, fun q hq => List.mem_of_mem_eraseIdx hq⟩

/-! ## Shadows -/

/-- Under the key of a pending read stands its shadow, unless another read took it. -/
def Shadowed (s : Server) : Prop :=
  ∀ p ∈ s.pending, s.sm.kv.get p.key = none ∨ s.sm.kv.get p.key = p.shadow

theorem Shadowed.fetched {s : Server} (h : s.Shadowed) (key : Bytes) (raw : Option Bytes) :
    (s.fetched key raw).Shadowed := by
  intro p hp
  rcases List.mem_append.mp hp with hold | hnew
  · exact h p hold
  · rw [List.mem_singleton.mp hnew]
    exact Or.inr rfl

theorem Shadowed.step {s : Server} (h : s.Shadowed) (e : ServerEvent) : (s.step e).Shadowed := by
  cases e with
  | apply flt chunk =>
      rcases step_apply_cases s flt chunk with ⟨sm, rs, hstep, happ⟩ | ⟨terms, hstep⟩
      · rw [hstep]
        intro p hp
        obtain ⟨q, hq, rfl⟩ := List.mem_map.mp hp
        show sm.kv.get q.key = none ∨
          sm.kv.get q.key = leaves s.sm.kv.get (logWrites chunk) q.key q.shadow
        rw [happ.kv, run_eq_leaves]
        rcases leaves_cases s.sm.kv.get (logWrites chunk) q.key with hid | ⟨y, hy⟩
        · rw [hid, hid]
          exact h q hq
        · rw [hy, hy]
          exact Or.inr rfl
      · rw [hstep]
        exact h
  | fetch flt key =>
      rcases step_fetch_cases s flt key with hstep | hstep
      · rw [hstep]
        exact h.fetched key _
      · rw [hstep]
        exact h
  | fetchRemote key raw => exact h.fetched key raw
  | reap flt i now =>
      obtain ⟨-, -, hpending⟩ := step_reap_records s flt i now
      intro p hp
      rcases step_reap_cases s flt i now with hsm | ⟨q, -, -, hsm⟩
      · rw [hsm]
        exact h p (hpending p hp)
      · rw [hsm, withoutKey_kv]
        split
        · exact Or.inl rfl
        · exact h p (hpending p hp)

/-- **A read in time removes only what is expired.** -/
theorem Shadowed.removesOnlyExpired {s : Server} (h : s.Shadowed) {e : ServerEvent}
    (he : s.InTime e) : s.RemovesOnlyExpired e := by
  cases e with
  | apply flt chunk => trivial
  | fetch flt key => trivial
  | fetchRemote key raw => trivial
  | reap flt i now =>
      show Reaped (ExpiredAt · now) s.sm.kv.get (s.step (.reap flt i now)).sm.kv.get
      rcases step_reap_cases s flt i now with hsm | ⟨p, hp, hexp, hsm⟩
      · rw [hsm]
        exact Reaped.refl _
      · rw [hsm]
        refine withoutKey_reaped ?_
        intro v hv
        -- the key is gone already, or the shadow of the read stands there
        rcases he p hp hexp with hgone | hshadow
        · rw [hgone] at hv
          cases hv
        · rcases h p (List.mem_of_getElem? hp) with hnone | hsome
          · rw [hnone] at hv
            cases hv
          · exact hshadow v (hsome ▸ hv)

/-- **What a step does to the records**: a chunk that is applied extends them; every other
step leaves them alone and removes only what has expired by `t`. -/
theorem Shadowed.step_cases {s : Server} (h : s.Shadowed) {e : ServerEvent} (he : s.InTime e)
    {t : UInt64} (ht : ∀ flt i now, e = .reap flt i now → now ≤ t) :
    (∃ sm chunk rs, s.step e = s.applied sm chunk rs ∧ Applied s.sm sm chunk rs) ∨
      (s.step e).written = s.written ∧ (s.step e).history = s.history ∧
        Reaped (ExpiredAt · t) s.sm.kv.get (s.step e).sm.kv.get := by
  cases e with
  | apply flt chunk =>
      rcases step_apply_cases s flt chunk with ⟨sm, rs, hstep, happ⟩ | ⟨terms, hstep⟩
      · exact Or.inl ⟨sm, chunk, rs, hstep, happ⟩
      · -- a chunk that failed has only touched the term cache
        rw [hstep]
        exact Or.inr ⟨rfl, rfl, Reaped.refl _⟩
  | fetch flt key =>
      right
      rcases step_fetch_cases s flt key with hstep | hstep
      · rw [hstep]
        exact ⟨rfl, rfl, Reaped.refl _⟩
      · rw [hstep]
        exact ⟨rfl, rfl, Reaped.refl _⟩
  | fetchRemote key raw => exact Or.inr ⟨rfl, rfl, Reaped.refl _⟩
  | reap flt i now =>
      have hreap : Reaped (ExpiredAt · now) s.sm.kv.get (s.step (.reap flt i now)).sm.kv.get :=
        h.removesOnlyExpired he
      obtain ⟨hwritten, hhistory, -⟩ := step_reap_records s flt i now
      exact Or.inr ⟨hwritten, hhistory, hreap.imp fun v hv => hv.mono (ht flt i now rfl)⟩

/-! ## Written values stay -/

/-- The store is what was written, less values that have expired by `t`. -/
def Keeps (t : UInt64) (s : Server) : Prop := Reaped (ExpiredAt · t) s.written s.sm.kv.get

theorem Keeps.step {t : UInt64} {s : Server} (h : s.Keeps t) (hs : s.Shadowed)
    {e : ServerEvent} (he : s.InTime e) (ht : ∀ flt i now, e = .reap flt i now → now ≤ t) :
    (s.step e).Keeps t := by
  rcases hs.step_cases he ht with ⟨sm, chunk, rs, hstep, happ⟩ | ⟨hwritten, -, hreap⟩
  · rw [hstep]
    show Reaped (ExpiredAt · t) (fun k => leaves s.sm.kv.get (logWrites chunk) k (s.written k))
      sm.kv.get
    rw [happ.kv]
    exact Reaped.leaves h (logWrites chunk)
  · show Reaped (ExpiredAt · t) (s.step e).written _
    rw [hwritten]
    exact Reaped.trans h hreap

/-! ## Whole runs -/

theorem start_shadowed (sm : LmdbStateMachine) : (start sm).Shadowed := by
  rintro p ⟨⟩

theorem start_keeps (sm : LmdbStateMachine) (t : UInt64) : (start sm).Keeps t := Reaped.refl _

end Server

/-- **A read in time never loses a write.** From any store, with any number of reads and
any interleaving with applied chunks: if every read is in time, each of their
removals takes only a value that was expired at its reading of the clock, and at the
end every key whose last written value is still live is still there. -/
theorem reads_lose_nothing (sm : LmdbStateMachine) {es : List ServerEvent}
    (hes : Along Server.step Server.InTime (Server.start sm) es) :
    Along Server.step Server.RemovesOnlyExpired (Server.start sm) es ∧
      ∀ t, ReadUpTo t es → ∀ k v,
        (runFrom Server.step (Server.start sm) es).written k = some v → ¬ ExpiredAt v t →
        (runFrom Server.step (Server.start sm) es).sm.kv.get k = some v := by
  constructor
  · refine Along.of_invariant ?_ (Server.start_shadowed sm) hes
    intro s e hs he
    exact ⟨hs.step e, hs.removesOnlyExpired he⟩
  · intro t ht k v hwritten hlive
    have hread : Along Server.step (fun _ e => ∀ flt i now, e = .reap flt i now → now ≤ t)
        (Server.start sm) es := by
      refine Along.of_forall ?_
      rintro e he - flt i now rfl
      exact ht flt i now he
    have hinv : (runFrom Server.step (Server.start sm) es).Shadowed ∧
        (runFrom Server.step (Server.start sm) es).Keeps t := by
      refine runFrom_invariant (I := fun s => s.Shadowed ∧ s.Keeps t) ?_
        ⟨Server.start_shadowed sm, Server.start_keeps sm t⟩ (hes.and hread)
      rintro s e ⟨hs, hk⟩ ⟨he, hnow⟩
      exact ⟨hs.step e, hk.step hs he hnow⟩
    rcases hinv.2 k with heq | ⟨-, w, hw, hexp⟩
    · rw [heq, hwritten]
    · rw [hwritten] at hw
      cases hw
      exact absurd hexp hlive

/-- A value that expires at 5, read at 10. -/
theorem reads_lose_nothing_expired :
    let es : List ServerEvent :=
      [.apply Faults.none [⟨1, 1, .insert [7] (Value.encodeTtl [1] (some 5)) none⟩,
        ⟨2, 1, .insert [8] (Value.encodeRaw [2]) none⟩], .fetch Faults.none [7],
        .reap Faults.none 0 10]
    (runFrom Server.step (Server.start freshStateMachine) es).sm.kv.get [7] = none ∧
      (runFrom Server.step (Server.start freshStateMachine) es).sm.kv.get [8] = some [0, 2] := by
  intro es
  have hes : Along Server.step Server.InTime (Server.start freshStateMachine) es := by decide
  have h := reads_lose_nothing freshStateMachine hes
  refine ⟨by decide, h.2 10 ?_ [8] [0, 2] (by decide) (by decide)⟩
  intro flt i now hmem
  simp only [es, List.mem_cons, reduceCtorEq, ServerEvent.reap.injEq, List.not_mem_nil,
    false_or, or_false] at hmem
  exact UInt64.le_of_eq hmem.2.2

/-- The fetch of an expired value, a new value, and then the removal that the old one
set off: it takes the new one, which never expires. -/
theorem read_loses_write :
    let es : List ServerEvent :=
      [.apply Faults.none [⟨1, 1, .insert [7] (Value.encodeTtl [1] (some 5)) none⟩],
        .fetch Faults.none [7],
        .apply Faults.none [⟨2, 1, .insert [7] (Value.encodeRaw [2]) none⟩],
        .reap Faults.none 0 10]
    ¬ Along Server.step Server.RemovesOnlyExpired (Server.start freshStateMachine) es ∧
      (runFrom Server.step (Server.start freshStateMachine) es).written [7] =
        some (Value.encodeRaw [2]) ∧
      (runFrom Server.step (Server.start freshStateMachine) es).sm.kv.get [7] = none := by
  intro es
  refine ⟨?_, by decide, by decide⟩
  rintro ⟨-, -, -, hreap, -⟩
  rcases hreap [7] with heq | ⟨-, v, hv, hexp⟩
  · revert heq
    decide
  · have hv' : some (Value.encodeRaw [2]) = some v := by
      rw [← hv]
      decide
    cases hv'
    revert hexp
    decide

end DLmdb
