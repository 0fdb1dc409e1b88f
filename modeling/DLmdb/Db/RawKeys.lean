import DLmdb.Db.Replicas
import DLmdb.Framework.Swaps

/-!
# Keys without expiry

Reads remove what has expired, and two nodes that remove different things can decide a
swap differently. None of that reaches a key that is only ever written without a TTL: its
bytes and the results of its swaps are those of the log, on every node, whatever is read
there and however late a read removes its key. So `put_if_absent` and `compare_and_swap`
on such keys are what a lock or a counter needs.
-/

namespace DLmdb

open Framework Lmdb

/-- The bytes carry no expiry: not even the last second there is has come too late. -/
def Undated (v : Bytes) : Prop := ¬ ExpiredAt v 0xffffffffffffffff

instance (v : Bytes) : Decidable (Undated v) := inferInstanceAs (Decidable (¬ _))

theorem Undated.not_expired {v : Bytes} (h : Undated v) (t : UInt64) : ¬ ExpiredAt v t := by
  intro hexp
  exact h (hexp.mono (le_allOnes t))

/-- What reaches `k` has no expiry: applied entries write none there, and bytes fetched at
another node, whose `k` has none either, have none. -/
def ServerEvent.RawAt (k : Bytes) : ServerEvent → Prop
  | .apply _ chunk => ∀ w ∈ onKey k (logWrites chunk), ∀ v ∈ w.written, Undated v
  | .fetch _ _ => True
  | .fetchRemote key raw => key = k → ∀ v ∈ raw, Undated v
  | .reap _ _ _ => True

instance (k : Bytes) : (e : ServerEvent) → Decidable (e.RawAt k)
  | .apply _ chunk =>
      inferInstanceAs (Decidable (∀ w ∈ onKey k (logWrites chunk), ∀ v ∈ w.written, Undated v))
  | .fetch _ _ => inferInstanceAs (Decidable True)
  | .fetchRemote key raw => inferInstanceAs (Decidable (key = k → ∀ v ∈ raw, Undated v))
  | .reap _ _ _ => inferInstanceAs (Decidable True)

/-! ## The history of one key -/

/-- The recorded entries take `k` from `x` to `y`, nothing being lost between them. -/
def KeyTrail (k : Bytes) : Option Bytes → List AppliedEntry → Option Bytes → Prop
  | x, [], y => x = y
  | x, a :: h, y =>
      a.before k = x ∧ a.result = ⟨a.entry.index, a.entry.command.outcome a.before⟩ ∧
        KeyTrail k (chain (onKey k a.entry.command.writes) x) h y

theorem KeyTrail.append {k : Bytes} {x y z : Option Bytes} {h h' : List AppliedEntry}
    (ht : KeyTrail k x h y) (ht' : KeyTrail k y h' z) : KeyTrail k x (h ++ h') z := by
  induction h generalizing x with
  | nil =>
      have hxy : x = y := ht
      rw [hxy]
      exact ht'
  | cons a h ih =>
      obtain ⟨hbefore, hresult, htail⟩ := ht
      exact ⟨hbefore, hresult, ih htail⟩

theorem recordChunk_keyTrail (k : Bytes) (σ : Contents Bytes Bytes) (chunk : List ApplyEntry) :
    KeyTrail k (σ k) (recordChunk σ chunk (resultsOf σ chunk)) (σ.run (logWrites chunk) k) := by
  induction chunk generalizing σ with
  | nil => rfl
  | cons e chunk ih =>
      refine ⟨rfl, rfl, ?_⟩
      rw [logWrites_cons, Contents.run_append, ← run_apply]
      exact ih (σ.run e.command.writes)

/-- The writes to `k` that went through, as the results of the entries tell. -/
def writesMade (k : Bytes) (h : List AppliedEntry) : List (KeyedWrite Bytes Bytes) :=
  h.flatMap fun a => if a.result.succeeded then onKey k a.entry.command.writes else []

/-- The result of a command says which of its writes went through. -/
theorem taken_command (k : Bytes) (c : Command) (σ : Contents Bytes Bytes) :
    taken (σ k) (onKey k c.writes) = if c.outcome σ then onKey k c.writes else [] := by
  have hassigns : ∀ ws : List (KeyedWrite Bytes Bytes), (∀ w ∈ ws, w.isAssign = true) →
      taken (σ k) (onKey k ws) = onKey k ws := by
    intro ws hws
    exact taken_of_isAssign (fun w hw => hws w (List.mem_of_mem_filter hw)) _
  cases c with
  | insert key value ttlSecs => exact hassigns _ (by simp [Command.writes, KeyedWrite.isAssign])
  | delete key => exact hassigns _ (by simp [Command.writes, KeyedWrite.isAssign])
  | batch ops =>
      refine hassigns _ ?_
      intro w hw
      obtain ⟨op, -, rfl⟩ := List.mem_map.mp hw
      cases op <;> rfl
  | noop => rfl
  | compareAndSwap key expected value =>
      by_cases hkey : key = k
      · subst hkey
        by_cases hσ : σ key = expected
        · simp [Command.writes, Command.outcome, onKey, KeyedWrite.key, taken, KeyedWrite.fires, hσ]
        · simp [Command.writes, Command.outcome, onKey, KeyedWrite.key, taken, KeyedWrite.fires, hσ]
      · simp [Command.writes, onKey, KeyedWrite.key, taken, hkey]

/-- **The writes that went through are linked**, from the first value to the last. -/
theorem KeyTrail.linked {k : Bytes} {x y : Option Bytes} {h : List AppliedEntry}
    (ht : KeyTrail k x h y) : Linked x (writesMade k h) y := by
  induction h generalizing x with
  | nil => exact ht
  | cons a h ih =>
      obtain ⟨hbefore, hresult, htail⟩ := ht
      have hhead : Linked x (if a.result.succeeded then onKey k a.entry.command.writes else [])
          (chain (onKey k a.entry.command.writes) x) := by
        have htaken := taken_command k a.entry.command a.before
        rw [hbefore] at htaken
        rw [hresult, ← htaken]
        exact linked_taken _ x
      exact hhead.append (ih htail)

/-- Two histories of one log: equal results for the swaps of `k`, and equal bytes after
the same entries. -/
theorem KeyTrail.agree {k : Bytes} {x y y' : Option Bytes} {h h' : List AppliedEntry}
    (ht : KeyTrail k x h y) (ht' : KeyTrail k x h' y') (hlog : SameLog h h') :
    (∀ p ∈ h.zip h', ∀ expected value, p.1.entry.command = .compareAndSwap k expected value →
      p.1.result = p.2.result) ∧ (h.length = h'.length → y = y') := by
  induction h generalizing x h' with
  | nil =>
      constructor
      · rintro p ⟨⟩
      · intro hlen
        cases h' with
        | nil => exact Eq.trans (Eq.symm ht) ht'
        | cons b h' => cases hlen
  | cons a h ih =>
      cases h' with
      | nil =>
          constructor
          · rintro p ⟨⟩
          · rintro ⟨⟩
      | cons b h' =>
          obtain ⟨hbefore, hresult, htail⟩ := ht
          obtain ⟨hbefore', hresult', htail'⟩ := ht'
          have hentry : a.entry = b.entry := hlog (a, b) List.mem_cons_self
          rw [← hentry] at htail'
          obtain ⟨hresults, hlast⟩ := ih htail htail' (fun p hp => hlog p (List.mem_cons_of_mem _ hp))
          constructor
          · intro p hp expected value hcmd
            rcases List.mem_cons.mp hp with rfl | hp
            · -- both found the same bytes under `k`
              have hcmd' : b.entry.command = .compareAndSwap k expected value := hentry ▸ hcmd
              have hcmd : a.entry.command = .compareAndSwap k expected value := hcmd
              show a.result = b.result
              rw [hresult, hresult', hcmd, hcmd', ← hentry]
              simp only [Command.outcome, hbefore, hbefore']
            · exact hresults p hp expected value hcmd
          · intro hlen
            exact hlast (by simpa using hlen)

/-! ## A node -/

namespace Server

/-- Neither the store nor a read under way has a date on `k`. -/
structure RawKey (k : Bytes) (s : Server) : Prop where
  stored : ∀ v ∈ s.sm.kv.get k, Undated v
  pending : ∀ p ∈ s.pending, p.key = k → ∀ v ∈ p.raw, Undated v

theorem RawKey.fetched {k : Bytes} {s : Server} (h : s.RawKey k) (key : Bytes)
    {raw : Option Bytes} (hraw : key = k → ∀ v ∈ raw, Undated v) :
    (s.fetched key raw).RawKey k where
  stored := h.stored
  pending := by
    intro p hp
    rcases List.mem_append.mp hp with hold | hnew
    · exact h.pending p hold
    · rw [List.mem_singleton.mp hnew]
      exact hraw

/-- **One event**: `k` stays raw, and what happens to it is recorded. -/
theorem RawKey.step {k : Bytes} {s : Server} (h : s.RawKey k) {e : ServerEvent}
    (he : e.RawAt k) :
    (s.step e).RawKey k ∧ ∃ h', (s.step e).history = s.history ++ h' ∧
      KeyTrail k (s.sm.kv.get k) h' ((s.step e).sm.kv.get k) := by
  have hstay : ∀ {s' : Server}, s'.history = s.history → s'.sm.kv.get k = s.sm.kv.get k →
      ∃ h', s'.history = s.history ++ h' ∧ KeyTrail k (s.sm.kv.get k) h' (s'.sm.kv.get k) := by
    intro s' hhistory hkv
    refine ⟨[], ?_, hkv.symm⟩
    rw [hhistory, List.append_nil]
  cases e with
  | apply flt chunk =>
      rcases step_apply_cases s flt chunk with ⟨sm, rs, hstep, happ⟩ | ⟨terms, hstep⟩
      · rw [hstep]
        have hkv : sm.kv.get k = chain (onKey k (logWrites chunk)) (s.sm.kv.get k) := by
          rw [happ.kv, run_apply]
        refine ⟨⟨?_, ?_⟩, recordChunk s.sm.kv.get chunk rs, rfl, ?_⟩
        · show ∀ v ∈ sm.kv.get k, Undated v
          rw [hkv]
          exact chain_mem h.stored he
        · intro p hp
          obtain ⟨q, hq, rfl⟩ := List.mem_map.mp hp
          exact h.pending q hq
        · show KeyTrail k (s.sm.kv.get k) _ (sm.kv.get k)
          rw [happ.kv, happ.results]
          exact recordChunk_keyTrail k s.sm.kv.get chunk
      · rw [hstep]
        exact ⟨⟨h.stored, h.pending⟩, hstay rfl rfl⟩
  | fetch flt key =>
      rcases step_fetch_cases s flt key with hstep | hstep
      · rw [hstep]
        refine ⟨h.fetched key ?_, hstay rfl rfl⟩
        rintro rfl
        exact h.stored
      · rw [hstep]
        exact ⟨h, hstay rfl rfl⟩
  | fetchRemote key raw => exact ⟨h.fetched key he, hstay rfl rfl⟩
  | reap flt i now =>
      obtain ⟨-, hhistory, hpending⟩ := step_reap_records s flt i now
      have hkv : (s.step (.reap flt i now)).sm.kv.get k = s.sm.kv.get k := by
        rcases step_reap_cases s flt i now with hsm | ⟨p, hp, ⟨v, hv, hexp⟩, hsm⟩
        · rw [hsm]
        · -- the key of an expired fetch is another one
          have hne : k ≠ p.key := by
            rintro rfl
            exact (h.pending p (List.mem_of_getElem? hp) rfl v hv).not_expired now hexp
          rw [hsm, withoutKey_kv, if_neg hne]
      refine ⟨⟨?_, ?_⟩, hstay hhistory hkv⟩
      · rw [hkv]
        exact h.stored
      · intro p hp
        exact h.pending p (hpending p hp)

/-- **A whole run.** -/
theorem run_keyTrail {k : Bytes} {sm : LmdbStateMachine} (hstart : ∀ v ∈ sm.kv.get k, Undated v)
    {es : List ServerEvent} (hes : ∀ e ∈ es, e.RawAt k) :
    KeyTrail k (sm.kv.get k) (runFrom Server.step (start sm) es).history
      ((runFrom Server.step (start sm) es).sm.kv.get k) := by
  have hfirst : (start sm).RawKey k ∧
      KeyTrail k (sm.kv.get k) (start sm).history ((start sm).sm.kv.get k) :=
    ⟨⟨hstart, by simp [start]⟩, rfl⟩
  have hinv : (runFrom Server.step (start sm) es).RawKey k ∧
      KeyTrail k (sm.kv.get k) (runFrom Server.step (start sm) es).history
        ((runFrom Server.step (start sm) es).sm.kv.get k) := by
    refine runFrom_invariant (P := fun _ (e : ServerEvent) => e.RawAt k)
      (I := fun (s : Server) => s.RawKey k ∧ KeyTrail k (sm.kv.get k) s.history (s.sm.kv.get k)) ?_
      hfirst (Along.of_forall fun e he _ => hes e he)
    rintro s e ⟨hraw, htrail⟩ he
    obtain ⟨hraw', h', hhistory, hnew⟩ := hraw.step he
    refine ⟨hraw', ?_⟩
    rw [hhistory]
    exact htrail.append hnew
  exact hinv.2

end Server

/-! ## Swaps lose nothing -/

/-- **No swap of a raw key is lost.** Whatever is read beside it: each swap that reported
success found what the write before it had left, and the last one's value is stored. So
between two `put_if_absent` that both succeeded, the key was deleted. -/
theorem swaps_lose_nothing {k : Bytes} {sm : LmdbStateMachine}
    (hstart : ∀ v ∈ sm.kv.get k, Undated v) {es : List ServerEvent}
    (hes : ∀ e ∈ es, e.RawAt k) :
    let s := runFrom Server.step (Server.start sm) es
    Linked (sm.kv.get k) (writesMade k s.history) (s.sm.kv.get k) ∧
      ∀ ws ws' ws'' v v', writesMade k s.history =
        ws ++ .cas k none v :: (ws' ++ .cas k none v' :: ws'') → .assign k none ∈ ws' := by
  intro s
  have hlinked : Linked (sm.kv.get k) (writesMade k s.history) (s.sm.kv.get k) :=
    (Server.run_keyTrail hstart hes).linked
  refine ⟨hlinked, ?_⟩
  intro ws ws' ws'' v v' hsplit
  have hkeys : ∀ w ∈ writesMade k s.history, w.key = k := by
    intro w hw
    obtain ⟨a, -, ha⟩ := List.mem_flatMap.mp hw
    split at ha
    · exact of_decide_eq_true (List.mem_filter.mp ha).2
    · cases ha
  rw [hsplit] at hlinked hkeys
  obtain ⟨w, hw, hwritten⟩ := hlinked.between_swaps nofun
  have hkey : w.key = k := hkeys w (by simp [hw])
  cases w with
  | assign key value =>
      have hvalue : value = none := hwritten
      have hk : key = k := hkey
      rw [← hk, ← hvalue]
      rw [hk] at hw ⊢
      exact hw
  | cas key expected value => cases hwritten

/-- A lock taken, asked for again, released and taken, while an expired key is read. -/
theorem swaps_lose_nothing_lock :
    let es : List ServerEvent :=
      [.apply Faults.none [⟨1, 1, .compareAndSwap [7] none [0, 1]⟩,
          ⟨2, 1, .insert [8] (Value.encodeTtl [1] (some 5)) none⟩], .fetch Faults.none [8],
        .apply Faults.none [⟨3, 1, .compareAndSwap [7] none [0, 2]⟩, ⟨4, 1, .delete [7]⟩],
        .reap Faults.none 0 10, .apply Faults.none [⟨5, 1, .compareAndSwap [7] none [0, 3]⟩]]
    let s := runFrom Server.step (Server.start freshStateMachine) es
    writesMade [7] s.history =
        [.cas [7] none [0, 1], .assign [7] none, .cas [7] none [0, 3]] ∧
      Linked none (writesMade [7] s.history) (some [0, 3]) := by
  intro es s
  have hlinked := (@swaps_lose_nothing [7] freshStateMachine
    (by decide) es (by decide)).1
  exact ⟨by decide, hlinked⟩

/-! ## Replicas -/

/-- **Replicas agree on raw keys** with no condition on their reads or on the rest of the
log: the same results for the swaps of the key at every position both have reached, and
the same bytes after the same entries. -/
theorem replicas_agree_on_raw_key {k : Bytes} {sm sm' : LmdbStateMachine}
    (hsame : sm.kv.get k = sm'.kv.get k) (hstart : ∀ v ∈ sm.kv.get k, Undated v)
    {es es' : List ServerEvent} (hes : ∀ e ∈ es, e.RawAt k) (hes' : ∀ e ∈ es', e.RawAt k)
    {log : List ApplyEntry}
    (hlog : (runFrom Server.step (Server.start sm) es).history.map AppliedEntry.entry <+: log)
    (hlog' : (runFrom Server.step (Server.start sm') es').history.map AppliedEntry.entry <+: log) :
    let s := runFrom Server.step (Server.start sm) es
    let s' := runFrom Server.step (Server.start sm') es'
    (∀ p ∈ s.history.zip s'.history, ∀ expected value,
      p.1.entry.command = .compareAndSwap k expected value → p.1.result = p.2.result) ∧
    (s.history.map AppliedEntry.entry = s'.history.map AppliedEntry.entry →
      s.sm.kv.get k = s'.sm.kv.get k) := by
  intro s s'
  have htrail := Server.run_keyTrail hstart hes
  have htrail' := Server.run_keyTrail (hsame ▸ hstart) hes'
  rw [← hsame] at htrail'
  have hentries : SameLog s.history s'.history := sameLog_of_prefix hlog hlog'
  obtain ⟨hresults, hbytes⟩ := htrail.agree htrail' hentries
  refine ⟨hresults, ?_⟩
  intro hall
  exact hbytes (by simpa using congrArg List.length hall)

/-- One node removes an expired key and the other does not: their locks agree. -/
theorem replicas_agree_on_lock :
    let log : List ApplyEntry := [⟨1, 1, .insert [8] (Value.encodeTtl [1] (some 5)) none⟩,
      ⟨2, 1, .compareAndSwap [7] none [0, 1]⟩, ⟨3, 1, .compareAndSwap [7] none [0, 2]⟩]
    let es : List ServerEvent := [.apply Faults.none (log.take 2), .fetch Faults.none [8],
      .reap Faults.none 0 10, .apply Faults.none (log.drop 2)]
    let es' : List ServerEvent := [.apply Faults.none log]
    let s := runFrom Server.step (Server.start freshStateMachine) es
    let s' := runFrom Server.step (Server.start freshStateMachine) es'
    s.sm.kv.get [8] ≠ s'.sm.kv.get [8] ∧ s.sm.kv.get [7] = s'.sm.kv.get [7] := by
  intro log es es' s s'
  have hagree := @replicas_agree_on_raw_key [7] freshStateMachine freshStateMachine rfl
    (by decide) es es' (by decide) (by decide) log ⟨[], by decide⟩
    ⟨[], by decide⟩
  exact ⟨by decide, hagree.2 (by decide)⟩

end DLmdb
