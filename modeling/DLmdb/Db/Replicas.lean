import DLmdb.Db.Readers

/-!
# Two replicas that reap locally

Each node applies the same log, in its own chunks, and removes expired values on its
own, whenever a read happens to meet them. Their stores then differ by removed
values (`Alike`). Every command but one treats such stores alike; a swap compares
the stored bytes, and a key that one node still holds and the other has removed
can decide it differently. Replicas converge exactly when no swap looks at such a
key with either of the two in mind (`SwapAgrees`).
-/

namespace DLmdb

open Framework Lmdb

/-! ## What one node's history says about its store -/

/-- The contents `σ` became `τ` through the recorded entries, each applied to contents
from which values expired by `t` may be missing. -/
def Trail (t : UInt64) : Contents Bytes Bytes → List AppliedEntry → Contents Bytes Bytes → Prop
  | σ, [], τ => Reaped (ExpiredAt · t) σ τ
  | σ, a :: h, τ =>
      Reaped (ExpiredAt · t) σ a.before ∧
        a.result = ⟨a.entry.index, a.entry.command.outcome a.before⟩ ∧
        Trail t (a.before.run a.entry.command.writes) h τ

theorem Trail.reaped {t : UInt64} {σ τ τ' : Contents Bytes Bytes} {h : List AppliedEntry}
    (ht : Trail t σ h τ) (hr : Reaped (ExpiredAt · t) τ τ') : Trail t σ h τ' := by
  induction h generalizing σ with
  | nil => exact Reaped.trans ht hr
  | cons a h ih =>
      obtain ⟨hbefore, hresult, htail⟩ := ht
      exact ⟨hbefore, hresult, ih htail⟩

theorem Trail.append {t : UInt64} {σ τ υ : Contents Bytes Bytes} {h h' : List AppliedEntry}
    (ht : Trail t σ h τ) (ht' : Trail t τ h' υ) : Trail t σ (h ++ h') υ := by
  induction h generalizing σ with
  | nil =>
      cases h' with
      | nil => exact Reaped.trans ht ht'
      | cons a h' =>
          obtain ⟨hbefore, hresult, htail⟩ := ht'
          exact ⟨Reaped.trans ht hbefore, hresult, htail⟩
  | cons a h ih =>
      obtain ⟨hbefore, hresult, htail⟩ := ht
      exact ⟨hbefore, hresult, ih htail⟩

/-- Every recorded result is the one the entry has on what it found. -/
theorem Trail.result_of_mem {t : UInt64} {σ τ : Contents Bytes Bytes} {h : List AppliedEntry}
    (ht : Trail t σ h τ) {a : AppliedEntry} (ha : a ∈ h) :
    a.result = ⟨a.entry.index, a.entry.command.outcome a.before⟩ := by
  induction h generalizing σ with
  | nil => cases ha
  | cons b h ih =>
      obtain ⟨-, hresult, htail⟩ := ht
      rcases List.mem_cons.mp ha with rfl | hmem
      · exact hresult
      · exact ih htail hmem

/-- A chunk that was applied in one go: nothing is missing between its entries. -/
theorem recordChunk_trail (t : UInt64) (σ : Contents Bytes Bytes) (chunk : List ApplyEntry) :
    Trail t σ (recordChunk σ chunk (resultsOf σ chunk)) (σ.run (logWrites chunk)) := by
  induction chunk generalizing σ with
  | nil => exact Reaped.refl σ
  | cons e chunk ih =>
      refine ⟨Reaped.refl σ, rfl, ?_⟩
      rw [logWrites_cons, Contents.run_append]
      exact ih (σ.run e.command.writes)

namespace Server

/-- The history of the node leads from `σ` to its store. -/
def Leads (t : UInt64) (σ : Contents Bytes Bytes) (s : Server) : Prop :=
  Trail t σ s.history s.sm.kv.get

theorem Leads.step {t : UInt64} {σ : Contents Bytes Bytes} {s : Server} (h : s.Leads t σ)
    (hs : s.Shadowed) {e : ServerEvent} (he : s.InTime e)
    (ht : ∀ flt i now, e = .reap flt i now → now ≤ t) : (s.step e).Leads t σ := by
  rcases hs.step_cases he ht with ⟨sm, chunk, rs, hstep, happ⟩ | ⟨-, hhistory, hreap⟩
  · rw [hstep]
    show Trail t σ (s.history ++ recordChunk s.sm.kv.get chunk rs) sm.kv.get
    rw [happ.kv, happ.results]
    exact h.append (recordChunk_trail t s.sm.kv.get chunk)
  · show Trail t σ (s.step e).history _
    rw [hhistory]
    exact h.reaped hreap

theorem run_leads (sm : LmdbStateMachine) {es : List ServerEvent} {t : UInt64}
    (hes : Along Server.step InTime (start sm) es) (ht : ReadUpTo t es) :
    (runFrom Server.step (start sm) es).Leads t sm.kv.get := by
  have hread : Along Server.step (fun _ e => ∀ flt i now, e = .reap flt i now → now ≤ t)
      (start sm) es := by
    refine Along.of_forall ?_
    rintro e he - flt i now rfl
    exact ht flt i now he
  have hinv : (runFrom Server.step (start sm) es).Shadowed ∧
      (runFrom Server.step (start sm) es).Leads t sm.kv.get := by
    refine runFrom_invariant (I := fun s => s.Shadowed ∧ s.Leads t sm.kv.get) ?_
      ⟨start_shadowed sm, Reaped.refl _⟩ (hes.and hread)
    rintro s e ⟨hs, hk⟩ ⟨he, hnow⟩
    exact ⟨hs.step e, hk.step hs he hnow⟩
  exact hinv.2

end Server

/-! ## Two nodes at the same entry -/

/-- The command does not tell the two contents apart: where a swap finds its key on one
side only, it expects neither what is there nor that there is nothing. -/
def SwapAgrees (c : Command) (σ τ : Contents Bytes Bytes) : Prop :=
  match c with
  | .compareAndSwap key expected _ =>
      (σ key).isSome = (τ key).isSome ∨ σ key ≠ expected ∧ τ key ≠ expected
  | _ => True

instance (c : Command) (σ τ : Contents Bytes Bytes) : Decidable (SwapAgrees c σ τ) := by
  unfold SwapAgrees
  split <;> infer_instance

theorem swapAgrees_of_outcome {c : Command} {σ τ : Contents Bytes Bytes}
    (h : c.outcome σ = c.outcome τ) : SwapAgrees c σ τ := by
  cases c with
  | compareAndSwap key expected value =>
      by_cases hsome : (σ key).isSome = (τ key).isSome
      · exact Or.inl hsome
      · -- the keys differ, so at most one of them is what is expected
        have hne : σ key ≠ τ key := fun heq => hsome (by rw [heq])
        have hiff : σ key = expected ↔ τ key = expected := by simpa [Command.outcome] using h
        refine Or.inr ⟨?_, ?_⟩
        · intro hσ
          exact hne (hσ.trans (hiff.mp hσ).symm)
        · intro hτ
          exact hne ((hiff.mpr hτ).trans hτ.symm)
  | insert key value ttlSecs => trivial
  | delete key => trivial
  | batch ops => trivial
  | noop => trivial

theorem outcome_of_alike {dead : Bytes → Prop} {σ τ : Contents Bytes Bytes} (h : Alike dead σ τ)
    {c : Command} (hc : SwapAgrees c σ τ) : c.outcome σ = c.outcome τ := by
  cases c with
  | compareAndSwap key expected value =>
      rcases hc with hsome | ⟨hσ, hτ⟩
      · simp only [Command.outcome, h.eq_of_isSome hsome]
      · simp only [Command.outcome, hσ, hτ]
  | insert key value ttlSecs => rfl
  | delete key => rfl
  | batch ops => rfl
  | noop => rfl

theorem alike_run_command {dead : Bytes → Prop} {σ τ : Contents Bytes Bytes}
    (h : Alike dead σ τ) {c : Command} (hc : SwapAgrees c σ τ) :
    Alike dead (σ.run c.writes) (τ.run c.writes) := by
  cases c with
  | compareAndSwap key expected value =>
      refine h.step ?_
      show decide (σ key = expected) = decide (τ key = expected)
      rcases hc with hsome | ⟨hσ, hτ⟩
      · rw [h.eq_of_isSome hsome]
      · rw [decide_eq_false hσ, decide_eq_false hτ]
  | insert key value ttlSecs => exact h.run_assigns (by simp [Command.writes, KeyedWrite.isAssign])
  | delete key => exact h.run_assigns (by simp [Command.writes, KeyedWrite.isAssign])
  | batch ops =>
      refine h.run_assigns ?_
      intro w hw
      obtain ⟨op, -, rfl⟩ := List.mem_map.mp hw
      cases op <;> rfl
  | noop => exact h

/-! ## Two histories of one log -/

/-- At every position both have reached, the two histories have the same entry. -/
def SameLog (h h' : List AppliedEntry) : Prop := ∀ p ∈ h.zip h', p.1.entry = p.2.entry

/-- At every position both have reached, a swap does not tell their stores apart. -/
def SwapsAgree (h h' : List AppliedEntry) : Prop :=
  ∀ p ∈ h.zip h', SwapAgrees p.1.entry.command p.1.before p.2.before

/-- At every position both have reached, both nodes returned the same result. -/
def ResultsAgree (h h' : List AppliedEntry) : Prop := ∀ p ∈ h.zip h', p.1.result = p.2.result

instance (h h' : List AppliedEntry) : Decidable (SwapsAgree h h') := by
  unfold SwapsAgree
  infer_instance

instance (h h' : List AppliedEntry) : Decidable (ResultsAgree h h') := by
  unfold ResultsAgree
  infer_instance

theorem sameLog_of_prefix {log : List ApplyEntry} {h h' : List AppliedEntry}
    (hp : h.map AppliedEntry.entry <+: log) (hp' : h'.map AppliedEntry.entry <+: log) :
    SameLog h h' := by
  induction h generalizing h' log with
  | nil => rintro p ⟨⟩
  | cons a h ih =>
      cases h' with
      | nil => rintro p ⟨⟩
      | cons b h' =>
          obtain ⟨rest, rfl⟩ := hp
          obtain ⟨hentry, htail⟩ := List.cons_prefix_cons.mp hp'
          have hrest : SameLog h h' := ih (List.prefix_append _ rest) htail
          intro p hmem
          rcases List.mem_cons.mp hmem with rfl | hmem
          · exact hentry.symm
          · exact hrest p hmem

/-- **Swaps that agree keep replicas together**: the same results at every entry both
have applied, and like stores once they have applied the same entries. -/
theorem Trail.converge {t : UInt64} {σ τ σ' τ' : Contents Bytes Bytes}
    {h h' : List AppliedEntry} (ht : Trail t σ h τ) (ht' : Trail t σ' h' τ')
    (hstart : Alike (ExpiredAt · t) σ σ') (hlog : SameLog h h') (hswaps : SwapsAgree h h') :
    ResultsAgree h h' ∧ (h.length = h'.length → Alike (ExpiredAt · t) τ τ') := by
  induction h generalizing σ σ' h' with
  | nil =>
      constructor
      · rintro p ⟨⟩
      · intro hlen
        cases h' with
        | nil => exact hstart.reaped ht ht'
        | cons b h' => cases hlen
  | cons a h ih =>
      cases h' with
      | nil =>
          -- a longer history: nothing to compare, and the lengths differ
          constructor
          · rintro p ⟨⟩
          · rintro ⟨⟩
      | cons b h' =>
          obtain ⟨hbefore, hresult, htail⟩ := ht
          obtain ⟨hbefore', hresult', htail'⟩ := ht'
          have hentry : a.entry = b.entry := hlog (a, b) List.mem_cons_self
          have halike : Alike (ExpiredAt · t) a.before b.before := hstart.reaped hbefore hbefore'
          have hagree : SwapAgrees a.entry.command a.before b.before :=
            hswaps (a, b) List.mem_cons_self
          have hnext := alike_run_command halike hagree
          -- the entry decides alike on both sides and leaves like stores to the rest
          rw [← hentry] at htail' hresult'
          obtain ⟨hresults, hlike⟩ := ih htail htail' hnext
            (fun p hp => hlog p (List.mem_cons_of_mem _ hp))
            (fun p hp => hswaps p (List.mem_cons_of_mem _ hp))
          constructor
          · intro p hmem
            rcases List.mem_cons.mp hmem with rfl | hmem
            · rw [hresult, hresult', outcome_of_alike halike hagree]
            · exact hresults p hmem
          · intro hlen
            exact hlike (by simpa using hlen)

theorem logicalValue_of_alike {t : UInt64} {σ τ : Contents Bytes Bytes}
    (h : Alike (ExpiredAt · t) σ τ) (k : Bytes) :
    logicalValue (σ k) t = logicalValue (τ k) t := by
  rcases h k with heq | ⟨hnone, v, hv, hexp⟩ | ⟨hnone, v, hv, hexp⟩
  · rw [heq]
  · rw [hnone, hv, logicalValue_of_expired hexp]
    rfl
  · rw [hnone, hv, logicalValue_of_expired hexp]
    rfl

/-! ## Convergence -/

/-- The replicas have converged: same results, and after the same entries the same
logical value of every key, at any time no earlier than the readings of `es` and
`es'`. -/
def Converged (es es' : List ServerEvent) (s s' : Server) : Prop :=
  ResultsAgree s.history s'.history ∧
    (s.history.map AppliedEntry.entry = s'.history.map AppliedEntry.entry →
      ∀ t, ReadUpTo t es → ReadUpTo t es' → ∀ k,
        logicalValue (s.sm.kv.get k) t = logicalValue (s'.sm.kv.get k) t)

theorem readUpTo_max (es : List ServerEvent) : ReadUpTo 0xffffffffffffffff es := by
  intro flt i now _
  have hlt := now.toNat_lt
  rw [UInt64.le_iff_toNat_le]
  show now.toNat ≤ 2 ^ 64 - 1
  omega

/-- **Replicas converge exactly when their swaps agree.** Two nodes with the same
contents apply prefixes of one log, each in its own chunks and among its own reads,
and every read is in time. -/
theorem replicas_converge_iff {sm sm' : LmdbStateMachine} (hstart : sm.kv = sm'.kv)
    {es es' : List ServerEvent}
    (hes : Along Server.step Server.InTime (Server.start sm) es)
    (hes' : Along Server.step Server.InTime (Server.start sm') es')
    {log : List ApplyEntry}
    (hlog : (runFrom Server.step (Server.start sm) es).history.map AppliedEntry.entry <+: log)
    (hlog' : (runFrom Server.step (Server.start sm') es').history.map AppliedEntry.entry <+: log) :
    let s := runFrom Server.step (Server.start sm) es
    let s' := runFrom Server.step (Server.start sm') es'
    Converged es es' s s' ↔ SwapsAgree s.history s'.history := by
  intro s s'
  have hsame : SameLog s.history s'.history := sameLog_of_prefix hlog hlog'
  have htrails : ∀ t, ReadUpTo t es → ReadUpTo t es' → SwapsAgree s.history s'.history →
      ResultsAgree s.history s'.history ∧
        (s.history.length = s'.history.length →
          Alike (ExpiredAt · t) s.sm.kv.get s'.sm.kv.get) := by
    intro t ht ht' hswaps
    have hl := Server.run_leads sm hes ht
    have hl' := Server.run_leads sm' hes' ht'
    refine Trail.converge hl hl' ?_ hsame hswaps
    rw [hstart]
    exact Alike.refl _
  constructor
  · rintro ⟨hresults, -⟩ p hp
    -- equal results at an entry are equal outcomes of its command
    have hl := Server.run_leads sm hes (readUpTo_max es)
    have hl' := Server.run_leads sm' hes' (readUpTo_max es')
    obtain ⟨hmem, hmem'⟩ := List.of_mem_zip hp
    have hresult := hresults p hp
    rw [hl.result_of_mem hmem, hl'.result_of_mem hmem', hsame p hp] at hresult
    rw [hsame p hp]
    exact swapAgrees_of_outcome (congrArg ApplyResult.succeeded hresult)
  · intro hswaps
    constructor
    · exact (htrails _ (readUpTo_max es) (readUpTo_max es') hswaps).1
    · intro hentries t ht ht' k
      have hlen : s.history.length = s'.history.length := by
        simpa using congrArg List.length hentries
      exact logicalValue_of_alike ((htrails t ht ht' hswaps).2 hlen) k

/-- The log of the two runs below: a value that expires at 5, and then `last`. -/
def expiringLog (last : Command) : List ApplyEntry :=
  [⟨1, 1, .insert [7] (Value.encodeTtl [1] (some 5)) none⟩, ⟨2, 1, last⟩]

/-- A node that reads the expired value between the two entries, and removes it. -/
def readingRun (last : Command) : List ServerEvent :=
  [.apply Faults.none ((expiringLog last).take 1), .fetch Faults.none [7],
    .reap Faults.none 0 10, .apply Faults.none ((expiringLog last).drop 1)]

/-- A node that applies both entries and reads nothing. -/
def quietRun (last : Command) : List ServerEvent := [.apply Faults.none (expiringLog last)]

/-- A swap that expects a value the key never had fails on both nodes. -/
theorem replicas_converge_swap :
    let last : Command := .compareAndSwap [7] (some [0, 9]) [0, 3]
    let start := Server.start freshStateMachine
    Converged (readingRun last) (quietRun last) (runFrom Server.step start (readingRun last))
      (runFrom Server.step start (quietRun last)) := by
  intro last start
  have hes : Along Server.step Server.InTime start (readingRun last) := by decide
  have hes' : Along Server.step Server.InTime start (quietRun last) := by decide
  have hlog : (runFrom Server.step start (readingRun last)).history.map AppliedEntry.entry <+:
      expiringLog last := ⟨[], by decide⟩
  have hlog' : (runFrom Server.step start (quietRun last)).history.map AppliedEntry.entry <+:
      expiringLog last := ⟨[], by decide⟩
  exact (replicas_converge_iff rfl hes hes' hlog hlog').mpr (by decide)

/-- `put_if_absent` after the expiry: the node that removed the value swaps, the other
one finds it still there. -/
theorem replicas_diverge :
    let last : Command := .compareAndSwap [7] none [0, 3]
    let start := Server.start freshStateMachine
    let s := runFrom Server.step start (readingRun last)
    let s' := runFrom Server.step start (quietRun last)
    s.history.map AppliedEntry.entry = expiringLog last ∧
      s'.history.map AppliedEntry.entry = expiringLog last ∧
      s.history.map AppliedEntry.result = [⟨1, true⟩, ⟨2, true⟩] ∧
      s'.history.map AppliedEntry.result = [⟨1, true⟩, ⟨2, false⟩] ∧
      ¬ Converged (readingRun last) (quietRun last) s s' := by
  intro last start s s'
  refine ⟨by decide, by decide, by decide, by decide, ?_⟩
  rintro ⟨hresults, -⟩
  revert hresults
  decide

end DLmdb
