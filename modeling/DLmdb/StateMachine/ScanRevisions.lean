import DLmdb.Framework.Runs
import DLmdb.StateMachine.Apply
import DLmdb.StateMachine.Scans

/-!
# The revision of a scan

A scan opens its read transaction, which fixes the contents it will see, and then loads
`last_applied_index` as the revision of what it returns. `apply_chunk` commits first and
stores `last_applied` afterwards. Any number of scans and of calls of `apply_chunk` are
under way at once; the latter commit in log order.

A revision is what a consumer goes on from: it must not name an entry that the scan did
not see. That is so as long as no index is stored while a scan that has not seen its
entry is between its two steps (`Unraced`).
-/

namespace DLmdb

open Framework Lmdb

/-! ## Scans and chunks in two steps -/

/-- A scan with its arguments. -/
inductive ScanCall where
  | scanAll (limit : Option ℕ) (filter : Option ScanFilter)
  | scanRange (start : Bytes) (endKey : Option Bytes) (limit : Option ℕ)
      (filter : Option ScanFilter)
  | scanPrefixBounded (pfx : Bytes) (after : Option Bytes) (limit : Option ℕ)
      (filter : Option ScanFilter)
  | scanRangeRev (start stop : Bytes) (limit : Option ℕ) (filter : Option ScanFilter)

def ScanCall.run (flt : Faults) (sm : LmdbStateMachine) : ScanCall → Except EngineError ScanResult
  | .scanAll limit filter => sm.scanAll flt limit filter
  | .scanRange start endKey limit filter => sm.scanRange flt start endKey limit filter
  | .scanPrefixBounded pfx after limit filter =>
      sm.scanPrefixBounded flt pfx after limit filter
  | .scanRangeRev start stop limit filter => sm.scanRangeRev flt start stop limit filter

/-- The effects of a call through its commit. -/
def throughCommit (es : List SmEffect) : List SmEffect :=
  es.takeWhile (fun e => e.published.isNone) ++ (es.dropWhile (fun e => e.published.isNone)).take 1

/-- The effects of a call that are left after its commit. -/
def afterCommit (es : List SmEffect) : List SmEffect :=
  (es.dropWhile (fun e => e.published.isNone)).tail

/-- A scan whose transaction is open: the environment it sees, and how many of the
committed entries are in it. -/
structure OpenScan where
  call : ScanCall
  view : SmEnv
  seen : ℕ

/-- A call of `apply_chunk` after its commit: what it has left to do, and how many entries
were committed with it. -/
structure Writer where
  rest : List SmEffect
  upTo : ℕ

structure FinishedScan where
  call : ScanCall
  result : ScanResult

/-- A state machine, the calls under way, the scans that returned, and the entries
committed so far. -/
structure ScanServer where
  sm : LmdbStateMachine
  writers : List Writer
  scans : List OpenScan
  finished : List FinishedScan
  committed : List ApplyEntry

inductive ScanEvent where
  | commit (flt : Faults) (chunk : List ApplyEntry)
  | updateLastApplied (i : ℕ)
  | openScan (call : ScanCall)
  | loadRevision (flt : Faults) (i : ℕ)

namespace ScanServer

def start (sm : LmdbStateMachine) : ScanServer := ⟨sm, [], [], [], []⟩

/-- The scan runs on the state machine as it is at the load, over the environment of its
transaction. -/
def loaded (s : ScanServer) (flt : Faults) (o : OpenScan) : Except EngineError ScanResult :=
  o.call.run flt { s.sm with env := o.view }

def step (s : ScanServer) : ScanEvent → ScanServer
  | .commit flt chunk =>
      let effects := (applyChunk flt s.sm chunk).effects
      let sm := (throughCommit effects).foldl LmdbStateMachine.exec s.sm
      match (applyChunk flt s.sm chunk).result with
      | .ok _ =>
          { s with
            sm := sm
            writers := s.writers ++ [⟨afterCommit effects, (s.committed ++ chunk).length⟩]
            committed := s.committed ++ chunk }
      | .error _ => { s with sm := sm }
  | .updateLastApplied i =>
      match s.writers[i]? with
      | some w =>
          { s with
            sm := w.rest.foldl LmdbStateMachine.exec s.sm
            writers := s.writers.eraseIdx i }
      | none => s
  | .openScan call => { s with scans := s.scans ++ [⟨call, s.sm.env, s.committed.length⟩] }
  | .loadRevision flt i =>
      match s.scans[i]? with
      | some o =>
          { s with
            scans := s.scans.eraseIdx i
            finished :=
              match s.loaded flt o with
              | .ok result => s.finished ++ [⟨o.call, result⟩]
              | .error _ => s.finished }
      | none => s

/-- Chunks are committed in log order, beyond where the node started. -/
def Ordered (base : UInt64) (s : ScanServer) : ScanEvent → Prop
  | .commit _ chunk =>
      (s.committed ++ chunk).Pairwise (fun a b => a.index < b.index) ∧
        ∀ e ∈ chunk, base < e.index
  | _ => True

/-- Where `last_applied` is stored, every scan between its two steps has the entries of
the chunk in its view. -/
def Unraced (s : ScanServer) : ScanEvent → Prop
  | .updateLastApplied i =>
      ∀ w ∈ s.writers[i]?, w.rest ≠ [] → ∀ o ∈ s.scans, w.upTo ≤ o.seen
  | _ => True

instance (s : ScanServer) : (e : ScanEvent) → Decidable (s.Unraced e)
  | .commit _ _ => inferInstanceAs (Decidable True)
  | .updateLastApplied i =>
      inferInstanceAs (Decidable (∀ w ∈ s.writers[i]?, w.rest ≠ [] → ∀ o ∈ s.scans, w.upTo ≤ o.seen))
  | .openScan _ => inferInstanceAs (Decidable True)
  | .loadRevision _ _ => inferInstanceAs (Decidable True)

/-- **The revision is not ahead of the data**: the scan returned what it returns on a
store that has gone through the log up to some position, and that position covers every
entry up to the revision. -/
def Reflects (base : Contents Bytes Bytes) (s : ScanServer) (f : FinishedScan) : Prop :=
  ∃ m, (∀ e ∈ s.committed, e.index ≤ f.result.revision → e ∈ s.committed.take m) ∧
    ∃ flt sm, sm.kv.get = base.run (logWrites (s.committed.take m)) ∧
      f.call.run flt sm = .ok f.result

end ScanServer

/-! ## The two halves of `apply_chunk` -/

theorem published_cacheEffect (chunk : List ApplyEntry) :
    ∀ e ∈ chunk.map cacheEffect, e.published.isNone = true := by
  intro e he
  obtain ⟨entry, -, rfl⟩ := List.mem_map.mp he
  rfl

/-- A chunk that goes through: the commit publishes its writes, and leaves the update of
`last_applied` to its last entry. -/
theorem applyChunk_halves {flt : Faults} {sm : LmdbStateMachine} {chunk : List ApplyEntry}
    {rs : List ApplyResult} (h : (applyChunk flt sm chunk).result = .ok rs) :
    ∃ env terms,
      (throughCommit (applyChunk flt sm chunk).effects).foldl LmdbStateMachine.exec sm =
        { sm with env := env, entryTerms := terms } ∧
      (env .kvDb).get = Contents.run sm.kv.get (logWrites chunk) ∧
      afterCommit (applyChunk flt sm chunk).effects = highestEffects (highestOf none chunk) := by
  rcases applyChunk_cases flt sm chunk with ⟨env, hcall, -, hkv, -⟩ | ⟨_, _, err, _, hcall⟩
  · have hcache := published_cacheEffect chunk
    refine ⟨env, cacheTerms sm.entryTerms chunk, ?_, hkv, ?_⟩
    · rw [hcall, throughCommit, List.takeWhile_append_of_pos hcache,
        List.dropWhile_append_of_pos hcache]
      show (chunk.map cacheEffect ++ [] ++ [SmEffect.commit env]).foldl _ sm = _
      rw [List.append_nil, List.foldl_append, foldl_cacheEffect]
      rfl
    · rw [hcall, afterCommit, List.dropWhile_append_of_pos hcache]
      rfl
  · rw [hcall] at h
    cases h

/-- A chunk that fails leaves the store and `last_applied` alone. -/
theorem applyChunk_failed_half {flt : Faults} {sm : LmdbStateMachine} {chunk : List ApplyEntry}
    {err : EngineError} (h : (applyChunk flt sm chunk).result = .error err) :
    ∃ terms, (throughCommit (applyChunk flt sm chunk).effects).foldl LmdbStateMachine.exec sm =
      { sm with entryTerms := terms } := by
  rcases applyChunk_cases flt sm chunk with ⟨env, hcall, -⟩ | ⟨done, _, err, _, hcall⟩
  · rw [hcall] at h
    cases h
  · have hcache := published_cacheEffect done
    refine ⟨cacheTerms sm.entryTerms done, ?_⟩
    rw [hcall, throughCommit, List.takeWhile_eq_self_iff.mpr hcache,
      List.dropWhile_eq_nil_iff.mpr hcache, List.take_nil, List.append_nil, foldl_cacheEffect]

/-- A scan returns `last_applied_index` as it loads it. -/
theorem ScanCall.run_revision {flt : Faults} {sm : LmdbStateMachine} {call : ScanCall}
    {r : ScanResult} (h : call.run flt sm = .ok r) : r.revision = sm.lastAppliedIndex := by
  cases call with
  | scanAll limit filter => rw [scanRangeCore_ok h]
  | scanRange start endKey limit filter =>
      rw [ScanCall.run, LmdbStateMachine.scanRange] at h
      split at h
      · rw [← Except.ok.inj h]
        rfl
      · rw [scanRangeCore_ok h]
  | scanPrefixBounded pfx after limit filter =>
      by_cases hp : pfx = []
      · rw [ScanCall.run, LmdbStateMachine.scanPrefixBounded, if_pos hp] at h
        rw [← Except.ok.inj h]
        rfl
      · rw [scanPrefixBounded_ok hp h]
  | scanRangeRev start stop limit filter =>
      by_cases hs : start = []
      · rw [ScanCall.run, LmdbStateMachine.scanRangeRev, if_pos hs] at h
        rw [← Except.ok.inj h]
        rfl
      · rw [scanRangeRev_ok hs h]

/-! ## Positions in the log -/

/-- `σ` has the first `m` of the committed entries, and the others lie beyond `r`. -/
structure Holds (base : Contents Bytes Bytes) (committed : List ApplyEntry)
    (σ : Contents Bytes Bytes) (r : UInt64) (m : ℕ) : Prop where
  le : m ≤ committed.length
  contents : σ = base.run (logWrites (committed.take m))
  beyond : ∀ e ∈ committed.drop m, r < e.index

/-- More entries, all beyond `r`. -/
theorem Holds.append {base σ : Contents Bytes Bytes} {committed chunk : List ApplyEntry}
    {r : UInt64} {m : ℕ} (h : Holds base committed σ r m) (hchunk : ∀ e ∈ chunk, r < e.index) :
    Holds base (committed ++ chunk) σ r m where
  le := by
    rw [List.length_append]
    exact Nat.le_add_right_of_le h.le
  contents := by
    rw [List.take_append_of_le_length h.le]
    exact h.contents
  beyond := by
    intro e he
    rw [List.drop_append_of_le_length h.le] at he
    rcases List.mem_append.mp he with hold | hnew
    · exact h.beyond e hold
    · exact hchunk e hnew

/-- The start, or the index of a committed entry. -/
def Position (b : UInt64) (committed : List ApplyEntry) (r : UInt64) : Prop :=
  r = b ∨ ∃ e ∈ committed, e.index = r

theorem Position.append {b r : UInt64} {committed : List ApplyEntry}
    (h : Position b committed r) (chunk : List ApplyEntry) :
    Position b (committed ++ chunk) r := by
  rcases h with rfl | ⟨e, he, rfl⟩
  · exact Or.inl rfl
  · exact Or.inr ⟨e, List.mem_append_left _ he, rfl⟩

/-- The entries of the next chunk lie beyond every position. -/
theorem Position.lt {b r : UInt64} {committed chunk : List ApplyEntry}
    (h : Position b committed r)
    (hsorted : (committed ++ chunk).Pairwise (fun a b => a.index < b.index))
    (hb : ∀ e ∈ chunk, b < e.index) : ∀ e ∈ chunk, r < e.index := by
  intro e he
  rcases h with rfl | ⟨a, ha, rfl⟩
  · exact hb e he
  · exact (List.pairwise_append.mp hsorted).2.2 a ha e he

/-- What a writer has left: nothing, or to store the index of an entry committed with its
chunk. -/
def Writer.Pending (committed : List ApplyEntry) (w : Writer) : Prop :=
  w.rest = [] ∨ ∃ e ∈ committed.take w.upTo,
    w.rest = [.storeLastAppliedIndex e.index, .storeLastAppliedTerm e.term]

theorem Writer.Pending.append {committed : List ApplyEntry} {w : Writer}
    (h : w.Pending committed) (chunk : List ApplyEntry) : w.Pending (committed ++ chunk) := by
  rcases h with hnil | ⟨e, he, hrest⟩
  · exact Or.inl hnil
  · refine Or.inr ⟨e, ?_, hrest⟩
    rw [List.take_append]
    exact List.mem_append_left _ he

/-- The writer of a chunk that was committed last. -/
theorem pending_highest (committed chunk : List ApplyEntry) :
    Writer.Pending (committed ++ chunk)
      ⟨highestEffects (highestOf none chunk), (committed ++ chunk).length⟩ := by
  rcases List.eq_nil_or_concat' chunk with rfl | ⟨log, e, rfl⟩
  · exact Or.inl rfl
  · refine Or.inr ⟨e, ?_, ?_⟩
    · rw [List.take_length]
      simp
    · simp [highestOf, highestEffects, List.foldl_append, ApplyEntry.logId]

/-! ## The invariant -/

namespace ScanServer

structure Sound (base : Contents Bytes Bytes) (b : UInt64) (s : ScanServer) : Prop where
  kv : s.sm.kv.get = base.run (logWrites s.committed)
  sorted : s.committed.Pairwise (fun a b => a.index < b.index)
  applied : Position b s.committed s.sm.lastAppliedIndex
  writers : ∀ w ∈ s.writers, w.Pending s.committed
  scans : ∀ o ∈ s.scans,
    Holds base s.committed (o.view .kvDb).get s.sm.lastAppliedIndex o.seen
  finished : ∀ f ∈ s.finished, Position b s.committed f.result.revision ∧
    ∃ m flt sm, Holds base s.committed sm.kv.get f.result.revision m ∧
      f.call.run flt sm = .ok f.result

variable {base : Contents Bytes Bytes} {b : UInt64} {s : ScanServer}

theorem start_sound (sm : LmdbStateMachine) :
    (start sm).Sound sm.kv.get sm.lastAppliedIndex where
  kv := rfl
  sorted := List.Pairwise.nil
  applied := Or.inl rfl
  writers := nofun
  scans := nofun
  finished := nofun

/-- A commit adds entries beyond everything that was loaded or stored so far. -/
theorem Sound.commit (h : s.Sound base b) {flt : Faults} {chunk : List ApplyEntry}
    (ho : s.Ordered b (.commit flt chunk)) : (s.step (.commit flt chunk)).Sound base b := by
  obtain ⟨hsorted, hb⟩ := ho
  cases hres : (applyChunk flt s.sm chunk).result with
  | error err =>
      obtain ⟨terms, hhalf⟩ := applyChunk_failed_half hres
      have hstep : s.step (.commit flt chunk) =
          { s with sm := { s.sm with entryTerms := terms } } := by
        rw [step, hres, hhalf]
      rw [hstep]
      exact ⟨h.kv, h.sorted, h.applied, h.writers, h.scans, h.finished⟩
  | ok rs =>
      obtain ⟨env, terms, hhalf, hkv, hafter⟩ := applyChunk_halves hres
      have hstep : s.step (.commit flt chunk) =
          { s with
            sm := { s.sm with env := env, entryTerms := terms }
            writers := s.writers ++
              [⟨highestEffects (highestOf none chunk), (s.committed ++ chunk).length⟩]
            committed := s.committed ++ chunk } := by
        rw [step, hres, hhalf, hafter]
      rw [hstep]
      refine ⟨?_, hsorted, h.applied.append chunk, ?_, ?_, ?_⟩
      · show (env .kvDb).get = _
        rw [hkv, h.kv, logWrites_append, Contents.run_append]
      · intro w hw
        rcases List.mem_append.mp hw with hold | hnew
        · exact (h.writers w hold).append chunk
        · rw [List.mem_singleton.mp hnew]
          exact pending_highest s.committed chunk
      · intro o ho
        exact (h.scans o ho).append (h.applied.lt hsorted hb)
      · intro f hf
        obtain ⟨hpos, m, flt, sm, hholds, hrun⟩ := h.finished f hf
        exact ⟨hpos.append chunk, m, flt, sm, hholds.append (hpos.lt hsorted hb), hrun⟩

/-- The update of `last_applied`, unless a scan is between its steps that has not seen
the entry. -/
theorem Sound.updateLastApplied (h : s.Sound base b) {i : ℕ}
    (hu : s.Unraced (.updateLastApplied i)) : (s.step (.updateLastApplied i)).Sound base b := by
  cases hi : s.writers[i]? with
  | none =>
      rw [step, hi]
      exact h
  | some w =>
      have hstep : s.step (.updateLastApplied i) =
          { s with
            sm := w.rest.foldl LmdbStateMachine.exec s.sm
            writers := s.writers.eraseIdx i } := by
        rw [step, hi]
      have hwriters : ∀ w ∈ s.writers.eraseIdx i, w.Pending s.committed :=
        fun w hw => h.writers w (List.mem_of_mem_eraseIdx hw)
      rw [hstep]
      rcases h.writers w (List.mem_of_getElem? hi) with hnil | ⟨e, he, hrest⟩
      · rw [hnil]
        exact ⟨h.kv, h.sorted, h.applied, hwriters, h.scans, h.finished⟩
      · rw [hrest]
        have hcommitted : e ∈ s.committed := List.mem_of_mem_take he
        refine ⟨h.kv, h.sorted, Or.inr ⟨e, hcommitted, rfl⟩, hwriters, ?_, h.finished⟩
        intro o ho
        obtain ⟨hle, hcontents, -⟩ := h.scans o ho
        refine ⟨hle, hcontents, ?_⟩
        -- the entry is in the view of the scan, and every other one lies beyond it
        have hseen : w.upTo ≤ o.seen := hu w hi (by rw [hrest]; exact List.cons_ne_nil _ _) o ho
        have hmem : e ∈ s.committed.take o.seen := List.take_subset_take_left s.committed hseen he
        have hsorted := h.sorted
        rw [← List.take_append_drop o.seen s.committed] at hsorted
        exact (List.pairwise_append.mp hsorted).2.2 e hmem

theorem Sound.openScan (h : s.Sound base b) (call : ScanCall) :
    (s.step (.openScan call)).Sound base b := by
  refine ⟨h.kv, h.sorted, h.applied, h.writers, ?_, h.finished⟩
  intro o ho
  rcases List.mem_append.mp ho with hold | hnew
  · exact h.scans o hold
  · rw [List.mem_singleton.mp hnew]
    refine ⟨Nat.le_refl _, ?_, ?_⟩
    · show s.sm.kv.get = base.run (logWrites (s.committed.take s.committed.length))
      rw [List.take_length, h.kv]
    · intro e he
      have he : e ∈ s.committed.drop s.committed.length := he
      rw [List.drop_length] at he
      cases he

theorem Sound.loadRevision (h : s.Sound base b) (flt : Faults) (i : ℕ) :
    (s.step (.loadRevision flt i)).Sound base b := by
  cases hi : s.scans[i]? with
  | none =>
      rw [step, hi]
      exact h
  | some o =>
      have hstep : s.step (.loadRevision flt i) =
          { s with
            scans := s.scans.eraseIdx i
            finished :=
              match s.loaded flt o with
              | .ok result => s.finished ++ [⟨o.call, result⟩]
              | .error _ => s.finished } := by
        rw [step, hi]
      have hscans : ∀ o ∈ s.scans.eraseIdx i,
          Holds base s.committed (o.view .kvDb).get s.sm.lastAppliedIndex o.seen :=
        fun o ho => h.scans o (List.mem_of_mem_eraseIdx ho)
      rw [hstep]
      refine ⟨h.kv, h.sorted, h.applied, h.writers, hscans, ?_⟩
      intro f hf
      cases hload : s.loaded flt o with
      | error err =>
          simp only [hload] at hf
          exact h.finished f hf
      | ok result =>
          simp only [hload] at hf
          rcases List.mem_append.mp hf with hold | hnew
          · exact h.finished f hold
          · rw [List.mem_singleton.mp hnew]
            have hrun : o.call.run flt { s.sm with env := o.view } = .ok result := hload
            have hrev : result.revision = s.sm.lastAppliedIndex :=
              (ScanCall.run_revision hrun).trans rfl
            have hview := h.scans o (List.mem_of_getElem? hi)
            rw [← hrev] at hview
            refine ⟨?_, o.seen, flt, { s.sm with env := o.view }, hview, hrun⟩
            show Position b s.committed result.revision
            rw [hrev]
            exact h.applied

/-- **One step** of a scan or of a chunk. -/
theorem Sound.step (h : s.Sound base b) {e : ScanEvent}
    (he : s.Ordered b e ∧ s.Unraced e) : (s.step e).Sound base b := by
  cases e with
  | commit flt chunk => exact h.commit he.1
  | updateLastApplied i => exact h.updateLastApplied he.2
  | openScan call => exact h.openScan call
  | loadRevision flt i => exact h.loadRevision flt i

theorem Sound.reflects (h : s.Sound base b) {f : FinishedScan} (hf : f ∈ s.finished) :
    s.Reflects base f := by
  obtain ⟨-, m, flt, sm, hholds, hrun⟩ := h.finished f hf
  refine ⟨m, ?_, flt, sm, hholds.contents, hrun⟩
  intro e he hle
  rw [← List.take_append_drop m s.committed] at he
  rcases List.mem_append.mp he with htake | hdrop
  · exact htake
  · exact absurd (hholds.beyond e hdrop) (UInt64.not_lt.mpr hle)

end ScanServer

/-- **No scan returns a revision ahead of its data**, in any run of scans and chunks, in
any order of their steps, in which no update of `last_applied` falls between the two
steps of a scan that has not seen its chunk. -/
theorem scan_revision_reflected (sm : LmdbStateMachine) {es : List ScanEvent}
    (hordered : Along ScanServer.step (ScanServer.Ordered sm.lastAppliedIndex)
      (ScanServer.start sm) es)
    (hunraced : Along ScanServer.step ScanServer.Unraced (ScanServer.start sm) es) :
    ∀ f ∈ (runFrom ScanServer.step (ScanServer.start sm) es).finished,
      (runFrom ScanServer.step (ScanServer.start sm) es).Reflects sm.kv.get f := by
  intro f hf
  have hsound := runFrom_invariant (fun _ _ hs he => hs.step he) (ScanServer.start_sound sm)
    (hordered.and hunraced)
  exact hsound.reflects hf

/-- The insert of one key, as the first entry of a log. -/
def firstInsert : ApplyEntry := ⟨1, 1, .insert [97] [0, 1] none⟩

theorem firstInsert_ordered (s : ScanServer) (hs : s.committed = []) :
    s.Ordered 0 (.commit Faults.none [firstInsert]) := by
  constructor
  · rw [hs]
    exact List.pairwise_singleton _ _
  · intro e he
    rw [List.mem_singleton.mp he]
    decide

/-- A scan begun after the commit of the insert. -/
theorem scan_revision_reflected_run :
    let es : List ScanEvent := [.commit Faults.none [firstInsert], .openScan (.scanAll none none),
      .updateLastApplied 0, .loadRevision Faults.none 0]
    ∀ f ∈ (runFrom ScanServer.step (ScanServer.start freshStateMachine) es).finished,
      (runFrom ScanServer.step (ScanServer.start freshStateMachine) es).Reflects
        freshStateMachine.kv.get f := by
  intro es
  refine scan_revision_reflected freshStateMachine ?_ (by decide)
  exact ⟨firstInsert_ordered _ rfl, trivial, trivial, trivial, trivial⟩

/-- The scan begun before it, with its second step after the update: it has seen an empty
store and returns revision 1. -/
theorem scan_revision_ahead :
    let es : List ScanEvent := [.openScan (.scanAll none none), .commit Faults.none [firstInsert],
      .updateLastApplied 0, .loadRevision Faults.none 0]
    Along ScanServer.step (ScanServer.Ordered 0) (ScanServer.start freshStateMachine) es ∧
    ∃ f ∈ (runFrom ScanServer.step (ScanServer.start freshStateMachine) es).finished,
      ¬ (runFrom ScanServer.step (ScanServer.start freshStateMachine) es).Reflects
        freshStateMachine.kv.get f := by
  intro es
  have hfinished : (runFrom ScanServer.step (ScanServer.start freshStateMachine) es).finished =
      [⟨.scanAll none none, ⟨[], 1⟩⟩] := rfl
  have hcommitted : (runFrom ScanServer.step (ScanServer.start freshStateMachine) es).committed =
      [firstInsert] := rfl
  have hordered : Along ScanServer.step (ScanServer.Ordered 0)
      (ScanServer.start freshStateMachine) es :=
    ⟨trivial, firstInsert_ordered _ rfl, trivial, trivial, trivial⟩
  refine ⟨hordered, ⟨.scanAll none none, ⟨[], 1⟩⟩, hfinished ▸ List.mem_singleton_self _, ?_⟩
  rintro ⟨m, hall, flt, sm, hkv, hrun⟩
  rw [hcommitted] at hall hkv
  have htake : [firstInsert].take m = [firstInsert] := by
    cases m with
    | zero => exact absurd (hall firstInsert List.mem_cons_self (by decide)) (by simp)
    | succ m => exact List.take_of_length_le (by simp)
  -- a store with the entry shows its key to every such scan
  have hget : sm.kv.get [97] = some [0, 1] := by
    rw [hkv, htake]
    rfl
  have hentries := congrArg ScanResult.entries (scanRangeCore_ok hrun)
  have hmem : (([97], [0, 1]) : Bytes × Bytes) ∈
      scanItems none (sm.kv.range .unbounded (endBound none)) := by
    refine List.mem_flatMap.mpr ⟨([97], [0, 1]), ?_, List.mem_singleton_self _⟩
    exact Database.mem_range.mpr ⟨hget, rfl⟩
  have hnil : scanItems none (sm.kv.range .unbounded (endBound none)) = [] := hentries.symm
  rw [hnil] at hmem
  cases hmem

end DLmdb
