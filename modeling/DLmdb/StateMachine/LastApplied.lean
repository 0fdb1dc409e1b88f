import DLmdb.StateMachine.Lifecycle

/-!
# Readers of `last_applied`

`last_applied` is two atomics. Every call that moves it stores the index, then the term;
a reader loads the index, then the term, at any moment. The calls follow each other,
each effect is one step, and any number of readers run in between. Beside the state
stands the progress of the stores: the pair last begun, the one last completed, every
pair ever begun, and for each reader the one begun at its first load.
-/

namespace DLmdb

open Framework Lmdb

/-! ## Steps -/

/-- The pair whose index is stored by the first effect, the term being stored next. -/
def storedPair : SmEffect → List SmEffect → Option LogId
  | .storeLastAppliedIndex index, .storeLastAppliedTerm term :: _ => some ⟨index, term⟩
  | _, _ => none

/-- The effect stores a term, the second half of a pair. -/
def SmEffect.completes : SmEffect → Bool
  | .storeLastAppliedTerm _ => true
  | _ => false

/-- What a reader holds between its two loads: the index, and the pair last begun when
it loaded it. -/
structure HalfRead where
  index : UInt64
  begun : LogId

structure Positions where
  sm : LmdbStateMachine
  todo : List SmEffect
  begun : LogId
  completed : LogId
  stored : List LogId
  reading : ℕ → Option HalfRead
  returned : List LogId

inductive PositionEvent where
  | call (op : SmOp)
  | effect
  | loadIndex (reader : ℕ)
  | loadTerm (reader : ℕ)

namespace Positions

def start (sm : LmdbStateMachine) : Positions :=
  ⟨sm, [], sm.lastApplied, sm.lastApplied, [], fun _ => none, []⟩

def step (s : Positions) : PositionEvent → Positions
  | .call op =>
      match s.todo with
      | [] => { s with todo := (op.call s.sm).effects }
      | _ :: _ => s
  | .effect =>
      match s.todo with
      | [] => s
      | e :: rest =>
          { s with
            sm := s.sm.exec e
            todo := rest
            begun := (storedPair e rest).getD s.begun
            completed := if e.completes then s.begun else s.completed
            stored := s.stored ++ (storedPair e rest).toList }
  | .loadIndex reader =>
      { s with
        reading := Function.update s.reading reader (some ⟨s.sm.lastAppliedIndex, s.begun⟩) }
  | .loadTerm reader =>
      match s.reading reader with
      | some half =>
          { s with
            reading := Function.update s.reading reader none
            returned := s.returned ++ [⟨half.index, s.sm.lastAppliedTerm⟩] }
      | none => s

/-- The term did not change from the pair begun at a reader's first load to the pair
completed at its second. -/
def Settled (s : Positions) : PositionEvent → Prop
  | .loadTerm reader => ∀ half ∈ s.reading reader, half.begun.term = s.completed.term
  | _ => True

end Positions

/-! ## Index and term are stored together -/

/-- Every store of an index is followed at once by one of a term, and there are no others
of a term. -/
def StoresPaired : List SmEffect → Prop
  | [] => True
  | .storeLastAppliedIndex _ :: .storeLastAppliedTerm _ :: rest => StoresPaired rest
  | .storeLastAppliedIndex _ :: _ => False
  | .storeLastAppliedTerm _ :: _ => False
  | _ :: rest => StoresPaired rest

theorem StoresPaired.afterCaches (log : List ApplyEntry) {rest : List SmEffect}
    (h : StoresPaired rest) : StoresPaired (log.map cacheEffect ++ rest) := by
  induction log with
  | nil => exact h
  | cons e log ih => exact ih

theorem applyChunk_storesPaired (flt : Faults) (sm : LmdbStateMachine) (chunk : List ApplyEntry) :
    StoresPaired (applyChunk flt sm chunk).effects := by
  rcases applyChunk_cases flt sm chunk with ⟨env, hcall, -⟩ | ⟨done, rest, err, -, hcall⟩
  · rw [hcall]
    refine StoresPaired.afterCaches chunk ?_
    cases highestOf none chunk with
    | none => trivial
    | some l => trivial
  · rw [hcall]
    have hdone : StoresPaired (done.map cacheEffect ++ []) :=
      StoresPaired.afterCaches done trivial
    rwa [List.append_nil] at hdone

theorem applySnapshotFromFile_storesPaired (task : TaskEnd) (snapFlt flt : Faults)
    (sm : LmdbStateMachine) (metadata : SnapshotMetadata) (file : SnapshotFile) :
    StoresPaired (applySnapshotFromFile task snapFlt flt sm metadata file).effects := by
  rcases applySnapshotFromFile_cases task snapFlt flt sm metadata file with
    ⟨db, env, -, -, hcall⟩ | ⟨⟨e, herr⟩, -⟩
  · rw [hcall, installedEffects]
    cases metadata.lastIncluded with
    | none => trivial
    | some l => trivial
  · rcases applySnapshotFromFile_error herr with ⟨-, heff⟩ | ⟨-, heff | ⟨env, heff⟩⟩
    · rw [heff]
      trivial
    · rw [heff]
      trivial
    · rw [heff]
      trivial

/-- **Every call stores its position index first, term next.** -/
theorem SmOp.storesPaired (sm : LmdbStateMachine) (op : SmOp) :
    StoresPaired (op.call sm).effects := by
  cases op with
  | applyChunk flt chunk => exact applyChunk_storesPaired flt sm chunk
  | generateSnapshotData dirErr flt lastIncluded =>
      show StoresPaired (DLmdb.generateSnapshotData dirErr flt sm.env lastIncluded).effects
      rcases generateSnapshotData_cases dirErr flt sm.env lastIncluded with ⟨out, h⟩ | ⟨e, h⟩
      · rw [h]
        trivial
      · rw [h]
        trivial
  | applySnapshotFromFile task snapFlt flt metadata file =>
      exact applySnapshotFromFile_storesPaired task snapFlt flt sm metadata file
  | persistLastSnapshotMetadata metadata => trivial
  | persistLastApplied flt l =>
      show StoresPaired (DLmdb.persistLastApplied flt sm l).effects
      rcases persistLastApplied_cases flt sm l with ⟨env, h, -⟩ | ⟨e, h⟩
      · rw [h]
        trivial
      · rw [h]
        trivial
  | reset flt =>
      show StoresPaired (resetStateMachine flt sm).effects
      rcases resetStateMachine_cases flt sm with ⟨env, h, -⟩ | ⟨e, h⟩
      · rw [h]
        trivial
      · rw [h]
        trivial

/-- What is left of a call: whole pairs, or first the term of the pair begun. -/
def PairsAfter (begun : LogId) (todo : List SmEffect) : Prop :=
  StoresPaired todo ∨
    ∃ rest, todo = .storeLastAppliedTerm begun.term :: rest ∧ StoresPaired rest

/-- **One effect**: it begins a pair, completes the one begun, or leaves both atomics
alone. -/
theorem PairsAfter.exec {begun : LogId} {e : SmEffect} {rest : List SmEffect}
    (h : PairsAfter begun (e :: rest)) (sm : LmdbStateMachine) :
    (∃ l, storedPair e rest = some l ∧ e = .storeLastAppliedIndex l.index ∧ PairsAfter l rest) ∨
      storedPair e rest = none ∧ PairsAfter begun rest ∧
        (sm.exec e).lastAppliedIndex = sm.lastAppliedIndex ∧
        (sm.exec e).lastAppliedTerm = if e.completes then begun.term else sm.lastAppliedTerm := by
  rcases h with h | ⟨rest', heq, h⟩
  · cases e with
    | storeLastAppliedIndex index =>
        match rest, h with
        | .storeLastAppliedTerm term :: rest', h =>
            exact Or.inl ⟨⟨index, term⟩, rfl, rfl, Or.inr ⟨rest', rfl, h⟩⟩
    | storeLastAppliedTerm term => exact h.elim
    | _ => exact Or.inr ⟨rfl, Or.inl h, rfl, rfl⟩
  · cases heq
    exact Or.inr ⟨rfl, Or.inl h, rfl, rfl⟩

namespace Positions

/-! ## Where a loaded index came from -/

/-- The index in place is that of the pair begun, the term that of the pair completed,
and every index that was loaded belongs to a pair that was stored, or to the one the
node started with. -/
structure Traced (init : LogId) (s : Positions) : Prop where
  pairs : PairsAfter s.begun s.todo
  index : s.sm.lastAppliedIndex = s.begun.index
  term : s.sm.lastAppliedTerm = s.completed.term
  begun : s.begun ∈ init :: s.stored
  reading : ∀ r half, s.reading r = some half →
    half.index = half.begun.index ∧ half.begun ∈ init :: s.stored

theorem start_traced (sm : LmdbStateMachine) : (start sm).Traced sm.lastApplied where
  pairs := Or.inl trivial
  index := rfl
  term := rfl
  begun := List.mem_cons_self
  reading := nofun

theorem Traced.effect {init : LogId} {s : Positions} (h : s.Traced init) :
    (s.step .effect).Traced init := by
  cases htodo : s.todo with
  | nil =>
      have hsame : s.step .effect = s := by simp only [step, htodo]
      rw [hsame]
      exact h
  | cons e rest =>
      have hpairs : PairsAfter s.begun (e :: rest) := htodo ▸ h.pairs
      have hold : ∀ l ∈ init :: s.stored, l ∈ init :: (s.stored ++ (storedPair e rest).toList) := by
        intro l hl
        rw [← List.cons_append]
        exact List.mem_append_left _ hl
      have hreading : ∀ r half, s.reading r = some half → half.index = half.begun.index ∧
          half.begun ∈ init :: (s.stored ++ (storedPair e rest).toList) := by
        intro r half hr
        obtain ⟨hhalf, hmem⟩ := h.reading r half hr
        exact ⟨hhalf, hold _ hmem⟩
      simp only [step, htodo]
      rcases hpairs.exec s.sm with ⟨l, hpair, rfl, hrest⟩ | ⟨hpair, hrest, hindex, hterm⟩
      · rw [hpair] at hreading ⊢
        exact ⟨hrest, rfl, h.term, by simp, hreading⟩
      · rw [hpair] at hreading ⊢
        refine ⟨hrest, hindex.trans h.index, ?_, by simpa using h.begun, hreading⟩
        show (s.sm.exec e).lastAppliedTerm = _
        rw [hterm, h.term]
        exact (apply_ite LogId.term _ _ _).symm

theorem Traced.loadIndex {init : LogId} {s : Positions} (h : s.Traced init) (reader : ℕ) :
    (s.step (.loadIndex reader)).Traced init := by
  refine ⟨h.pairs, h.index, h.term, h.begun, ?_⟩
  intro r half hr
  have hr' : Function.update s.reading reader (some ⟨s.sm.lastAppliedIndex, s.begun⟩) r =
      some half := hr
  rw [Function.update_apply] at hr'
  split at hr'
  · cases hr'
    exact ⟨h.index, h.begun⟩
  · exact h.reading r half hr'

/-- The second load, by what the reader holds. -/
theorem step_loadTerm_of_some {s : Positions} {reader : ℕ} {half : HalfRead}
    (hr : s.reading reader = some half) :
    s.step (.loadTerm reader) =
      { s with
        reading := Function.update s.reading reader none
        returned := s.returned ++ [⟨half.index, s.sm.lastAppliedTerm⟩] } := by
  simp only [step, hr]

theorem step_loadTerm_of_none {s : Positions} {reader : ℕ} (hr : s.reading reader = none) :
    s.step (.loadTerm reader) = s := by
  simp only [step, hr]

theorem Traced.loadTerm {init : LogId} {s : Positions} (h : s.Traced init) (reader : ℕ) :
    (s.step (.loadTerm reader)).Traced init := by
  cases hread : s.reading reader with
  | none =>
      rw [step_loadTerm_of_none hread]
      exact h
  | some half =>
      rw [step_loadTerm_of_some hread]
      refine ⟨h.pairs, h.index, h.term, h.begun, ?_⟩
      intro r half' hr
      have hr' : Function.update s.reading reader none r = some half' := hr
      rw [Function.update_apply] at hr'
      split at hr'
      · cases hr'
      · exact h.reading r half' hr'

theorem Traced.step {init : LogId} {s : Positions} (h : s.Traced init) (e : PositionEvent) :
    (s.step e).Traced init := by
  cases e with
  | call op =>
      cases htodo : s.todo with
      | nil =>
          simp only [Positions.step, htodo]
          exact ⟨Or.inl (op.storesPaired s.sm), h.index, h.term, h.begun, h.reading⟩
      | cons e rest =>
          have hsame : s.step (.call op) = s := by simp only [Positions.step, htodo]
          rw [hsame]
          exact h
  | effect => exact h.effect
  | loadIndex reader => exact h.loadIndex reader
  | loadTerm reader => exact h.loadTerm reader

/-! ## What readers return -/

/-- Every pair that a reader returned was stored, or is the first. -/
def ReturnsStored (init : LogId) (s : Positions) : Prop :=
  ∀ l ∈ s.returned, l ∈ init :: s.stored

theorem step_grows (s : Positions) (e : PositionEvent) :
    s.stored <+: (s.step e).stored ∧ s.returned <+: (s.step e).returned := by
  cases e with
  | call op =>
      cases htodo : s.todo <;> simp [step, htodo]
  | effect =>
      cases htodo : s.todo <;> simp [step, htodo]
  | loadIndex reader => exact ⟨List.prefix_rfl, List.prefix_rfl⟩
  | loadTerm reader =>
      cases hread : s.reading reader <;> simp [step, hread]

theorem run_grows (s : Positions) (es : List PositionEvent) :
    s.stored <+: (runFrom step s es).stored ∧ s.returned <+: (runFrom step s es).returned := by
  induction es generalizing s with
  | nil => exact ⟨List.prefix_rfl, List.prefix_rfl⟩
  | cons e es ih =>
      obtain ⟨hstored, hreturned⟩ := step_grows s e
      obtain ⟨hstored', hreturned'⟩ := ih (s.step e)
      exact ⟨hstored.trans hstored', hreturned.trans hreturned'⟩

theorem ReturnsStored.of_same {init : LogId} {s s' : Positions} (h : s.ReturnsStored init)
    (hstored : s.stored <+: s'.stored) (hreturned : s'.returned = s.returned) :
    s'.ReturnsStored init := by
  intro l hl
  rw [hreturned] at hl
  rcases List.mem_cons.mp (h l hl) with rfl | hmem
  · exact List.mem_cons_self
  · exact List.mem_cons_of_mem _ (hstored.subset hmem)

/-- **A settled load returns a stored pair.** -/
theorem ReturnsStored.step {init : LogId} {s : Positions} (h : s.ReturnsStored init)
    (ht : s.Traced init) {e : PositionEvent} (he : s.Settled e) :
    (s.step e).ReturnsStored init := by
  have hstored := (step_grows s e).1
  cases e with
  | call op =>
      refine h.of_same hstored ?_
      cases htodo : s.todo <;> simp [Positions.step, htodo]
  | effect =>
      refine h.of_same hstored ?_
      cases htodo : s.todo <;> simp [Positions.step, htodo]
  | loadIndex reader => exact h.of_same hstored rfl
  | loadTerm reader =>
      cases hread : s.reading reader with
      | none =>
          rw [step_loadTerm_of_none hread]
          exact h
      | some half =>
          obtain ⟨hindex, hbegun⟩ := ht.reading reader half hread
          have hterm : half.begun.term = s.completed.term := he half hread
          have hpair : (⟨half.index, s.sm.lastAppliedTerm⟩ : LogId) = half.begun := by
            rw [hindex, ht.term, ← hterm]
          rw [step_loadTerm_of_some hread, hpair]
          intro l hl
          rcases List.mem_append.mp hl with hold | hnew
          · exact h l hold
          · rw [List.mem_singleton.mp hnew]
            exact hbegun

/-- Every index comes with one term. -/
def OneTermEach (ls : List LogId) : Prop := ∀ a ∈ ls, ∀ b ∈ ls, a.index = b.index → a = b

/-- A load that is not settled shows, once every index comes with one term. -/
theorem Traced.settled_of_returnsStored {init : LogId} {s : Positions} (h : s.Traced init)
    {es : List PositionEvent}
    (hone : OneTermEach (init :: (runFrom Positions.step s es).stored))
    (hret : (runFrom Positions.step s es).ReturnsStored init) :
    Along Positions.step Settled s es := by
  induction es generalizing s with
  | nil => trivial
  | cons e es ih =>
      refine ⟨?_, ih (h.step e) hone hret⟩
      cases e with
      | call op => trivial
      | effect => trivial
      | loadIndex reader => trivial
      | loadTerm reader =>
          intro half hread
          obtain ⟨hindex, hbegun⟩ := h.reading reader half hread
          obtain ⟨hstored, hreturned⟩ := run_grows (s.step (.loadTerm reader)) es
          -- what it returned is a stored pair with the index it loaded
          have hlast : (⟨half.index, s.sm.lastAppliedTerm⟩ : LogId) ∈
              (s.step (.loadTerm reader)).returned := by
            rw [step_loadTerm_of_some hread]
            simp
          have hmem := hret _ (hreturned.subset hlast)
          have hbegun' : half.begun ∈
              init :: (runFrom Positions.step s (.loadTerm reader :: es)).stored := by
            rcases List.mem_cons.mp hbegun with heq | hmem'
            · rw [heq]
              exact List.mem_cons_self
            · have hgrown := ((step_grows s (.loadTerm reader)).1.trans hstored).subset hmem'
              exact List.mem_cons_of_mem _ hgrown
          have hsame : half.begun = ⟨half.index, s.sm.lastAppliedTerm⟩ :=
            hone _ hbegun' _ hmem hindex.symm
          rw [← h.term, hsame]

end Positions

/-- **`last_applied` is never torn exactly when no reader has a change of term between the
pair begun at its first load and the pair completed at its second.** Then, in every
state of the run, each position returned is a pair that a call stored, or the first
one; and where every index comes with one term, only then. -/
theorem last_applied_untorn_iff (sm : LmdbStateMachine) (es : List PositionEvent) :
    let s := runFrom Positions.step (Positions.start sm) es
    (Along Positions.step Positions.Settled (Positions.start sm) es →
        s.ReturnsStored sm.lastApplied) ∧
      (Positions.OneTermEach (sm.lastApplied :: s.stored) →
        (s.ReturnsStored sm.lastApplied ↔
          Along Positions.step Positions.Settled (Positions.start sm) es)) := by
  intro s
  have hrun : Along Positions.step Positions.Settled (Positions.start sm) es →
      s.ReturnsStored sm.lastApplied := by
    intro hes
    have hstart : (Positions.start sm).Traced sm.lastApplied ∧
        (Positions.start sm).ReturnsStored sm.lastApplied := ⟨Positions.start_traced sm, nofun⟩
    have hinv : s.Traced sm.lastApplied ∧ s.ReturnsStored sm.lastApplied :=
      runFrom_invariant
        (I := fun s : Positions => s.Traced sm.lastApplied ∧ s.ReturnsStored sm.lastApplied)
        (fun s e h he => ⟨h.1.step e, h.2.step h.1 he⟩) hstart hes
    exact hinv.2
  refine ⟨hrun, fun hone => ⟨fun hret => ?_, hrun⟩⟩
  exact (Positions.start_traced sm).settled_of_returnsStored hone hret

/-- A new leader's first entry follows entry 5 of term 1, and a reader comes between its
two stores: the position it returns is entry 6 under term 1. -/
theorem last_applied_torn :
    let calls : List PositionEvent :=
      [.call (.applyChunk Faults.none [⟨5, 1, .noop⟩]), .effect, .effect, .effect, .effect,
        .call (.applyChunk Faults.none [⟨6, 2, .noop⟩]), .effect, .effect, .effect]
    let s := runFrom Positions.step (Positions.start freshStateMachine)
      (calls ++ [.loadIndex 0, .loadTerm 0, .effect])
    s.stored = [⟨5, 1⟩, ⟨6, 2⟩] ∧ s.returned = [⟨6, 1⟩] ∧
      ¬ s.ReturnsStored freshStateMachine.lastApplied := by
  intro calls s
  have hstored : s.stored = [⟨5, 1⟩, ⟨6, 2⟩] := by decide
  have hreturned : s.returned = [⟨6, 1⟩] := by decide
  refine ⟨hstored, hreturned, ?_⟩
  intro h
  have hlast : (⟨6, 1⟩ : LogId) ∈ s.returned := by
    rw [hreturned]
    exact List.mem_cons_self
  have hmem := h _ hlast
  rw [hstored] at hmem
  exact absurd hmem (by decide)

end DLmdb
