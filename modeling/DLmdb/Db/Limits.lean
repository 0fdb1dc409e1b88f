import DLmdb.Db.Writes
import DLmdb.Framework.Runs

/-!
# The configured size limits

`max_key_bytes` and `max_value_bytes` are checked by `put` and `put_with_ttl` alone, and
by no later layer. The other calls that store something carry any size into the store;
where they are used within the limits, the limits hold of everything stored.
-/

namespace DLmdb

open Framework Lmdb

/-! ## Calls within the limits -/

/-- A key and a value within the limits. -/
def DLmdbConfig.Admits (cfg : DLmdbConfig) (key value : Bytes) : Prop :=
  key.length ≤ cfg.maxKeyBytes ∧ value.length ≤ cfg.maxValueBytes

def BatchOp.Fits (cfg : DLmdbConfig) : BatchOp → Prop
  | .insert key value => cfg.Admits key value
  | .delete _ => True

/-- What the call asks to store is within the limits. A swap that expects a value stores
nothing under a key that is not there. -/
def WriteCall.Fits (cfg : DLmdbConfig) : WriteCall → Prop
  | .put key value => cfg.Admits key value
  | .putWithTtl _ key value _ => cfg.Admits key value
  | .batch ops => ∀ op ∈ ops, op.Fits cfg
  | .delete _ => True
  | .putIfAbsent key value => cfg.Admits key value
  | .compareAndSwap key expected newValue =>
      (expected = none → key.length ≤ cfg.maxKeyBytes) ∧ newValue.length ≤ cfg.maxValueBytes

/-- The calls that check the limits. -/
def WriteCall.Checks : WriteCall → Prop
  | .put _ _ => True
  | .putWithTtl _ _ _ _ => True
  | _ => False

/-- The two errors of the guards. -/
def Error.TooLarge : Error → Prop
  | .keyTooLarge _ => True
  | .valueTooLarge _ => True
  | _ => False

/-- The call is turned away: nothing goes to Raft. -/
def Rejected (x : Except Error Command) : Prop := ∃ e, x = .error e ∧ e.TooLarge

/-- The guards turn away what they do not admit. -/
theorem guarded_rejected {cfg : DLmdbConfig} {key value : Bytes} {c : Command}
    (h : ¬ cfg.Admits key value) :
    Rejected (do
      validateKey key cfg.maxKeyBytes
      validateValue value cfg.maxValueBytes
      return c) := by
  by_cases hk : key.length ≤ cfg.maxKeyBytes
  · have hv : ¬ value.length ≤ cfg.maxValueBytes := fun hv => h ⟨hk, hv⟩
    refine ⟨.valueTooLarge value.length, ?_, trivial⟩
    have hkey : validateKey key cfg.maxKeyBytes = .ok () := validateKey_eq_ok.mpr hk
    rw [hkey, validateValue, if_pos (Nat.lt_of_not_le hv)]
    rfl
  · refine ⟨.keyTooLarge key.length, ?_, trivial⟩
    rw [validateKey, if_pos (Nat.lt_of_not_le hk)]
    rfl

/-- **A call beyond the limits is rejected exactly when its kind checks them.** -/
theorem rejected_iff (cfg : DLmdbConfig) (call : WriteCall) :
    (¬ call.Fits cfg → Rejected (call.submit cfg)) ↔ call.Checks ∨ call.Fits cfg := by
  have hunchecked : ∀ {c : Command}, call.submit cfg = .ok c →
      ((¬ call.Fits cfg → Rejected (call.submit cfg)) ↔ call.Fits cfg) := by
    intro c hc
    rw [hc]
    constructor
    · intro h
      by_contra hfits
      obtain ⟨e, he, -⟩ := h hfits
      cases he
    · intro hfits hn
      exact absurd hfits hn
  cases call with
  | put key value => exact iff_of_true guarded_rejected (Or.inl trivial)
  | putWithTtl now key value ttlSecs => exact iff_of_true guarded_rejected (Or.inl trivial)
  | batch ops => exact (hunchecked rfl).trans (or_iff_right id).symm
  | delete key => exact (hunchecked rfl).trans (or_iff_right id).symm
  | putIfAbsent key value => exact (hunchecked rfl).trans (or_iff_right id).symm
  | compareAndSwap key expected newValue => exact (hunchecked rfl).trans (or_iff_right id).symm

/-! ## The store -/

def Value.payload : Value → Bytes
  | .raw payload => payload
  | .ttl _ payload => payload

/-- An envelope around a payload within the limit. -/
def EnvelopeWithin (cfg : DLmdbConfig) (v : Bytes) : Prop :=
  ∃ value, Value.decode v = .ok value ∧ value.payload.length ≤ cfg.maxValueBytes

/-- Every stored key and payload is within the limits. -/
def WithinLimits (cfg : DLmdbConfig) (σ : Contents Bytes Bytes) : Prop :=
  ∀ k v, σ k = some v → k.length ≤ cfg.maxKeyBytes ∧ EnvelopeWithin cfg v

/-- What a write may store is within the limits. -/
def WriteWithin (cfg : DLmdbConfig) : KeyedWrite Bytes Bytes → Prop
  | .assign key value => ∀ v ∈ value, key.length ≤ cfg.maxKeyBytes ∧ EnvelopeWithin cfg v
  | .cas key expected v =>
      (expected = none → key.length ≤ cfg.maxKeyBytes) ∧ EnvelopeWithin cfg v

theorem envelopeWithin_encode {cfg : DLmdbConfig} (value : Value)
    (h : value.payload.length ≤ cfg.maxValueBytes) : EnvelopeWithin cfg value.encode :=
  ⟨value, Value.decode_eq_ok.mpr rfl, h⟩

/-- An insert of an encoded value of admitted size. -/
theorem insert_within {cfg : DLmdbConfig} {key : Bytes} (value : Value)
    (h : cfg.Admits key value.payload) : WriteWithin cfg (.assign key (some value.encode)) := by
  rintro v ⟨⟩
  exact ⟨h.1, envelopeWithin_encode value h.2⟩

theorem WithinLimits.update {cfg : DLmdbConfig} {σ : Contents Bytes Bytes}
    (h : WithinLimits cfg σ) {key : Bytes} {x : Option Bytes}
    (hx : ∀ v ∈ x, key.length ≤ cfg.maxKeyBytes ∧ EnvelopeWithin cfg v) :
    WithinLimits cfg (Function.update σ key x) := by
  intro k v hv
  rw [Function.update_apply] at hv
  split at hv
  · rename_i hkey
    rw [hkey]
    exact hx v hv
  · exact h k v hv

theorem WithinLimits.step {cfg : DLmdbConfig} {σ : Contents Bytes Bytes}
    (h : WithinLimits cfg σ) {w : KeyedWrite Bytes Bytes} (hw : WriteWithin cfg w) :
    WithinLimits cfg (σ.step w) := by
  cases w with
  | assign key value => exact h.update hw
  | cas key expected value =>
      by_cases hf : σ key = expected
      · -- it goes through: under a key that was there, or fits
        rw [Contents.step_cas_hit hf]
        apply h.update
        rintro v ⟨⟩
        refine ⟨?_, hw.2⟩
        cases expected with
        | none => exact hw.1 rfl
        | some e => exact (h key e hf).1
      · rw [Contents.step_cas_miss hf]
        exact h

theorem WithinLimits.run {cfg : DLmdbConfig} {σ : Contents Bytes Bytes}
    {ws : List (KeyedWrite Bytes Bytes)} (h : WithinLimits cfg σ)
    (hws : ∀ w ∈ ws, WriteWithin cfg w) : WithinLimits cfg (σ.run ws) := by
  induction ws generalizing σ with
  | nil => exact h
  | cons w ws ih =>
      refine ih (h.step (hws w List.mem_cons_self)) ?_
      intro w' hw'
      exact hws w' (List.mem_cons_of_mem _ hw')

/-- An accepted call that checks the limits is within them. -/
theorem fits_of_checks {cfg : DLmdbConfig} {call : WriteCall} {c : Command}
    (hc : call.submit cfg = .ok c) (h : call.Checks ∨ call.Fits cfg) : call.Fits cfg := by
  rcases h with hchecks | hfits
  · cases call with
    | put key value =>
        obtain ⟨hk, hv, -⟩ := put_eq_ok.mp hc
        exact ⟨hk, hv⟩
    | putWithTtl now key value ttlSecs =>
        obtain ⟨hk, hv, -⟩ := putWithTtl_eq_ok.mp hc
        exact ⟨hk, hv⟩
    | batch ops => exact hchecks.elim
    | delete key => exact hchecks.elim
    | putIfAbsent key value => exact hchecks.elim
    | compareAndSwap key expected newValue => exact hchecks.elim
  · exact hfits

/-- The writes of an accepted call within the limits. -/
theorem writes_within {cfg : DLmdbConfig} {call : WriteCall} {c : Command}
    (hc : call.submit cfg = .ok c) (hfits : call.Fits cfg) : ∀ w ∈ c.writes, WriteWithin cfg w := by
  cases call with
  | put key value =>
      obtain ⟨-, -, rfl⟩ := put_eq_ok.mp hc
      intro w hw
      rw [List.mem_singleton.mp hw]
      exact insert_within (.raw value) hfits
  | putWithTtl now key value ttlSecs =>
      obtain ⟨-, -, rfl⟩ := putWithTtl_eq_ok.mp hc
      intro w hw
      rw [List.mem_singleton.mp hw]
      exact insert_within (.ttl (now + ttlSecs) value) hfits
  | batch ops =>
      cases hc
      intro w hw
      obtain ⟨op', hop', rfl⟩ := List.mem_map.mp hw
      obtain ⟨op, hop, rfl⟩ := List.mem_map.mp hop'
      cases op with
      | insert key value => exact insert_within (.raw value) (hfits _ hop)
      | delete key => exact nofun
  | delete key =>
      cases hc
      intro w hw
      rw [List.mem_singleton.mp hw]
      exact nofun
  | putIfAbsent key value =>
      cases hc
      intro w hw
      rw [List.mem_singleton.mp hw]
      exact ⟨fun _ => hfits.1, envelopeWithin_encode (.raw value) hfits.2⟩
  | compareAndSwap key expected newValue =>
      cases hc
      intro w hw
      rw [List.mem_singleton.mp hw]
      exact ⟨fun h => hfits.1 (Option.map_eq_none_iff.mp h), envelopeWithin_encode (.raw newValue) hfits.2⟩

/-! ## Runs -/

/-- A chunk of client calls, and the faults of its transaction. -/
def applyCalls (cfg : DLmdbConfig) (sm : LmdbStateMachine) (e : Faults × List ClientWrite) :
    LmdbStateMachine :=
  sm.after (applyChunk e.1 sm (submittedChunk cfg e.2))

/-- **One chunk** keeps the limits if its calls check them or are within them. -/
theorem WithinLimits.applyCalls {cfg : DLmdbConfig} {sm : LmdbStateMachine}
    (h : WithinLimits cfg sm.kv.get) {e : Faults × List ClientWrite}
    (he : ∀ w ∈ e.2, w.call.Checks ∨ w.call.Fits cfg) :
    WithinLimits cfg (applyCalls cfg sm e).kv.get := by
  unfold DLmdb.applyCalls
  cases hres : (applyChunk e.1 sm (submittedChunk cfg e.2)).result with
  | error err =>
      obtain ⟨terms, hafter⟩ := applyChunk_failed hres
      rw [hafter]
      exact h
  | ok rs =>
      rw [(applyChunk_applied hres).kv]
      refine h.run ?_
      intro w hw
      obtain ⟨entry, hentry, hw⟩ := List.mem_flatMap.mp hw
      obtain ⟨cw, hcw, hsubmit, -⟩ := mem_submittedChunk.mp hentry
      exact writes_within hsubmit (fits_of_checks hsubmit (he cw hcw)) w hw

/-- **The size limits.** For each call, a size beyond the limits is turned away if and only
if the call is `put`, `put_with_ttl`, or within the limits. In every run whose calls
are such, everything stored is within the limits. -/
theorem size_limits_hold (cfg : DLmdbConfig) :
    (∀ call : WriteCall,
      (¬ call.Fits cfg → Rejected (call.submit cfg)) ↔ call.Checks ∨ call.Fits cfg) ∧
    ∀ es : List (Faults × List ClientWrite),
      (∀ e ∈ es, ∀ w ∈ e.2, w.call.Checks ∨ w.call.Fits cfg) →
        WithinLimits cfg (runFrom (applyCalls cfg) freshStateMachine es).kv.get := by
  refine ⟨rejected_iff cfg, ?_⟩
  intro es hes
  have hempty : WithinLimits cfg freshStateMachine.kv.get := by
    intro k v hv
    have hnone : freshStateMachine.kv.get k = none := Database.get_empty k
    rw [hnone] at hv
    cases hv
  exact runFrom_invariant (I := fun sm : LmdbStateMachine => WithinLimits cfg sm.kv.get)
    (fun _ _ h he => h.applyCalls he) hempty (Along.of_forall (fun e he _ => hes e he))

/-- A `put` that is turned away, one that is not, and a batch within the limits. -/
theorem size_limits_hold_run :
    let es : List (Faults × List ClientWrite) := [(Faults.none, [⟨1, 1, .put [7] [1, 2, 3]⟩,
      ⟨2, 1, .put [8] [1]⟩, ⟨3, 1, .batch [.insert [9] [2], .delete [8]]⟩])]
    WithinLimits ⟨512, 2⟩ (runFrom (applyCalls ⟨512, 2⟩) freshStateMachine es).kv.get := by
  intro es
  refine (size_limits_hold ⟨512, 2⟩).2 es ?_
  intro e he w hw
  rw [List.mem_singleton.mp he] at hw
  simp only [List.mem_cons, List.not_mem_nil, or_false] at hw
  rcases hw with rfl | rfl | rfl
  · exact Or.inl trivial
  · exact Or.inl trivial
  · refine Or.inr ?_
    intro op hop
    simp only [List.mem_cons, List.not_mem_nil, or_false] at hop
    rcases hop with rfl | rfl
    · exact ⟨by decide, by decide⟩
    · trivial

/-- A batch stores a value one byte longer than the limit. -/
theorem batch_exceeds_limit :
    let es : List (Faults × List ClientWrite) :=
      [(Faults.none, [⟨1, 1, .batch [.insert [7] [1, 2]]⟩])]
    ¬ Rejected ((WriteCall.batch [.insert [7] [1, 2]]).submit ⟨512, 1⟩) ∧
      ¬ WithinLimits ⟨512, 1⟩ (runFrom (applyCalls ⟨512, 1⟩) freshStateMachine es).kv.get := by
  intro es
  constructor
  · rintro ⟨e, he, -⟩
    cases he
  · intro h
    have hget : (runFrom (applyCalls ⟨512, 1⟩) freshStateMachine es).kv.get [7] =
        some [0, 1, 2] := by decide
    obtain ⟨-, value, hd, hlen⟩ := h [7] [0, 1, 2] hget
    cases hd
    exact absurd hlen (by decide)

end DLmdb
