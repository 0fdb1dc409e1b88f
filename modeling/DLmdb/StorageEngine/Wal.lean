import DLmdb.Framework.FixedWidth
import DLmdb.StateMachine.Basic

/-!
# `LmdbWal`: the Raft log in LMDB

Entries live in `log_db` under their index, eight bytes big-endian, so that the
order of the keys is the order of the indices. The hard state and the purge
boundary live in `meta_db`. The protobuf and bincode formats belong to other
crates: of them the model assumes that decoding inverts encoding.
-/

namespace DLmdb

open Framework Lmdb

/-! ## Formats -/

/-- A protobuf message: `encode_to_vec` cannot fail, `decode` can. -/
structure Prost (α : Type) where
  encode : α → Bytes
  decode : Bytes → Except String α
  decode_encode : ∀ a, decode (encode a) = .ok a

/-- A bincode value: both directions can fail. -/
structure Bincode (α : Type) where
  serialize : α → Except String Bytes
  deserialize : Bytes → Except String α
  deserialize_serialize : ∀ a bytes, serialize a = .ok bytes → deserialize bytes = .ok a

/-- What the log is made of. -/
structure Formats (Entry HardState : Type) where
  index : Entry → UInt64
  entry : Prost Entry
  logId : Prost LogId
  hardState : Bincode HardState

/-! ## The code -/

inductive WalDb where
  | logDb
  | metaDb
deriving DecidableEq

abbrev WalEnv := WalDb → Database

structure LmdbWal where
  env : WalEnv
  lastIndex : UInt64

inductive WalEffect where
  | commit (env : WalEnv)
  | fetchMaxLastIndex (index : UInt64)
  | storeLastIndex (index : UInt64)

abbrev WalCall := Call WalEffect EngineError

def keyHardState : Bytes := utf8 "hard_state"
def keyPurgeBoundary : Bytes := utf8 "purge_boundary"

def dbErr (e : HeedError) : EngineError := .dbError e.text

/-- `.map_err(db_err)?` -/
def walDb {α : Type} (x : Except HeedError α) : WalCall α := .ofExcept (x.mapError dbErr)

/-- `k.try_into().ok()` and `u64::from_be_bytes`. -/
def u64FromKey (k : Bytes) : Option UInt64 := if k.length = 8 then some (fromBeBytes k) else none

/-- The index of a log's last key, 0 without one. -/
def lastIndexOf (last : Option (Bytes × Bytes)) : UInt64 :=
  (last.bind (fun e => u64FromKey e.1)).getD 0

/-- `x.saturating_add(1)` -/
def saturatingSucc (x : UInt64) : UInt64 := if x = 0xffffffffffffffff then x else x + 1

namespace LmdbWal

def exec (wal : LmdbWal) : WalEffect → LmdbWal
  | .commit env => { wal with env := env }
  | .fetchMaxLastIndex index => { wal with lastIndex := max wal.lastIndex index }
  | .storeLastIndex index => { wal with lastIndex := index }

def after {err α : Type} (wal : LmdbWal) (c : Call WalEffect err α) : LmdbWal := c.after exec wal

/-- `LmdbStorageEngine::new` over what the directory holds. -/
def new (flt : Faults) (env : WalEnv) : Except EngineError LmdbWal :=
  Except.mapError dbErr do
    let wtxn ← Txn.begin flt env
    let (wtxn, last) ← wtxn.last .logDb
    let env ← wtxn.commit
    return { env := env, lastIndex := lastIndexOf last }

variable {Entry HardState : Type} (fmt : Formats Entry HardState)

/-- The `for entry in &entries` loop, with `max_index`. -/
def putEntries : List Entry → Txn WalDb → UInt64 → Except HeedError (Txn WalDb × UInt64)
  | [], wtxn, maxIndex => .ok (wtxn, maxIndex)
  | entry :: entries, wtxn, maxIndex => do
      let key := toBeBytes (fmt.index entry)
      let value := fmt.entry.encode entry
      let wtxn ← wtxn.put .logDb key value
      putEntries entries wtxn (max maxIndex (fmt.index entry))

def persistEntries (flt : Faults) (wal : LmdbWal) (entries : List Entry) : WalCall Unit :=
  if entries.isEmpty then return ()
  else do
    let (env, maxIndex) ← walDb do
      let wtxn ← Txn.begin flt wal.env
      let (wtxn, maxIndex) ← putEntries fmt entries wtxn 0
      let env ← wtxn.commit
      return (env, maxIndex)
    Call.emit (.commit env)
    -- in memory, after the commit
    Call.emit (.fetchMaxLastIndex maxIndex)

/-- `Entry::decode(bytes).map_err(..)?` -/
def decodeEntry (bytes : Bytes) : Except EngineError Entry :=
  (fmt.entry.decode bytes).mapError .serializationError

def entry (flt : Faults) (wal : LmdbWal) (index : UInt64) : Except EngineError (Option Entry) := do
  let (_, bytes) ← Except.mapError dbErr do
    let rtxn ← Txn.begin flt wal.env
    rtxn.get .logDb (toBeBytes index)
  match bytes with
  | some bytes => do
      let entry ← decodeEntry fmt bytes
      return some entry
  | none => return none

/-- The loop of `get_entries`. -/
def entriesLoop (last : UInt64) : List (Bytes × Bytes) → Txn WalDb → List Entry →
    Except EngineError (List Entry)
  | [], _, entries => .ok entries
  | (k, v) :: items, rtxn, entries => do
      let rtxn ← rtxn.tick.mapError dbErr
      match u64FromKey k with
      | none => .error (.dbError "invalid log key length")
      | some idx =>
          -- `break`: the keys only grow from here
          if idx > last then .ok entries
          else do
            let entry ← decodeEntry fmt v
            entriesLoop last items rtxn (entries ++ [entry])

/-- `get_entries(first..=last)` -/
def getEntries (flt : Faults) (wal : LmdbWal) (first last : UInt64) :
    Except EngineError (List Entry) := do
  let (rtxn, items) ← Except.mapError dbErr do
    let rtxn ← Txn.begin flt wal.env
    rtxn.range .logDb (.included (toBeBytes first)) .unbounded
  entriesLoop fmt last items rtxn []

def purge (flt : Faults) (wal : LmdbWal) (cutoffIndex : LogId) : WalCall Unit := do
  -- the end of the range is exclusive: the first key after the cutoff
  let start := toBeBytes 0
  let stop := toBeBytes (saturatingSucc cutoffIndex.index)
  let env ← walDb do
    let wtxn ← Txn.begin flt wal.env
    let wtxn ← wtxn.deleteRange .logDb (.included start) (.excluded stop)
    let wtxn ← wtxn.put .metaDb keyPurgeBoundary (fmt.logId.encode cutoffIndex)
    wtxn.commit
  Call.emit (.commit env)

def truncate (flt : Faults) (wal : LmdbWal) (fromIndex : UInt64) : WalCall Unit := do
  let start := toBeBytes fromIndex
  let (env, newLast) ← walDb do
    let wtxn ← Txn.begin flt wal.env
    let wtxn ← wtxn.deleteRange .logDb (.included start) .unbounded
    -- the new tail, as the transaction sees it
    let (wtxn, last) ← wtxn.last .logDb
    let env ← wtxn.commit
    return (env, lastIndexOf last)
  Call.emit (.commit env)
  Call.emit (.storeLastIndex newLast)

def loadPurgeBoundary (flt : Faults) (wal : LmdbWal) : Except EngineError (Option LogId) := do
  let (_, bytes) ← Except.mapError dbErr do
    let rtxn ← Txn.begin flt wal.env
    rtxn.get .metaDb keyPurgeBoundary
  match bytes with
  | some bytes => do
      let boundary ← (fmt.logId.decode bytes).mapError .serializationError
      return some boundary
  | none => return none

def reset (flt : Faults) (wal : LmdbWal) : WalCall Unit := do
  let env ← walDb do
    let wtxn ← Txn.begin flt wal.env
    let wtxn ← wtxn.clear .logDb
    wtxn.commit
  Call.emit (.commit env)
  Call.emit (.storeLastIndex 0)

def saveHardState (flt : Faults) (wal : LmdbWal) (state : HardState) : WalCall Unit := do
  let serialized ← Call.ofExcept ((fmt.hardState.serialize state).mapError .bincodeError)
  let env ← walDb do
    let wtxn ← Txn.begin flt wal.env
    let wtxn ← wtxn.put .metaDb keyHardState serialized
    wtxn.commit
  Call.emit (.commit env)

def loadHardState (flt : Faults) (wal : LmdbWal) : Except EngineError (Option HardState) := do
  let (_, bytes) ← Except.mapError dbErr do
    let rtxn ← Txn.begin flt wal.env
    rtxn.get .metaDb keyHardState
  match bytes with
  | some bytes => do
      let state ← (fmt.hardState.deserialize bytes).mapError .bincodeError
      return some state
  | none => return none

end LmdbWal

/-! ## How a write call ends -/

/-- Everything but a commit changes a field in memory only. -/
def WalEffect.InMemory : WalEffect → Prop
  | .commit _ => False
  | .fetchMaxLastIndex _ => True
  | .storeLastIndex _ => True

/-- **The three ways a write call ends**: with an error and no effect, with nothing to
do, or with one commit, its first effect. `P` is what it leaves in the environment. -/
inductive Outcome (wal : LmdbWal) (P : WalEnv → Prop) : WalCall Unit → Prop
  | failed (e : EngineError) : Outcome wal P ⟨[], .error e⟩
  | idle (hp : P wal.env) : Outcome wal P ⟨[], .ok ()⟩
  | committed (env : WalEnv) (memory : List WalEffect) (hmem : ∀ x ∈ memory, x.InMemory)
      (hp : P env) : Outcome wal P ⟨.commit env :: memory, .ok ()⟩

theorem env_foldl_inMemory {wal : LmdbWal} {es : List WalEffect} (h : ∀ x ∈ es, x.InMemory) :
    (es.foldl LmdbWal.exec wal).env = wal.env := by
  induction es generalizing wal with
  | nil => rfl
  | cons x es ih =>
      rw [List.foldl_cons, ih (fun y hy => h y (List.mem_cons_of_mem _ hy))]
      have hx := h x List.mem_cons_self
      cases x with
      | commit env => exact absurd hx id
      | fetchMaxLastIndex index => rfl
      | storeLastIndex index => rfl

namespace Outcome

variable {wal : LmdbWal} {P : WalEnv → Prop} {c : WalCall Unit}

theorem after_ok (h : Outcome wal P c) (hc : c.result = .ok ()) : P (wal.after c).env := by
  cases h with
  | failed e => cases hc
  | idle hp => exact hp
  | committed env memory hmem hp =>
      have henv : (memory.foldl LmdbWal.exec { wal with env := env }).env = env :=
        env_foldl_inMemory hmem
      show P (memory.foldl LmdbWal.exec { wal with env := env }).env
      rw [henv]
      exact hp

theorem after_error (h : Outcome wal P c) {e : EngineError} (hc : c.result = .error e) :
    wal.after c = wal := by
  cases h with
  | failed e => rfl
  | idle hp => cases hc
  | committed env memory hmem hp => cases hc

theorem mono {Q : WalEnv → Prop} (h : Outcome wal P c) (hpq : ∀ env, P env → Q env) :
    Outcome wal Q c := by
  cases h with
  | failed e => exact failed e
  | idle hp => exact idle (hpq _ hp)
  | committed env memory hmem hp => exact committed env memory hmem (hpq _ hp)

/-- A crash in the middle of the call leaves the environment as it was or all done. -/
theorem crashAt (h : Outcome wal P c) (j : ℕ) :
    (c.crashAt LmdbWal.exec wal j).env = wal.env ∨
      c.result = .ok () ∧ P (c.crashAt LmdbWal.exec wal j).env := by
  cases h with
  | failed e =>
      left
      rw [Call.crashAt, List.take_nil]
      rfl
  | idle hp =>
      left
      rw [Call.crashAt, List.take_nil]
      rfl
  | committed env memory hmem hp =>
      cases j with
      | zero => exact Or.inl rfl
      | succ j =>
          have henv : ((memory.take j).foldl LmdbWal.exec { wal with env := env }).env = env :=
            env_foldl_inMemory (fun x hx => hmem x (List.mem_of_mem_take hx))
          refine Or.inr ⟨rfl, ?_⟩
          show P ((memory.take j).foldl LmdbWal.exec { wal with env := env }).env
          rw [henv]
          exact hp

end Outcome

/-- A transaction whose failure ends the call, and whose environment is committed
first. -/
theorem walDb_outcome {α : Type} (wal : LmdbWal) {P : WalEnv → Prop} (x : Except HeedError α)
    (env : α → WalEnv) (memory : α → List WalEffect) (f : α → WalCall Unit)
    (hf : ∀ a, f a = ⟨.commit (env a) :: memory a, .ok ()⟩)
    (hmem : ∀ a, ∀ e ∈ memory a, e.InMemory) (hp : ∀ a, x = .ok a → P (env a)) :
    Outcome wal P (walDb x >>= f) := by
  rcases Call.mapError_bind_cases dbErr x f with ⟨a, hx, hcall⟩ | ⟨e, hcall⟩
  · rw [walDb, hcall, hf]
    exact Outcome.committed (env a) (memory a) (hmem a) (hp a hx)
  · rw [walDb, hcall]
    exact Outcome.failed e

/-- A call that returned did what its transaction computed, in memory too. -/
theorem walDb_after {α : Type} (wal : LmdbWal) {x : Except HeedError α} {f : α → WalCall Unit}
    (env : α → WalEnv) (memory : α → List WalEffect)
    (hf : ∀ a, f a = ⟨.commit (env a) :: memory a, .ok ()⟩)
    (h : (walDb x >>= f).result = .ok ()) :
    ∃ a, x = .ok a ∧
      wal.after (walDb x >>= f) = (memory a).foldl LmdbWal.exec { wal with env := env a } := by
  rcases Call.mapError_bind_cases dbErr x f with ⟨a, hx, hcall⟩ | ⟨e, hcall⟩
  · refine ⟨a, hx, ?_⟩
    rw [walDb, hcall, hf]
    rfl
  · rw [walDb, hcall] at h
    cases h

/-- **Reopening** keeps the databases and takes the last index from the last key. -/
theorem LmdbWal.new_ok {flt : Faults} {env : WalEnv} {wal : LmdbWal}
    (h : LmdbWal.new flt env = .ok wal) :
    wal.env = env ∧ wal.lastIndex = lastIndexOf (env .logDb).last := by
  obtain ⟨t₀, h₀, h⟩ := bind_eq_ok.mp (mapError_eq_ok.mp h)
  obtain ⟨⟨t₁, last⟩, h₁, h⟩ := bind_eq_ok.mp h
  obtain ⟨env', h₂, h⟩ := bind_eq_ok.mp h
  obtain ⟨e₀, -⟩ := Txn.begin_ok h₀
  obtain ⟨e₁, rfl⟩ := Txn.last_ok h₁
  have e₂ := Txn.commit_ok h₂
  cases h
  rw [e₁, e₀] at e₂
  rw [e₀]
  exact ⟨e₂, rfl⟩

theorem LmdbWal.new_noFaults (env : WalEnv) : ∃ wal, LmdbWal.new Faults.none env = .ok wal :=
  ⟨⟨env, lastIndexOf (env .logDb).last⟩, rfl⟩

/-! ## Keys -/

theorem keyPurgeBoundary_valid : ValidKey keyPurgeBoundary := by decide
theorem walKeys_ne : keyHardState ≠ keyPurgeBoundary := by decide

theorem toBeBytes_ne_nil (i : UInt64) : toBeBytes i ≠ [] := by
  intro h
  have hlen := length_toBeBytes i
  rw [h] at hlen
  cases hlen

@[simp] theorem u64FromKey_toBeBytes (i : UInt64) : u64FromKey (toBeBytes i) = some i := by
  simp [u64FromKey]

theorem compare_toBeBytes_lt {i j : UInt64} :
    compare (toBeBytes i) (toBeBytes j) = .lt ↔ i < j := by
  rw [compare_toBeBytes, Nat.compare_eq_lt, UInt64.lt_iff_toNat_lt]

/-- **Bytewise order of the keys is numeric order of the indices.** -/
theorem inRange_toBeBytes (lo hi i : UInt64) :
    inRange (.included (toBeBytes lo)) (.excluded (toBeBytes hi)) (toBeBytes i) = true ↔
      lo ≤ i ∧ i < hi := by
  have hle : (compare (toBeBytes lo) (toBeBytes i)).isLE = true ↔ lo ≤ i := by
    rw [compare_toBeBytes, Nat.isLE_compare, UInt64.le_iff_toNat_le]
  simp only [inRange, Bound.above, Bound.below, Bool.and_eq_true, beq_iff_eq, hle,
    compare_toBeBytes_lt]

theorem inRange_from_toBeBytes (lo i : UInt64) :
    inRange (.included (toBeBytes lo)) .unbounded (toBeBytes i) = true ↔ lo ≤ i := by
  simp only [inRange, Bound.above, Bound.below, Bool.and_true]
  rw [compare_toBeBytes, Nat.isLE_compare, UInt64.le_iff_toNat_le]

theorem toNat_saturatingSucc (x : UInt64) :
    (saturatingSucc x).toNat = min (x.toNat + 1) (2 ^ 64 - 1) := by
  have hlt := x.toNat_lt
  unfold saturatingSucc
  split
  · rename_i hx
    rw [hx]
    rfl
  · rename_i hx
    have hne : x.toNat ≠ 2 ^ 64 - 1 := fun h => hx (UInt64.toNat_inj.mp h)
    rw [UInt64.toNat_add]
    show (x.toNat + 1) % 2 ^ 64 = min (x.toNat + 1) (2 ^ 64 - 1)
    omega

/-- Nothing beyond the cutoff is before the exclusive end that `purge` computes. -/
theorem le_of_lt_saturatingSucc {i c : UInt64} (h : i < saturatingSucc c) : i ≤ c := by
  rw [UInt64.lt_iff_toNat_lt, toNat_saturatingSucc] at h
  rw [UInt64.le_iff_toNat_le]
  omega

/-- Among the indices below `u64::MAX`, everything up to the cutoff is. -/
theorem lt_saturatingSucc {i c : UInt64} (hi : i < 0xffffffffffffffff) :
    i < saturatingSucc c ↔ i ≤ c := by
  constructor
  · exact le_of_lt_saturatingSucc
  · intro h
    have hi : i.toNat < 2 ^ 64 - 1 := hi
    rw [UInt64.le_iff_toNat_le] at h
    rw [UInt64.lt_iff_toNat_lt, toNat_saturatingSucc]
    omega

/-! ## Calls that go through -/

theorem forall_lt_three {p : ℕ → Prop} : (∀ n < 3, p n) ↔ p 0 ∧ p 1 ∧ p 2 := by
  simp only [Nat.forall_lt_succ_right, Nat.not_lt_zero, false_imp_iff, implies_true, true_and,
    and_assoc]

theorem forall_lt_four {p : ℕ → Prop} : (∀ n < 4, p n) ↔ p 0 ∧ p 1 ∧ p 2 ∧ p 3 := by
  rw [Nat.forall_lt_succ_right, forall_lt_three]
  simp only [and_assoc]

/-- `purge` goes through unless one of its four storage operations fails. -/
theorem purge_result {Entry HardState : Type} (fmt : Formats Entry HardState) (flt : Faults)
    (wal : LmdbWal) (c : LogId) :
    (wal.purge fmt flt c).result = .ok () ↔ ∀ n < 4, flt n = none := by
  rw [forall_lt_four]
  cases h₀ : flt 0 <;> cases h₁ : flt 1 <;> cases h₂ : flt 2 <;> cases h₃ : flt 3 <;>
    simp [LmdbWal.purge, walDb, Txn.begin, Txn.tick, Txn.deleteRange, Txn.put, Txn.commit,
      Txn.setDb, h₀, h₁, h₂, h₃, bind, Except.bind, pure, Except.pure, Except.mapError,
      Call.ofExcept, Call.emit, keyPurgeBoundary_valid]

/-- `reset` goes through unless one of its three does. -/
theorem reset_result (flt : Faults) (wal : LmdbWal) :
    (wal.reset flt).result = .ok () ↔ ∀ n < 3, flt n = none := by
  rw [forall_lt_three]
  cases h₀ : flt 0 <;> cases h₁ : flt 1 <;> cases h₂ : flt 2 <;>
    simp [LmdbWal.reset, walDb, Txn.begin, Txn.tick, Txn.clear, Txn.commit, Txn.setDb, h₀, h₁, h₂,
      bind, Except.bind, pure, Except.pure, Except.mapError, Call.ofExcept, Call.emit]

end DLmdb
