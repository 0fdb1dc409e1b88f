import DLmdb.StorageEngine.Wal
import Mathlib.Logic.Function.Basic

/-!
# The log as an indexed map

What `LmdbWal` is for: a finite map from indices to entries, beside a purge boundary
and the last saved hard state. `Represents` relates an environment to such a map;
every write call of `LmdbWal` either fails and changes nothing or does to the
environment what the corresponding operation does to the map.
-/

namespace DLmdb

open Framework Lmdb

/-! ## The map and its operations -/

structure LogModel (Entry HardState : Type) where
  entries : UInt64 → Option Entry
  boundary : Option LogId
  hardState : Option HardState

/-- The write calls of `LmdbWal`. -/
inductive LogOp (Entry HardState : Type) where
  | persistEntries (entries : List Entry)
  | purge (cutoffIndex : LogId)
  | truncate (fromIndex : UInt64)
  | reset
  | saveHardState (state : HardState)

variable {Entry HardState : Type}

namespace LogModel

def empty : LogModel Entry HardState := ⟨fun _ => none, none, none⟩

/-- The map with `e` under its index. -/
def overwrite (index : Entry → UInt64) (f : UInt64 → Option Entry) (e : Entry) :
    UInt64 → Option Entry := Function.update f (index e) (some e)

def apply (index : Entry → UInt64) (m : LogModel Entry HardState) :
    LogOp Entry HardState → LogModel Entry HardState
  | .persistEntries es => { m with entries := es.foldl (overwrite index) m.entries }
  | .purge c =>
      { m with
        entries := fun i => if i ≤ c.index then none else m.entries i
        boundary := some c }
  | .truncate f => { m with entries := fun i => if f ≤ i then none else m.entries i }
  | .reset => { m with entries := fun _ => none }
  | .saveHardState s => { m with hardState := some s }

/-- What the code of `purge` does: the end of its range is exclusive. -/
def purgeBefore (m : LogModel Entry HardState) (stop : UInt64) (c : LogId) :
    LogModel Entry HardState :=
  { m with entries := fun i => if i < stop then none else m.entries i, boundary := some c }

/-- What each call does, with indices up to `u64::MAX`. -/
def perform (index : Entry → UInt64) (m : LogModel Entry HardState) :
    LogOp Entry HardState → LogModel Entry HardState
  | .purge c => m.purgeBefore (saturatingSucc c.index) c
  | op => m.apply index op

/-- No entry at `u64::MAX`. -/
def Below (m : LogModel Entry HardState) : Prop :=
  ∀ i e, m.entries i = some e → i < 0xffffffffffffffff

/-- What a purge leaves was there, and beyond its range. -/
theorem of_purgeBefore {m : LogModel Entry HardState} {stop : UInt64} {c : LogId} {i : UInt64}
    {e : Entry} (h : (m.purgeBefore stop c).entries i = some e) :
    stop ≤ i ∧ m.entries i = some e := by
  have h : (if i < stop then none else m.entries i) = some e := h
  split at h
  · cases h
  · rename_i hstop
    exact ⟨UInt64.not_lt.mp hstop, h⟩

/-- Below `u64::MAX` the saturated exclusive end is the cutoff, inclusive. -/
theorem Below.purgeBefore_eq {m : LogModel Entry HardState} (h : m.Below)
    (index : Entry → UInt64) (c : LogId) :
    m.purgeBefore (saturatingSucc c.index) c = m.apply index (.purge c) := by
  have hentries : (fun i => if i < saturatingSucc c.index then none else m.entries i) =
      fun i => if i ≤ c.index then none else m.entries i := by
    ext i : 1
    cases hi : m.entries i with
    | none => rw [ite_self, ite_self]
    | some e => exact if_congr (lt_saturatingSucc (h i e hi)) rfl rfl
  rw [purgeBefore, hentries]
  rfl

theorem Below.perform_eq {m : LogModel Entry HardState} (h : m.Below) (index : Entry → UInt64)
    (op : LogOp Entry HardState) : m.perform index op = m.apply index op := by
  cases op with
  | purge c => exact h.purgeBefore_eq index c
  | _ => rfl

end LogModel

variable (fmt : Formats Entry HardState)

/-- The call that carries the operation out. -/
def LogOp.call (flt : Faults) (wal : LmdbWal) : LogOp Entry HardState → WalCall Unit
  | .persistEntries es => wal.persistEntries fmt flt es
  | .purge c => wal.purge fmt flt c
  | .truncate f => wal.truncate flt f
  | .reset => wal.reset flt
  | .saveHardState s => wal.saveHardState fmt flt s

/-- Indices stay below `u64::MAX`. -/
def LogOp.Valid : LogOp Entry HardState → Prop
  | .persistEntries es => ∀ e ∈ es, fmt.index e < 0xffffffffffffffff
  | _ => True

/-! ## The rows of a log -/

/-- `db` holds exactly the entries of `f`, each under the key of its index. -/
structure LogRows (db : Database) (f : UInt64 → Option Entry) : Prop where
  row : ∀ i, db.get (toBeBytes i) = (f i).map fmt.entry.encode
  width : ∀ k v, db.get k = some v → k.length = 8
  indexed : ∀ i e, f i = some e → fmt.index e = i

theorem Prost.encode_inj {α : Type} (p : Prost α) {a b : α} (h : p.encode a = p.encode b) :
    a = b := by
  have hdecode := p.decode_encode a
  rw [h, p.decode_encode b] at hdecode
  exact (Except.ok.inj hdecode).symm

namespace LogRows

variable {fmt} {db : Database} {f : UInt64 → Option Entry}

theorem empty : LogRows fmt ∅ (fun _ => none) where
  row i := Database.get_empty _
  width k v h := by rw [Database.get_empty] at h; cases h
  indexed i e h := by cases h

theorem insert (h : LogRows fmt db f) {e : Entry} (hk : ValidKey (toBeBytes (fmt.index e))) :
    LogRows fmt (db.insert (toBeBytes (fmt.index e)) (fmt.entry.encode e) hk)
      (LogModel.overwrite fmt.index f e) where
  row i := by
    rw [Database.get_insert, LogModel.overwrite]
    by_cases hi : i = fmt.index e
    · subst hi
      rw [if_pos rfl, Function.update_self]
      rfl
    · rw [if_neg (fun hkey => hi (toBeBytes_inj.mp hkey)), Function.update_of_ne hi]
      exact h.row i
  width k v hget := by
    rw [Database.get_insert] at hget
    split at hget
    · rename_i hkey
      rw [hkey, length_toBeBytes]
    · exact h.width k v hget
  indexed i e' hi := by
    by_cases hie : i = fmt.index e
    · subst hie
      rw [LogModel.overwrite, Function.update_self] at hi
      rw [← Option.some.inj hi]
    · rw [LogModel.overwrite, Function.update_of_ne hie] at hi
      exact h.indexed i e' hi

/-- Deleting a range of keys deletes the indices it holds. -/
theorem eraseWhere (h : LogRows fmt db f) {p : Bytes → Bool} {q : UInt64 → Prop}
    [DecidablePred q] (hpq : ∀ i, p (toBeBytes i) = true ↔ q i) :
    LogRows fmt (db.eraseWhere p) (fun i => if q i then none else f i) where
  row i := by
    rw [Database.get_eraseWhere, h.row i]
    by_cases hq : q i
    · rw [if_pos ((hpq i).mpr hq), if_pos hq]
      rfl
    · rw [if_neg (fun hp => hq ((hpq i).mp hp)), if_neg hq]
  width k v hget := by
    rw [Database.get_eraseWhere] at hget
    split at hget
    · cases hget
    · exact h.width k v hget
  indexed i e hi := by
    split at hi
    · cases hi
    · exact h.indexed i e hi

/-- **A stored pair is the row of an entry.** -/
theorem of_get (h : LogRows fmt db f) {k v : Bytes} (hget : db.get k = some v) :
    ∃ e, f (fmt.index e) = some e ∧ k = toBeBytes (fmt.index e) ∧ v = fmt.entry.encode e := by
  have hkey : toBeBytes (fromBeBytes k) = k := toBeBytes_fromBeBytes (h.width k v hget)
  have hrow := h.row (fromBeBytes k)
  rw [hkey, hget] at hrow
  cases hf : f (fromBeBytes k) with
  | none =>
      rw [hf] at hrow
      cases hrow
  | some e =>
      rw [hf] at hrow
      have hidx := h.indexed _ e hf
      refine ⟨e, ?_, ?_, Option.some.inj hrow⟩
      · rw [hidx]
        exact hf
      · rw [hidx, hkey]

theorem get_iff (h : LogRows fmt db f) (e : Entry) :
    db.get (toBeBytes (fmt.index e)) = some (fmt.entry.encode e) ↔ f (fmt.index e) = some e := by
  constructor
  · intro hget
    obtain ⟨e', hf, hkey, hval⟩ := h.of_get hget
    rw [fmt.entry.encode_inj hval]
    exact hf
  · intro hf
    rw [h.row, hf]
    rfl

/-- The index of the last key bounds the indices. -/
theorem le_lastIndexOf (h : LogRows fmt db f) {i : UInt64} {e : Entry} (hf : f i = some e) :
    i ≤ lastIndexOf db.last := by
  have hrow : db.get (toBeBytes i) = some (fmt.entry.encode e) := by
    rw [h.row, hf]
    rfl
  cases hlast : db.last with
  | none =>
      rw [Database.get_of_last_eq_none hlast] at hrow
      cases hrow
  | some x =>
      obtain ⟨k, v⟩ := x
      obtain ⟨hget, hmax⟩ := Database.get_of_last_eq_some hlast
      obtain ⟨e', -, hkey, -⟩ := h.of_get hget
      have hidx : lastIndexOf (some (k, v)) = fmt.index e' := by
        rw [hkey]
        simp [lastIndexOf]
      rw [hidx]
      rcases hmax _ _ hrow with hsame | hlt
      · rw [hkey, toBeBytes_inj] at hsame
        exact UInt64.le_of_eq hsame
      · rw [hkey, compare_toBeBytes_lt] at hlt
        exact UInt64.le_of_lt hlt

/-- It is the index of an entry, or 0 for an empty log. -/
theorem lastIndexOf_cases (h : LogRows fmt db f) :
    lastIndexOf db.last = 0 ∨ ∃ e, f (lastIndexOf db.last) = some e := by
  cases hlast : db.last with
  | none => exact Or.inl rfl
  | some x =>
      obtain ⟨k, v⟩ := x
      obtain ⟨e, hf, hkey, -⟩ := h.of_get (Database.get_of_last_eq_some hlast).1
      have hidx : lastIndexOf (some (k, v)) = fmt.index e := by
        rw [hkey]
        simp [lastIndexOf]
      rw [hidx]
      exact Or.inr ⟨e, hf⟩

end LogRows

/-! ## Environments -/

/-- The stored hard state is the serialisation of the last one saved. -/
def SavedState : Option HardState → Option Bytes → Prop
  | none, x => x = none
  | some s, x => ∃ bytes, fmt.hardState.serialize s = .ok bytes ∧ x = some bytes

/-- **The environment holds the map.** -/
structure Represents (env : WalEnv) (m : LogModel Entry HardState) : Prop where
  log : LogRows fmt (env .logDb) m.entries
  boundary : (env .metaDb).get keyPurgeBoundary = m.boundary.map fmt.logId.encode
  hardState : SavedState fmt m.hardState ((env .metaDb).get keyHardState)

/-- The directory before anything was written. -/
def emptyWalEnv : WalEnv := fun _ => ∅

/-- A log opened on an empty directory. -/
def freshWal : LmdbWal := ⟨emptyWalEnv, 0⟩

theorem new_emptyWalEnv : LmdbWal.new Faults.none emptyWalEnv = .ok freshWal := rfl

theorem empty_represents : Represents fmt emptyWalEnv LogModel.empty where
  log := LogRows.empty
  boundary := Database.get_empty _
  hardState := Database.get_empty _

/-! ## The write calls -/

variable {fmt}

/-- The loop of `persist_entries`, from any transaction. -/
theorem putEntries_rows {es : List Entry} {t t' : Txn WalDb} {n n' : UInt64} {f : UInt64 → Option Entry}
    (h : LogRows fmt (t.env .logDb) f) (hrun : LmdbWal.putEntries fmt es t n = .ok (t', n')) :
    LogRows fmt (t'.env .logDb) (es.foldl (LogModel.overwrite fmt.index) f) ∧
      t'.env .metaDb = t.env .metaDb := by
  induction es generalizing t n f with
  | nil =>
      cases hrun
      exact ⟨h, rfl⟩
  | cons e es ih =>
      obtain ⟨t₁, h₁, hrun⟩ := bind_eq_ok.mp hrun
      obtain ⟨hk, c₁⟩ := Txn.put_ok h₁
      have hrows : LogRows fmt (t₁.env .logDb) (LogModel.overwrite fmt.index f e) := by
        rw [c₁.env, Function.update_self]
        exact h.insert hk
      obtain ⟨hrest, hmeta⟩ := ih hrows hrun
      refine ⟨hrest, ?_⟩
      rw [hmeta, c₁.env, Function.update_of_ne (by decide)]

namespace Represents

variable {wal : LmdbWal} {m : LogModel Entry HardState}

theorem persistEntries (h : Represents fmt wal.env m) (flt : Faults) (es : List Entry) :
    Outcome wal (fun env => Represents fmt env (m.apply fmt.index (.persistEntries es)))
      (wal.persistEntries fmt flt es) := by
  cases es with
  | nil => exact Outcome.idle h
  | cons e es =>
      refine walDb_outcome wal _ Prod.fst (fun a => [.fetchMaxLastIndex a.2]) _
        (fun a => rfl) ?_ ?_
      · intro a x hx
        rw [List.mem_singleton.mp hx]
        trivial
      · intro a hx
        obtain ⟨t₀, h₀, hx⟩ := bind_eq_ok.mp hx
        obtain ⟨⟨t₁, n₁⟩, h₁, hx⟩ := bind_eq_ok.mp hx
        obtain ⟨env, h₂, hx⟩ := bind_eq_ok.mp hx
        obtain ⟨e₀, -⟩ := Txn.begin_ok h₀
        have hrows : LogRows fmt (t₀.env .logDb) m.entries := by rw [e₀]; exact h.log
        obtain ⟨hlog, hmeta⟩ := putEntries_rows hrows h₁
        rw [e₀] at hmeta
        cases hx
        show Represents fmt env (m.apply fmt.index (.persistEntries (e :: es)))
        rw [Txn.commit_ok h₂]
        refine ⟨hlog, ?_, ?_⟩
        · rw [hmeta]
          exact h.boundary
        · rw [hmeta]
          exact h.hardState

theorem purge (h : Represents fmt wal.env m) (flt : Faults) (c : LogId) :
    Outcome wal (fun env => Represents fmt env (m.purgeBefore (saturatingSucc c.index) c))
      (wal.purge fmt flt c) := by
  refine walDb_outcome wal _ id (fun _ => []) _ (fun a => rfl) ?_ ?_
  · rintro a x ⟨⟩
  · intro env hx
    obtain ⟨t₀, h₀, hx⟩ := bind_eq_ok.mp hx
    obtain ⟨t₁, h₁, hx⟩ := bind_eq_ok.mp hx
    obtain ⟨t₂, h₂, hx⟩ := bind_eq_ok.mp hx
    obtain ⟨e₀, -⟩ := Txn.begin_ok h₀
    have c₁ := Txn.deleteRange_ok h₁
    obtain ⟨_, c₂⟩ := Txn.put_ok h₂
    have hlogDb : t₂.env .logDb = (wal.env .logDb).eraseWhere
        (inRange (.included (toBeBytes 0)) (.excluded (toBeBytes (saturatingSucc c.index)))) := by
      rw [c₂.env, Function.update_of_ne (by decide), c₁.env, Function.update_self, e₀]
    have hmetaDb : ∀ k, (t₂.env .metaDb).get k =
        if k = keyPurgeBoundary then some (fmt.logId.encode c) else (wal.env .metaDb).get k := by
      intro k
      rw [c₂.env, Function.update_self, Database.get_insert, c₁.env,
        Function.update_of_ne (by decide), e₀]
    show Represents fmt env (m.purgeBefore (saturatingSucc c.index) c)
    rw [Txn.commit_ok hx]
    -- the rows, the boundary, and the hard state under its own key
    refine ⟨?_, ?_, ?_⟩
    · rw [hlogDb]
      refine h.log.eraseWhere (fun i => ?_)
      rw [inRange_toBeBytes]
      exact and_iff_right (UInt64.le_iff_toNat_le.mpr (Nat.zero_le _))
    · rw [hmetaDb, if_pos rfl]
      rfl
    · rw [hmetaDb, if_neg walKeys_ne]
      exact h.hardState

theorem truncate (h : Represents fmt wal.env m) (flt : Faults) (f : UInt64) :
    Outcome wal (fun env => Represents fmt env (m.apply fmt.index (.truncate f)))
      (wal.truncate flt f) := by
  refine walDb_outcome wal _ Prod.fst (fun a => [.storeLastIndex a.2]) _ (fun a => rfl) ?_ ?_
  · intro a x hx
    rw [List.mem_singleton.mp hx]
    trivial
  · intro a hx
    obtain ⟨t₀, h₀, hx⟩ := bind_eq_ok.mp hx
    obtain ⟨t₁, h₁, hx⟩ := bind_eq_ok.mp hx
    obtain ⟨⟨t₂, last⟩, h₂, hx⟩ := bind_eq_ok.mp hx
    obtain ⟨env, h₃, hx⟩ := bind_eq_ok.mp hx
    obtain ⟨e₀, -⟩ := Txn.begin_ok h₀
    have c₁ := Txn.deleteRange_ok h₁
    obtain ⟨e₂, -⟩ := Txn.last_ok h₂
    cases hx
    show Represents fmt env (m.apply fmt.index (.truncate f))
    rw [Txn.commit_ok h₃, e₂, c₁.env, e₀]
    refine ⟨?_, h.boundary, h.hardState⟩
    rw [Function.update_self]
    exact h.log.eraseWhere (inRange_from_toBeBytes f)

theorem reset (h : Represents fmt wal.env m) (flt : Faults) :
    Outcome wal (fun env => Represents fmt env (m.apply fmt.index .reset)) (wal.reset flt) := by
  refine walDb_outcome wal _ id (fun _ => [.storeLastIndex 0]) _ (fun a => rfl) ?_ ?_
  · intro a x hx
    rw [List.mem_singleton.mp hx]
    trivial
  · intro env hx
    obtain ⟨t₀, h₀, hx⟩ := bind_eq_ok.mp hx
    obtain ⟨t₁, h₁, hx⟩ := bind_eq_ok.mp hx
    obtain ⟨e₀, -⟩ := Txn.begin_ok h₀
    have c₁ := Txn.clear_ok h₁
    show Represents fmt env (m.apply fmt.index .reset)
    rw [Txn.commit_ok hx, c₁.env, e₀]
    refine ⟨?_, h.boundary, h.hardState⟩
    rw [Function.update_self]
    exact LogRows.empty

theorem saveHardState (h : Represents fmt wal.env m) (flt : Faults) (s : HardState) :
    Outcome wal (fun env => Represents fmt env (m.apply fmt.index (.saveHardState s)))
      (wal.saveHardState fmt flt s) := by
  cases hs : fmt.hardState.serialize s with
  | error e =>
      have hcall : wal.saveHardState fmt flt s = ⟨[], .error (.bincodeError e)⟩ := by
        rw [LmdbWal.saveHardState, hs]
        rfl
      rw [hcall]
      exact Outcome.failed _
  | ok bytes =>
      rw [LmdbWal.saveHardState, hs]
      refine walDb_outcome wal _ id (fun _ => []) _ (fun a => rfl) ?_ ?_
      · rintro a x ⟨⟩
      · intro env hx
        obtain ⟨t₀, h₀, hx⟩ := bind_eq_ok.mp hx
        obtain ⟨t₁, h₁, hx⟩ := bind_eq_ok.mp hx
        obtain ⟨e₀, -⟩ := Txn.begin_ok h₀
        obtain ⟨_, c₁⟩ := Txn.put_ok h₁
        show Represents fmt env (m.apply fmt.index (.saveHardState s))
        rw [Txn.commit_ok hx, c₁.env, e₀]
        refine ⟨h.log, ?_, bytes, hs, ?_⟩
        · rw [Function.update_self, Database.get_insert, if_neg walKeys_ne.symm]
          exact h.boundary
        · rw [Function.update_self, Database.get_insert, if_pos rfl]

/-- **Every write call** does to the environment what its operation does to the map, or
fails and does nothing. -/
theorem perform (h : Represents fmt wal.env m) (flt : Faults) (op : LogOp Entry HardState) :
    Outcome wal (fun env => Represents fmt env (m.perform fmt.index op)) (op.call fmt flt wal) := by
  cases op with
  | persistEntries es => exact h.persistEntries flt es
  | purge c => exact h.purge flt c
  | truncate f => exact h.truncate flt f
  | reset => exact h.reset flt
  | saveHardState s => exact h.saveHardState flt s

/-- Below `u64::MAX` a purge includes its cutoff. -/
theorem call (h : Represents fmt wal.env m) (hm : m.Below) (flt : Faults)
    (op : LogOp Entry HardState) :
    Outcome wal (fun env => Represents fmt env (m.apply fmt.index op)) (op.call fmt flt wal) := by
  rw [← hm.perform_eq fmt.index op]
  exact h.perform flt op

end Represents

/-- Persisting entries with indices below `u64::MAX` keeps the map below it. -/
theorem LogModel.Below.foldl_overwrite {index : Entry → UInt64} {es : List Entry}
    (hes : ∀ e ∈ es, index e < 0xffffffffffffffff) {f : UInt64 → Option Entry}
    (hf : ∀ i e, f i = some e → i < 0xffffffffffffffff) {i : UInt64} {e : Entry}
    (hi : es.foldl (LogModel.overwrite index) f i = some e) : i < 0xffffffffffffffff := by
  induction es generalizing f with
  | nil => exact hf i e hi
  | cons e' es ih =>
      refine ih (fun x hx => hes x (List.mem_cons_of_mem _ hx)) ?_ hi
      intro j x hj
      by_cases hje : j = index e'
      · rw [hje]
        exact hes e' List.mem_cons_self
      · rw [LogModel.overwrite, Function.update_of_ne hje] at hj
        exact hf j x hj

theorem LogModel.Below.apply {m : LogModel Entry HardState} (h : m.Below)
    {op : LogOp Entry HardState} (hop : op.Valid fmt) : (m.apply fmt.index op).Below := by
  intro i e hi
  cases op with
  | persistEntries es => exact LogModel.Below.foldl_overwrite hop h hi
  | purge c =>
      have hi : (if i ≤ c.index then none else m.entries i) = some e := hi
      split at hi
      · cases hi
      · exact h i e hi
  | truncate f =>
      have hi : (if f ≤ i then none else m.entries i) = some e := hi
      split at hi
      · cases hi
      · exact h i e hi
  | reset => cases hi
  | saveHardState s => exact h i e hi

end DLmdb
