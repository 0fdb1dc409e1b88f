import DLmdb.Framework.Calls
import DLmdb.Lmdb.Database
import Mathlib.Logic.Function.Basic

/-!
# LMDB transactions

A transaction works on its own view of an environment and publishes it at commit;
dropping it publishes nothing. Any storage operation may fail: `Faults` says which
operation of the call does, and with what error, and the theorems quantify over
it. Apart from that, `put` refuses a key LMDB cannot store and `get`, `delete` and
a range start refuse the empty key.
-/

namespace DLmdb.Lmdb

open Framework

/-- `heed::Error`. -/
inductive HeedError where
  | badValSize
  | other (text : String)
deriving DecidableEq

/-- `e.to_string()`. -/
def HeedError.text : HeedError → String
  | .badValSize =>
      "MDB_BAD_VALSIZE: Unsupported size of key/DB name/data, or wrong DUPFIXED size"
  | .other text => text

/-- The error, if any, of the `n`-th storage operation of a call: a full map, a
disk that fails, a commit that does not go through. -/
abbrev Faults := ℕ → Option HeedError

def Faults.none : Faults := fun _ => Option.none

/-- The faults of what follows the first `n` operations. -/
def Faults.skip (flt : Faults) (n : ℕ) : Faults := fun i => flt (n + i)

@[simp] theorem Faults.none_apply (n : ℕ) : Faults.none n = Option.none := rfl
@[simp] theorem Faults.skip_none (n : ℕ) : Faults.none.skip n = Faults.none := rfl

/-- A transaction over an environment whose databases are named by `ι`. -/
structure Txn (ι : Type) where
  faults : Faults
  ops : ℕ
  env : ι → Database

namespace Txn

variable {ι : Type}

/-- One storage operation: it fails if the environment says so. -/
def tick (t : Txn ι) : Except HeedError (Txn ι) :=
  match t.faults t.ops with
  | some e => .error e
  | none => .ok { t with ops := t.ops + 1 }

/-- `env.write_txn()` and `env.read_txn()`. -/
def begin (flt : Faults) (env : ι → Database) : Except HeedError (Txn ι) :=
  tick ⟨flt, 0, env⟩

/-- `wtxn.commit()`: what the environment holds from then on. -/
def commit (t : Txn ι) : Except HeedError (ι → Database) := do
  let t ← t.tick
  return t.env

theorem tick_ok {t t' : Txn ι} (h : t.tick = .ok t') :
    t' = { t with ops := t.ops + 1 } := by
  unfold tick at h
  split at h
  · cases h
  · exact (Except.ok.inj h).symm

theorem begin_ok {flt : Faults} {env : ι → Database} {t : Txn ι}
    (h : begin flt env = .ok t) : t.env = env ∧ t.faults = flt := by
  rw [tick_ok h]
  exact ⟨rfl, rfl⟩

theorem commit_ok {t : Txn ι} {env : ι → Database} (h : t.commit = .ok env) : env = t.env := by
  obtain ⟨t₁, h₁, h₂⟩ := bind_eq_ok.mp h
  rw [tick_ok h₁] at h₂
  exact (Except.ok.inj h₂).symm

theorem tick_noFaults {t : Txn ι} (ht : t.faults = Faults.none) :
    t.tick = .ok { t with ops := t.ops + 1 } := by
  simp [tick, ht]

theorem begin_noFaults (env : ι → Database) :
    begin Faults.none env = .ok ⟨Faults.none, 1, env⟩ :=
  tick_noFaults rfl

theorem commit_noFaults {t : Txn ι} (ht : t.faults = Faults.none) : t.commit = .ok t.env := by
  simp [commit, tick_noFaults ht, bind, Except.bind, pure, Except.pure]

variable [DecidableEq ι]

/-- The transaction with database `d` replaced. -/
def setDb (t : Txn ι) (d : ι) (db : Database) : Txn ι :=
  { t with env := Function.update t.env d db }

def get (t : Txn ι) (d : ι) (k : Bytes) : Except HeedError (Txn ι × Option Bytes) := do
  let t ← t.tick
  if k = [] then .error .badValSize else .ok (t, (t.env d).get k)

def put (t : Txn ι) (d : ι) (k v : Bytes) : Except HeedError (Txn ι) := do
  let t ← t.tick
  if hk : ValidKey k then .ok (t.setDb d ((t.env d).insert k v hk)) else .error .badValSize

def delete (t : Txn ι) (d : ι) (k : Bytes) : Except HeedError (Txn ι) := do
  let t ← t.tick
  if k = [] then .error .badValSize else .ok (t.setDb d ((t.env d).erase k))

def clear (t : Txn ι) (d : ι) : Except HeedError (Txn ι) := do
  let t ← t.tick
  return t.setDb d ∅

def deleteRange (t : Txn ι) (d : ι) (lo hi : Bound) : Except HeedError (Txn ι) := do
  let t ← t.tick
  return t.setDb d ((t.env d).eraseWhere (inRange lo hi))

def last (t : Txn ι) (d : ι) : Except HeedError (Txn ι × Option (Bytes × Bytes)) := do
  let t ← t.tick
  return (t, (t.env d).last)

/-- `db.len(&txn)`. -/
def len (t : Txn ι) (d : ι) : Except HeedError (Txn ι × ℕ) := do
  let t ← t.tick
  return (t, (t.env d).toList.length)

/-- `db.range(&txn, &(lo, hi))`: the pairs its cursor will meet. The cursor is placed
with the start key, which may not be empty. -/
def range (t : Txn ι) (d : ι) (lo hi : Bound) :
    Except HeedError (Txn ι × List (Bytes × Bytes)) := do
  let t ← t.tick
  if lo = .included [] ∨ lo = .excluded [] then .error .badValSize
  else .ok (t, (t.env d).range lo hi)

/-! ## What each operation does when it succeeds -/

/-- `t'` is `t` with database `d` replaced, as far as contents go. -/
structure Changes (t t' : Txn ι) (d : ι) (db : Database) : Prop where
  env : t'.env = Function.update t.env d db
  faults : t'.faults = t.faults

omit [DecidableEq ι] in
theorem get_ok {t t' : Txn ι} {d : ι} {k : Bytes} {x : Option Bytes}
    (h : t.get d k = .ok (t', x)) :
    t'.env = t.env ∧ t'.faults = t.faults ∧ k ≠ [] ∧ x = (t.env d).get k := by
  obtain ⟨t₁, h₁, h₂⟩ := bind_eq_ok.mp h
  rw [tick_ok h₁] at h₂
  split at h₂
  · cases h₂
  · rename_i hk
    cases h₂
    exact ⟨rfl, rfl, hk, rfl⟩

theorem put_ok {t t' : Txn ι} {d : ι} {k v : Bytes} (h : t.put d k v = .ok t') :
    ∃ hk : ValidKey k, t.Changes t' d ((t.env d).insert k v hk) := by
  obtain ⟨t₁, h₁, h₂⟩ := bind_eq_ok.mp h
  rw [tick_ok h₁] at h₂
  split at h₂
  · rename_i hk
    cases h₂
    exact ⟨hk, rfl, rfl⟩
  · cases h₂

theorem delete_ok {t t' : Txn ι} {d : ι} {k : Bytes} (h : t.delete d k = .ok t') :
    k ≠ [] ∧ t.Changes t' d ((t.env d).erase k) := by
  obtain ⟨t₁, h₁, h₂⟩ := bind_eq_ok.mp h
  rw [tick_ok h₁] at h₂
  split at h₂
  · cases h₂
  · rename_i hk
    cases h₂
    exact ⟨hk, rfl, rfl⟩

theorem clear_ok {t t' : Txn ι} {d : ι} (h : t.clear d = .ok t') : t.Changes t' d ∅ := by
  obtain ⟨t₁, h₁, h₂⟩ := bind_eq_ok.mp h
  rw [tick_ok h₁] at h₂
  cases h₂
  exact ⟨rfl, rfl⟩

theorem deleteRange_ok {t t' : Txn ι} {d : ι} {lo hi : Bound}
    (h : t.deleteRange d lo hi = .ok t') :
    t.Changes t' d ((t.env d).eraseWhere (inRange lo hi)) := by
  obtain ⟨t₁, h₁, h₂⟩ := bind_eq_ok.mp h
  rw [tick_ok h₁] at h₂
  cases h₂
  exact ⟨rfl, rfl⟩

omit [DecidableEq ι] in
theorem last_ok {t t' : Txn ι} {d : ι} {x : Option (Bytes × Bytes)}
    (h : t.last d = .ok (t', x)) : t'.env = t.env ∧ x = (t.env d).last := by
  obtain ⟨t₁, h₁, h₂⟩ := bind_eq_ok.mp h
  rw [tick_ok h₁] at h₂
  cases h₂
  exact ⟨rfl, rfl⟩

omit [DecidableEq ι] in
theorem range_ok {t t' : Txn ι} {d : ι} {lo hi : Bound} {items : List (Bytes × Bytes)}
    (h : t.range d lo hi = .ok (t', items)) :
    t'.env = t.env ∧ t'.faults = t.faults ∧ items = (t.env d).range lo hi := by
  obtain ⟨t₁, h₁, h₂⟩ := bind_eq_ok.mp h
  rw [tick_ok h₁] at h₂
  split at h₂
  · cases h₂
  · cases h₂
    exact ⟨rfl, rfl, rfl⟩

/-! ## When an operation goes through -/

omit [DecidableEq ι] in
theorem tick_bind_eq_ok {α : Type} {t : Txn ι} {f : Txn ι → Except HeedError α} {a : α} :
    (t.tick >>= f) = .ok a ↔
      t.faults t.ops = Option.none ∧ f { t with ops := t.ops + 1 } = .ok a := by
  unfold tick
  cases hf : t.faults t.ops <;> simp [bind, Except.bind]

omit [DecidableEq ι] in
theorem get_eq_ok_iff {t t' : Txn ι} {d : ι} {k : Bytes} {x : Option Bytes} :
    t.get d k = .ok (t', x) ↔ (t.faults t.ops = Option.none ∧ k ≠ []) ∧
      t' = { t with ops := t.ops + 1 } ∧ x = (t.env d).get k := by
  rw [get, tick_bind_eq_ok]
  by_cases hk : k = []
  · simp [hk]
  · simp [hk, eq_comm]

/-- A `put` goes through when nothing is injected and LMDB takes the key. -/
theorem put_goes_iff {t : Txn ι} {d : ι} {k v : Bytes} :
    (∃ t', t.put d k v = .ok t') ↔ t.faults t.ops = Option.none ∧ ValidKey k := by
  simp only [put, tick_bind_eq_ok]
  by_cases hk : ValidKey k
  · simp [hk]
  · simp [hk]

theorem delete_goes_iff {t : Txn ι} {d : ι} {k : Bytes} :
    (∃ t', t.delete d k = .ok t') ↔ t.faults t.ops = Option.none ∧ k ≠ [] := by
  simp only [delete, tick_bind_eq_ok]
  by_cases hk : k = []
  · simp [hk]
  · simp [hk]

theorem put_ops {t t' : Txn ι} {d : ι} {k v : Bytes} (h : t.put d k v = .ok t') :
    t'.ops = t.ops + 1 := by
  obtain ⟨-, h⟩ := tick_bind_eq_ok.mp h
  split at h
  · cases h
    rfl
  · cases h

theorem delete_ops {t t' : Txn ι} {d : ι} {k : Bytes} (h : t.delete d k = .ok t') :
    t'.ops = t.ops + 1 := by
  obtain ⟨-, h⟩ := tick_bind_eq_ok.mp h
  split at h
  · cases h
  · cases h
    rfl

/-! ## What fails is injected, or a key LMDB refuses -/

omit [DecidableEq ι] in
theorem tick_error {t : Txn ι} {e : HeedError} (h : t.tick = .error e) :
    ∃ n, t.faults n = some e := by
  unfold tick at h
  split at h
  · rename_i hf
    cases h
    exact ⟨t.ops, hf⟩
  · cases h

omit [DecidableEq ι] in
theorem get_error {t : Txn ι} {d : ι} {k : Bytes} {e : HeedError} (hk : k ≠ [])
    (h : t.get d k = .error e) : ∃ n, t.faults n = some e := by
  rcases bind_eq_error.mp h with h₁ | ⟨t₁, -, h₂⟩
  · exact tick_error h₁
  · rw [if_neg hk] at h₂
    cases h₂

omit [DecidableEq ι] in
theorem range_error {t : Txn ι} {d : ι} {k : Bytes} {hi : Bound} {e : HeedError} (hk : k ≠ [])
    (h : t.range d (.included k) hi = .error e) : ∃ n, t.faults n = some e := by
  rcases bind_eq_error.mp h with h₁ | ⟨t₁, -, h₂⟩
  · exact tick_error h₁
  · have hne : ¬ (Bound.included k = .included [] ∨ Bound.included k = .excluded []) := by
      rintro (h | h)
      · exact hk (Bound.included.inj h)
      · cases h
    rw [if_neg hne] at h₂
    cases h₂


/-! ## When nothing is injected -/

omit [DecidableEq ι] in
theorem get_noFaults {t : Txn ι} {d : ι} {k : Bytes} (ht : t.faults = Faults.none)
    (hk : k ≠ []) : t.get d k = .ok ({ t with ops := t.ops + 1 }, (t.env d).get k) := by
  simp [get, tick_noFaults ht, bind, Except.bind, hk]

theorem put_noFaults {t : Txn ι} {d : ι} {k v : Bytes} (ht : t.faults = Faults.none)
    (hk : ValidKey k) : ∃ t', t.put d k v = .ok t' ∧ t'.faults = Faults.none := by
  simp [put, tick_noFaults ht, bind, Except.bind, hk, setDb, ht]

theorem delete_noFaults {t : Txn ι} {d : ι} {k : Bytes} (ht : t.faults = Faults.none)
    (hk : k ≠ []) : ∃ t', t.delete d k = .ok t' ∧ t'.faults = Faults.none := by
  simp [delete, tick_noFaults ht, bind, Except.bind, hk, setDb, ht]

end Txn

end DLmdb.Lmdb
