import Mathlib.Tactic.Common
import Mathlib.Data.List.Basic

/-!
# LMDB databases

A named database of an LMDB environment: a finite map from byte-string keys to
byte-string values, iterated in the bytewise order of its keys. LMDB refuses keys
that are empty or longer than `MDB_MAXKEYSIZE`, so a database never holds one;
that is a field of the structure and not a hypothesis of the theorems.
-/

namespace DLmdb.Lmdb

abbrev Bytes := List UInt8

/-- `MDB_MAXKEYSIZE` of a default LMDB build. -/
def maxKeySize : ℕ := 511

def ValidKey (k : Bytes) : Prop := 0 < k.length ∧ k.length ≤ maxKeySize

instance (k : Bytes) : Decidable (ValidKey k) := by unfold ValidKey; infer_instance

/-- `Database<Bytes, Bytes>`. -/
structure Database where
  entries : Std.ExtTreeMap Bytes Bytes compare
  valid : ∀ k ∈ entries, ValidKey k

namespace Database

/-- The value stored under `k`. -/
def get (db : Database) (k : Bytes) : Option Bytes := db.entries[k]?

instance : EmptyCollection Database := ⟨⟨∅, by simp⟩⟩

def insert (db : Database) (k v : Bytes) (hk : ValidKey k) : Database where
  entries := db.entries.insert k v
  valid := by
    intro k' hk'
    rcases Std.ExtTreeMap.mem_insert.mp hk' with h | h
    · exact Std.LawfulEqCmp.eq_of_compare h ▸ hk
    · exact db.valid k' h

def erase (db : Database) (k : Bytes) : Database where
  entries := db.entries.erase k
  valid := fun k' hk' => db.valid k' (Std.ExtTreeMap.mem_of_mem_erase hk')

/-- The database without the keys that satisfy `p`. -/
def eraseWhere (db : Database) (p : Bytes → Bool) : Database where
  entries := db.entries.filter (fun k _ => !p k)
  valid := fun k' hk' => db.valid k' (Std.ExtTreeMap.mem_of_mem_filter hk')

/-- The stored pairs, in key order: what a cursor walks over. -/
def toList (db : Database) : List (Bytes × Bytes) := db.entries.toList

/-- The pair with the largest key. -/
def last (db : Database) : Option (Bytes × Bytes) := db.toList.getLast?

theorem ext_get {a b : Database} (h : ∀ k, a.get k = b.get k) : a = b := by
  have he : a.entries = b.entries := Std.ExtTreeMap.ext_getElem? h
  cases a
  cases b
  subst he
  rfl

@[simp] theorem get_empty (k : Bytes) : (∅ : Database).get k = none := by
  show (∅ : Std.ExtTreeMap Bytes Bytes compare)[k]? = none
  simp

theorem get_insert (db : Database) (k v k' : Bytes) (hk : ValidKey k) :
    (db.insert k v hk).get k' = if k' = k then some v else db.get k' := by
  simp only [get, insert, Std.ExtTreeMap.getElem?_insert, Std.LawfulEqCmp.compare_eq_iff_eq]
  exact if_congr eq_comm rfl rfl

theorem get_erase (db : Database) (k k' : Bytes) :
    (db.erase k).get k' = if k' = k then none else db.get k' := by
  simp only [get, erase, Std.ExtTreeMap.getElem?_erase, Std.LawfulEqCmp.compare_eq_iff_eq]
  exact if_congr eq_comm rfl rfl

theorem get_eraseWhere (db : Database) (p : Bytes → Bool) (k : Bytes) :
    (db.eraseWhere p).get k = if p k then none else db.get k := by
  simp only [get, eraseWhere, Std.ExtTreeMap.getElem?_filter']
  cases p k <;> cases db.entries[k]? <;> simp

/-- A key outside LMDB's bounds is stored nowhere. -/
theorem get_of_not_valid {db : Database} {k : Bytes} (hk : ¬ ValidKey k) : db.get k = none := by
  cases h : db.get k with
  | none => rfl
  | some v =>
      have hmem : k ∈ db.entries := by
        rw [Std.ExtTreeMap.mem_iff_isSome_getElem?]
        simpa [get] using congrArg Option.isSome h
      exact absurd (db.valid k hmem) hk

theorem mem_toList {db : Database} {k v : Bytes} : (k, v) ∈ db.toList ↔ db.get k = some v :=
  Std.ExtTreeMap.mem_toList_iff_getElem?_eq_some

/-- The cursor meets each key once, in increasing order. -/
theorem toList_sorted (db : Database) :
    db.toList.Pairwise (fun a b => compare a.1 b.1 = .lt) :=
  Std.ExtTreeMap.ordered_keys_toList

theorem get_of_last_eq_none {db : Database} (h : db.last = none) (k : Bytes) : db.get k = none := by
  have hnil : db.toList = [] := List.getLast?_eq_none_iff.mp h
  cases hget : db.get k with
  | none => rfl
  | some v =>
      have hmem := mem_toList.mpr hget
      rw [hnil] at hmem
      cases hmem

/-- The last pair is stored, and no stored key is larger. -/
theorem get_of_last_eq_some {db : Database} {k v : Bytes} (h : db.last = some (k, v)) :
    db.get k = some v ∧ ∀ k' v', db.get k' = some v' → k' = k ∨ compare k' k = .lt := by
  obtain ⟨init, hlist⟩ := List.getLast?_eq_some_iff.mp h
  constructor
  · rw [← mem_toList, hlist]
    exact List.mem_append_right _ List.mem_cons_self
  · intro k' v' hget
    have hmem := mem_toList.mpr hget
    have hsorted := db.toList_sorted
    rw [hlist] at hmem hsorted
    rcases List.mem_append.mp hmem with hinit | hlast
    · exact Or.inr ((List.pairwise_append.mp hsorted).2.2 _ hinit _ List.mem_cons_self)
    · exact Or.inl (congrArg Prod.fst (List.mem_singleton.mp hlast))

end Database

/-! ## Range bounds -/

/-- `std::ops::Bound`. -/
inductive Bound where
  | unbounded
  | included (k : Bytes)
  | excluded (k : Bytes)
deriving DecidableEq

/-- Does `k` satisfy the lower bound? -/
def Bound.above : Bound → Bytes → Bool
  | .unbounded, _ => true
  | .included lo, k => (compare lo k).isLE
  | .excluded lo, k => compare lo k == .lt

/-- Does `k` satisfy the upper bound? -/
def Bound.below : Bound → Bytes → Bool
  | .unbounded, _ => true
  | .included hi, k => (compare k hi).isLE
  | .excluded hi, k => compare k hi == .lt

def inRange (lo hi : Bound) (k : Bytes) : Bool := lo.above k && hi.below k

/-- What `Database::range` iterates over. -/
def Database.range (db : Database) (lo hi : Bound) : List (Bytes × Bytes) :=
  db.toList.filter (fun e => inRange lo hi e.1)

theorem Database.mem_range {db : Database} {lo hi : Bound} {k v : Bytes} :
    (k, v) ∈ db.range lo hi ↔ db.get k = some v ∧ inRange lo hi k = true := by
  simp only [Database.range, List.mem_filter, Database.mem_toList]

theorem Database.range_sorted (db : Database) (lo hi : Bound) :
    (db.range lo hi).Pairwise (fun a b => compare a.1 b.1 = .lt) :=
  db.toList_sorted.filter _

end DLmdb.Lmdb
