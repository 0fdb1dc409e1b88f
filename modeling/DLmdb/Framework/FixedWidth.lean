import Mathlib.Tactic.Common
import Mathlib.Tactic.Positivity
import Mathlib.Tactic.Ring
import Mathlib.Data.List.Basic
import Mathlib.Data.Nat.Log

/-!
# Fixed-width big-endian integers

`w` bytes, most significant first. On encodings of one width the bytewise order is
the numeric order (`compare_beDigits`): that is what makes a cursor over
big-endian keys meet them in numeric order.
-/

namespace DLmdb.Framework

/-- The `w` low bytes of `n`, most significant first. -/
def beDigits : ℕ → ℕ → List UInt8
  | 0, _ => []
  | w + 1, n => UInt8.ofNat (n / 256 ^ w) :: beDigits w (n % 256 ^ w)

/-- The number with the given bytes, most significant first. -/
def ofBeDigits (bs : List UInt8) : ℕ := bs.foldl (fun n b => n * 256 + b.toNat) 0

@[simp] theorem length_beDigits (w n : ℕ) : (beDigits w n).length = w := by
  induction w generalizing n with
  | zero => rfl
  | succ w ih => simp [beDigits, ih]

/-- The leading byte of a number that fits is its leading digit. -/
theorem toNat_lead {w n : ℕ} (h : n < 256 ^ (w + 1)) :
    (UInt8.ofNat (n / 256 ^ w)).toNat = n / 256 ^ w := by
  have hlt : n / 256 ^ w < 256 := by
    rw [Nat.div_lt_iff_lt_mul (by positivity)]
    rwa [pow_succ, Nat.mul_comm] at h
  exact Nat.mod_eq_of_lt hlt

theorem foldl_beDigits {w n : ℕ} (h : n < 256 ^ w) (m : ℕ) :
    (beDigits w n).foldl (fun n b => n * 256 + b.toNat) m = m * 256 ^ w + n := by
  induction w generalizing n m with
  | zero =>
      simp only [pow_zero] at h
      simp [beDigits, Nat.lt_one_iff.mp h]
  | succ w ih =>
      have hmod : n % 256 ^ w < 256 ^ w := Nat.mod_lt _ (by positivity)
      rw [beDigits, List.foldl_cons, ih hmod, toNat_lead h]
      have hn := Nat.div_add_mod n (256 ^ w)
      calc (m * 256 + n / 256 ^ w) * 256 ^ w + n % 256 ^ w
          = m * 256 ^ (w + 1) + (256 ^ w * (n / 256 ^ w) + n % 256 ^ w) := by ring
        _ = m * 256 ^ (w + 1) + n := by rw [hn]

theorem ofBeDigits_beDigits {w n : ℕ} (h : n < 256 ^ w) : ofBeDigits (beDigits w n) = n := by
  simpa [ofBeDigits] using foldl_beDigits h 0

theorem foldl_eq_ofBeDigits (bs : List UInt8) (m : ℕ) :
    bs.foldl (fun n b => n * 256 + b.toNat) m = m * 256 ^ bs.length + ofBeDigits bs := by
  induction bs generalizing m with
  | nil => simp [ofBeDigits]
  | cons b bs ih =>
      have hcons : ofBeDigits (b :: bs) =
          bs.foldl (fun n b => n * 256 + b.toNat) (0 * 256 + b.toNat) := rfl
      rw [List.foldl_cons, hcons, ih, ih, List.length_cons]
      ring

theorem ofBeDigits_cons (b : UInt8) (bs : List UInt8) :
    ofBeDigits (b :: bs) = b.toNat * 256 ^ bs.length + ofBeDigits bs := by
  show bs.foldl (fun n b => n * 256 + b.toNat) (0 * 256 + b.toNat) = _
  rw [foldl_eq_ofBeDigits]
  ring

theorem ofBeDigits_lt (bs : List UInt8) : ofBeDigits bs < 256 ^ bs.length := by
  induction bs with
  | nil => simp [ofBeDigits]
  | cons b bs ih =>
      have hb : b.toNat + 1 ≤ 256 := b.toNat_lt
      rw [ofBeDigits_cons, List.length_cons]
      calc b.toNat * 256 ^ bs.length + ofBeDigits bs
          < b.toNat * 256 ^ bs.length + 256 ^ bs.length := Nat.add_lt_add_left ih _
        _ = (b.toNat + 1) * 256 ^ bs.length := by ring
        _ ≤ 256 * 256 ^ bs.length := Nat.mul_le_mul_right _ hb
        _ = 256 ^ (bs.length + 1) := by ring

/-- Every string of the right width is the digits of its number. -/
theorem beDigits_ofBeDigits (bs : List UInt8) : beDigits bs.length (ofBeDigits bs) = bs := by
  induction bs with
  | nil => rfl
  | cons b bs ih =>
      have hpos : 0 < 256 ^ bs.length := by positivity
      have hlt := ofBeDigits_lt bs
      have hdiv : (b.toNat * 256 ^ bs.length + ofBeDigits bs) / 256 ^ bs.length = b.toNat := by
        rw [Nat.add_comm, Nat.add_mul_div_right _ _ hpos, Nat.div_eq_of_lt hlt, Nat.zero_add]
      have hmod : (b.toNat * 256 ^ bs.length + ofBeDigits bs) % 256 ^ bs.length =
          ofBeDigits bs := by
        rw [Nat.add_comm, Nat.add_mul_mod_self_right, Nat.mod_eq_of_lt hlt]
      rw [ofBeDigits_cons, List.length_cons, beDigits, hdiv, hmod, ih, UInt8.ofNat_toNat]

theorem beDigits_inj {w m n : ℕ} (hm : m < 256 ^ w) (hn : n < 256 ^ w)
    (h : beDigits w m = beDigits w n) : m = n := by
  rw [← ofBeDigits_beDigits hm, ← ofBeDigits_beDigits hn, h]

theorem compare_toNat (a b : UInt8) : compare a b = compare a.toNat b.toNat := by
  simp only [compare, compareOfLessAndEq, UInt8.lt_iff_toNat_lt, ← UInt8.toNat_inj]

/-- The numeric order is decided by quotients first, then by remainders. -/
theorem compare_div_mod (m n d : ℕ) :
    compare m n = (compare (m / d) (n / d)).then (compare (m % d) (n % d)) := by
  have hm := Nat.div_add_mod m d
  have hn := Nat.div_add_mod n d
  rcases Nat.lt_trichotomy (m / d) (n / d) with h | h | h
  · rw [Nat.compare_eq_lt.mpr h, Nat.compare_eq_lt.mpr (Nat.lt_of_div_lt_div h)]
    rfl
  · rw [Nat.compare_eq_eq.mpr h, Ordering.eq_then]
    rw [h] at hm
    rcases Nat.lt_trichotomy (m % d) (n % d) with h' | h' | h'
    · rw [Nat.compare_eq_lt.mpr h', Nat.compare_eq_lt.mpr (by omega)]
    · rw [Nat.compare_eq_eq.mpr h', Nat.compare_eq_eq.mpr (by omega)]
    · rw [Nat.compare_eq_gt.mpr h', Nat.compare_eq_gt.mpr (by omega)]
  · rw [Nat.compare_eq_gt.mpr h, Nat.compare_eq_gt.mpr (Nat.lt_of_div_lt_div h)]
    rfl

/-- **Bytewise order is numeric order.** -/
theorem compare_beDigits {w m n : ℕ} (hm : m < 256 ^ w) (hn : n < 256 ^ w) :
    compare (beDigits w m) (beDigits w n) = compare m n := by
  induction w generalizing m n with
  | zero =>
      simp only [pow_zero] at hm hn
      rw [Nat.lt_one_iff.mp hm, Nat.lt_one_iff.mp hn]
      rfl
  | succ w ih =>
      have hpos : 0 < 256 ^ w := by positivity
      rw [beDigits, beDigits, List.compare_cons_cons, compare_toNat, toNat_lead hm,
        toNat_lead hn, ih (Nat.mod_lt m hpos) (Nat.mod_lt n hpos)]
      exact (compare_div_mod m n (256 ^ w)).symm

/-! ## `u64` -/

/-- `u64::to_be_bytes`. -/
def toBeBytes (x : UInt64) : List UInt8 := beDigits 8 x.toNat

/-- `u64::from_be_bytes`. -/
def fromBeBytes (bs : List UInt8) : UInt64 := UInt64.ofNat (ofBeDigits bs)

/-- `u64::to_le_bytes`. -/
def toLeBytes (x : UInt64) : List UInt8 := (toBeBytes x).reverse

/-- `u64::from_le_bytes`. -/
def fromLeBytes (bs : List UInt8) : UInt64 := fromBeBytes bs.reverse

theorem toNat_lt_width (x : UInt64) : x.toNat < 256 ^ 8 := by
  have := x.toNat_lt
  omega

@[simp] theorem length_toBeBytes (x : UInt64) : (toBeBytes x).length = 8 :=
  length_beDigits 8 x.toNat

@[simp] theorem length_toLeBytes (x : UInt64) : (toLeBytes x).length = 8 := by
  simp [toLeBytes]

@[simp] theorem fromBeBytes_toBeBytes (x : UInt64) : fromBeBytes (toBeBytes x) = x := by
  rw [fromBeBytes, toBeBytes, ofBeDigits_beDigits (toNat_lt_width x), UInt64.ofNat_toNat]

theorem toBeBytes_fromBeBytes {bs : List UInt8} (h : bs.length = 8) :
    toBeBytes (fromBeBytes bs) = bs := by
  have hlt : ofBeDigits bs < UInt64.size := by
    have hbs := ofBeDigits_lt bs
    rw [h] at hbs
    exact hbs
  rw [toBeBytes, fromBeBytes, UInt64.toNat_ofNat_of_lt' hlt, ← h, beDigits_ofBeDigits]

@[simp] theorem fromLeBytes_toLeBytes (x : UInt64) : fromLeBytes (toLeBytes x) = x := by
  simp [fromLeBytes, toLeBytes]

theorem toBeBytes_inj {x y : UInt64} : toBeBytes x = toBeBytes y ↔ x = y := by
  constructor
  · intro h
    exact UInt64.toNat_inj.mp (beDigits_inj (toNat_lt_width x) (toNat_lt_width y) h)
  · rintro rfl
    rfl

theorem compare_toBeBytes (x y : UInt64) :
    compare (toBeBytes x) (toBeBytes y) = compare x.toNat y.toNat :=
  compare_beDigits (toNat_lt_width x) (toNat_lt_width y)

theorem le_allOnes (n : UInt64) : n ≤ 0xffffffffffffffff := by
  have hlt := n.toNat_lt
  rw [UInt64.le_iff_toNat_le]
  show n.toNat ≤ 2 ^ 64 - 1
  omega

end DLmdb.Framework
