import DLmdb.Framework.FixedWidth

/-!
# Protobuf messages of two `uint64` fields

The wire format as far as a message `{ uint64 a = 1; uint64 b = 2; }` uses it: base-128
varints, least significant group first, each behind a tag; a field that is zero is left
out, and unknown tags are refused.
-/

namespace DLmdb.Framework

/-! ## Varints -/

/-- Groups of seven bits, at most `k` of them. -/
def putVarint : ℕ → ℕ → List UInt8
  | 0, _ => []
  | k + 1, n =>
      if n < 128 then [UInt8.ofNat n] else UInt8.ofNat (n % 128 + 128) :: putVarint k (n / 128)

/-- The varint in front, and what follows it. -/
def takeVarint : List UInt8 → Option (ℕ × List UInt8)
  | [] => none
  | b :: bs =>
      if b.toNat < 128 then some (b.toNat, bs)
      else (takeVarint bs).map (fun x => (b.toNat - 128 + 128 * x.1, x.2))

theorem takeVarint_putVarint {k n : ℕ} (h : n < 128 ^ (k + 1)) (rest : List UInt8) :
    takeVarint (putVarint (k + 1) n ++ rest) = some (n, rest) := by
  induction k generalizing n with
  | zero =>
      have hn : n < 128 := by simpa using h
      have hbyte : (UInt8.ofNat n).toNat = n := Nat.mod_eq_of_lt (by omega)
      rw [putVarint, if_pos hn, List.singleton_append, takeVarint, hbyte, if_pos hn]
  | succ k ih =>
      rw [putVarint]
      by_cases hn : n < 128
      · have hbyte : (UInt8.ofNat n).toNat = n := Nat.mod_eq_of_lt (by omega)
        rw [if_pos hn, List.singleton_append, takeVarint, hbyte, if_pos hn]
      · have hdiv : n / 128 < 128 ^ (k + 1) := by
          rw [Nat.div_lt_iff_lt_mul (by decide)]
          rwa [pow_succ] at h
        have hbyte : (UInt8.ofNat (n % 128 + 128)).toNat = n % 128 + 128 :=
          Nat.mod_eq_of_lt (by omega)
        rw [if_neg hn, List.cons_append, takeVarint, hbyte, if_neg (by omega), ih hdiv]
        show some (n % 128 + 128 - 128 + 128 * (n / 128), rest) = some (n, rest)
        rw [Nat.add_sub_cancel, Nat.mod_add_div]

/-! ## Fields -/

/-- One field, left out when zero. -/
def putField (tag : UInt8) (x : UInt64) : List UInt8 :=
  if x = 0 then [] else tag :: putVarint 10 x.toNat

/-- The fields of a message, the later one winning. -/
def takeFields : ℕ → List UInt8 → UInt64 × UInt64 → Except String (UInt64 × UInt64)
  | _, [], ab => .ok ab
  | 0, _ :: _, _ => .error "unexpected data"
  | fuel + 1, tag :: bs, (a, b) =>
      match takeVarint bs with
      | none => .error "invalid varint"
      | some (n, rest) =>
          if tag = 8 then takeFields fuel rest (UInt64.ofNat n, b)
          else if tag = 16 then takeFields fuel rest (a, UInt64.ofNat n)
          else .error "invalid tag"

def encodeMessage (ab : UInt64 × UInt64) : List UInt8 := putField 8 ab.1 ++ putField 16 ab.2

def decodeMessage (bs : List UInt8) : Except String (UInt64 × UInt64) :=
  takeFields bs.length bs (0, 0)

theorem takeVarint_toNat (x : UInt64) (rest : List UInt8) :
    takeVarint (putVarint 10 x.toNat ++ rest) = some (x.toNat, rest) := by
  apply takeVarint_putVarint
  have hx := x.toNat_lt
  omega

/-- A first field read back, with fuel for every byte. -/
theorem takeFields_first (a : UInt64) {fuel : ℕ} {rest : List UInt8}
    (h : (putField 8 a ++ rest).length ≤ fuel) :
    ∃ fuel', rest.length ≤ fuel' ∧
      takeFields fuel (putField 8 a ++ rest) (0, 0) = takeFields fuel' rest (a, 0) := by
  unfold putField at h ⊢
  by_cases ha : a = 0
  · rw [if_pos ha] at h ⊢
    rw [ha]
    exact ⟨fuel, h, rfl⟩
  · rw [if_neg ha] at h ⊢
    obtain ⟨fuel, rfl⟩ : ∃ f, fuel = f + 1 := ⟨fuel - 1, by
      rw [List.cons_append, List.length_cons] at h
      omega⟩
    refine ⟨fuel, ?_, ?_⟩
    · rw [List.cons_append, List.length_cons, List.length_append] at h
      omega
    · rw [List.cons_append, takeFields, takeVarint_toNat]
      show takeFields fuel rest (UInt64.ofNat a.toNat, 0) = _
      rw [UInt64.ofNat_toNat]

theorem takeFields_second (a b : UInt64) {fuel : ℕ} (h : (putField 16 b).length ≤ fuel) :
    takeFields fuel (putField 16 b) (a, 0) = .ok (a, b) := by
  unfold putField at h ⊢
  by_cases hb : b = 0
  · rw [if_pos hb, hb]
    cases fuel <;> rfl
  · rw [if_neg hb] at h ⊢
    obtain ⟨fuel, rfl⟩ : ∃ f, fuel = f + 1 := ⟨fuel - 1, by
      rw [List.length_cons] at h
      omega⟩
    have hvarint := takeVarint_toNat b []
    rw [List.append_nil] at hvarint
    rw [takeFields, hvarint]
    show takeFields fuel [] (a, UInt64.ofNat b.toNat) = _
    rw [UInt64.ofNat_toNat]
    cases fuel <;> rfl

theorem decodeMessage_encodeMessage (ab : UInt64 × UInt64) :
    decodeMessage (encodeMessage ab) = .ok ab := by
  obtain ⟨a, b⟩ := ab
  obtain ⟨fuel, hfuel, hfirst⟩ :=
    takeFields_first a (Nat.le_refl (putField 8 a ++ putField 16 b).length)
  exact hfirst.trans (takeFields_second a b hfuel)

end DLmdb.Framework
