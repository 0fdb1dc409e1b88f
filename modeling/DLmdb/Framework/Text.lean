import Mathlib.Tactic.Common

/-!
# Text

Splitting at the last separator, and reading as UTF-8 what may not be: each ill-formed
piece becomes one replacement character, so that every string of bytes has a reading, and
well-formed text has its own.
-/

namespace DLmdb.Framework

/-! ## The last separator -/

section

variable {α : Type} [DecidableEq α]

/-- What stands before and after the last `c`, if there is one. -/
def rsplitOnce (c : α) : List α → Option (List α × List α)
  | [] => none
  | x :: xs =>
      match rsplitOnce c xs with
      | some (front, back) => some (x :: front, back)
      | none => if x = c then some ([], xs) else none

theorem rsplitOnce_eq_none {c : α} {xs : List α} : rsplitOnce c xs = none ↔ c ∉ xs := by
  induction xs with
  | nil => simp [rsplitOnce]
  | cons x xs ih =>
      rw [rsplitOnce, List.mem_cons, not_or, ← ih]
      cases rsplitOnce c xs with
      | some p => simp
      | none => simp [eq_comm]

end

/-! ## Reading bytes as text -/

/-- A byte that continues a character. -/
def continues (b : UInt8) : Bool := 0x80 ≤ b && b ≤ 0xbf

/-- The second bytes of a character of three or four bytes. -/
def continuesAfter (first b : UInt8) : Bool :=
  match first.toNat with
  | 0xe0 => 0xa0 ≤ b && b ≤ 0xbf
  | 0xed => 0x80 ≤ b && b ≤ 0x9f
  | 0xf0 => 0x90 ≤ b && b ≤ 0xbf
  | 0xf4 => 0x80 ≤ b && b ≤ 0x8f
  | n => 0xe1 ≤ n && n ≤ 0xf3 && continues b

/-- How many bytes one replacement character stands for, where no character can be read:
those that could have begun one, and at least one. -/
def illFormedLength : List UInt8 → ℕ
  | first :: second :: rest =>
      if continuesAfter first second then
        match rest with
        -- a fourth byte is missing, or a third
        | third :: _ => if 0xf0 ≤ first && continues third then 3 else 2
        | [] => 2
      else 1
  | _ => 1

theorem illFormedLength_pos (bytes : List UInt8) : 0 < illFormedLength bytes := by
  unfold illFormedLength
  repeat' split
  all_goals decide

/-- The text in `bytes`, with replacement characters where there is none. -/
def fromUtf8Lossy : List UInt8 → List Char
  | [] => []
  | b :: bytes =>
      match (b :: bytes).toByteArray.utf8DecodeChar? 0 with
      | some c => c :: fromUtf8Lossy ((b :: bytes).drop c.utf8Size)
      | none =>
          Char.ofNat 0xfffd :: fromUtf8Lossy ((b :: bytes).drop (illFormedLength (b :: bytes)))
termination_by bytes => bytes.length
decreasing_by
  · have hpos := c.utf8Size_pos
    rw [List.length_drop, List.length_cons]
    omega
  · have hpos := illFormedLength_pos (b :: bytes)
    rw [List.length_drop, List.length_cons]
    omega

theorem fromUtf8Lossy_encodeChar (c : Char) (bytes : List UInt8) :
    fromUtf8Lossy (String.utf8EncodeChar c ++ bytes) = c :: fromUtf8Lossy bytes := by
  have hread : (String.utf8EncodeChar c ++ bytes).toByteArray.utf8DecodeChar? 0 = some c := by
    rw [List.toByteArray_append]
    exact ByteArray.utf8DecodeChar?_utf8EncodeChar_append
  have hdrop : (String.utf8EncodeChar c ++ bytes).drop c.utf8Size = bytes := by
    rw [← String.length_utf8EncodeChar, List.drop_left]
  cases hbytes : String.utf8EncodeChar c ++ bytes with
  | nil => simp at hbytes
  | cons b rest =>
      rw [hbytes] at hread hdrop
      rw [fromUtf8Lossy, hread]
      show c :: fromUtf8Lossy (List.drop c.utf8Size (b :: rest)) = _
      rw [hdrop]

/-- **Text is read as it was written.** -/
theorem fromUtf8Lossy_toUTF8 (s : String) : fromUtf8Lossy s.toUTF8.data.toList = s.toList := by
  have hchars : ∀ cs : List Char, fromUtf8Lossy (cs.flatMap String.utf8EncodeChar) = cs := by
    intro cs
    induction cs with
    | nil => rw [List.flatMap_nil, fromUtf8Lossy]
    | cons c cs ih => rw [List.flatMap_cons, fromUtf8Lossy_encodeChar, ih]
  have hbytes : s.toUTF8.data.toList = s.toList.flatMap String.utf8EncodeChar := by
    rw [String.toUTF8_eq_toByteArray, ← String.utf8Encode_toList, List.utf8Encode]
    simp
  rw [hbytes, hchars]

end DLmdb.Framework
