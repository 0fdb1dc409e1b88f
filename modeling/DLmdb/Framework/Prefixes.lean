import Mathlib.Tactic.Common
import Mathlib.Data.List.Basic

/-!
# Prefixes in the lexicographic order

The lists that start with a given one are an interval of the lexicographic order: it
begins with the prefix itself, and it ends where the last element of the prefix that
can grow has grown.
-/

namespace DLmdb.Framework

variable {α : Type} [Ord α] [Std.LawfulEqOrd α]

/-- A common front does not matter. -/
theorem compare_append_left (p a b : List α) : compare (p ++ a) (p ++ b) = compare a b := by
  induction p with
  | nil => rfl
  | cons x p ih =>
      rw [List.cons_append, List.cons_append, List.compare_cons_cons, Std.compare_self,
        Ordering.eq_then, ih]

/-- A prefix comes first. -/
theorem isLE_compare_of_isPrefix {p k : List α} (h : p <+: k) : (compare p k).isLE := by
  obtain ⟨s, rfl⟩ := h
  have hsame := compare_append_left p [] s
  rw [List.append_nil] at hsame
  rw [hsame]
  exact List.isLE_compare_nil_left

/-- The last element of the prefix is the largest there is. -/
theorem concat_prefix_iff_of_top {p k : List α} {b : α} (hb : ∀ x, (compare b x).isLE → x = b) :
    p ++ [b] <+: k ↔ (compare (p ++ [b]) k).isLE ∧ p <+: k := by
  constructor
  · intro h
    exact ⟨isLE_compare_of_isPrefix h, (List.prefix_append p [b]).trans h⟩
  · rintro ⟨hlo, s, rfl⟩
    rw [compare_append_left] at hlo
    cases s with
    | nil => cases hlo
    | cons x s =>
        rw [List.compare_cons_cons] at hlo
        have heq := hb x (Ordering.isLE_left_of_isLE_then hlo)
        subst heq
        exact ⟨s, by simp⟩

variable [Std.TransOrd α]

/-- **What lies between two lists with a common front has that front.** -/
theorem prefix_of_between {p x y k : List α} (hlo : (compare (p ++ x) k).isLE)
    (hhi : (compare k (p ++ y)).isLE) : p <+: k := by
  induction p generalizing k with
  | nil => exact List.nil_prefix
  | cons a p ih =>
      cases k with
      | nil => cases hlo
      | cons c k =>
          rw [List.cons_append, List.compare_cons_cons] at hlo hhi
          have hac : (compare a c).isLE := Ordering.isLE_left_of_isLE_then hlo
          have hca : (compare c a).isLE := Ordering.isLE_left_of_isLE_then hhi
          have heq : a = c := Std.LawfulEqCmp.eq_of_compare (Std.OrientedCmp.isLE_antisymm hac hca)
          subst heq
          rw [Std.compare_self, Ordering.eq_then] at hlo hhi
          exact (List.prefix_cons_inj a).mpr (ih hlo hhi)

/-- The last element of the prefix can grow: `c` comes right after `b`. -/
theorem concat_prefix_iff_of_covers {p k : List α} {b c : α}
    (hbc : ∀ x, compare x c = .lt ↔ (compare x b).isLE) :
    p ++ [b] <+: k ↔ (compare (p ++ [b]) k).isLE ∧ compare k (p ++ [c]) = .lt := by
  have hlt : compare b c = .lt := (hbc b).mpr (by rw [Std.compare_self]; rfl)
  constructor
  · intro h
    refine ⟨isLE_compare_of_isPrefix h, ?_⟩
    obtain ⟨s, rfl⟩ := h
    rw [List.append_assoc, compare_append_left, List.singleton_append, List.compare_cons_cons, hlt]
    rfl
  · rintro ⟨hlo, hhi⟩
    obtain ⟨s, rfl⟩ := prefix_of_between hlo (Ordering.isLE_of_eq_lt hhi)
    rw [compare_append_left] at hlo hhi
    cases s with
    | nil => cases hlo
    | cons x s =>
        rw [List.compare_cons_cons] at hlo hhi
        have hbx : (compare b x).isLE := Ordering.isLE_left_of_isLE_then hlo
        have hxc : compare x c = .lt := by
          -- `x = c` would leave `s` below the empty list
          rcases Ordering.then_eq_lt.mp hhi with h | ⟨-, h⟩
          · exact h
          · cases s <;> cases h
        have heq : b = x :=
          Std.LawfulEqCmp.eq_of_compare (Std.OrientedCmp.isLE_antisymm hbx ((hbc x).mp hxc))
        subst heq
        exact ⟨s, by simp⟩

end DLmdb.Framework
