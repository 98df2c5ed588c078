import Mathlib.Data.ENat.Lattice
import Mathlib.Data.List.DropRight

/-!
# The last items of a list

A window is the end of a list up to a limit, which may be infinite. A list that is cut to its
window each time it grows is the window of the list that was never cut.
-/

namespace Apm.Lib

set_option autoImplicit false

variable {α : Type}

/-- The last items, up to the limit. -/
noncomputable def window (limit : ℕ∞) (items : List α) : List α :=
  items.rtake (min (items.length : ℕ∞) limit).toNat

theorem window_top (items : List α) : window ⊤ items = items := by
  rw [window, min_eq_left le_top, ENat.toNat_natCast, List.rtake, Nat.sub_self, List.drop_zero]

theorem window_nil (limit : ℕ∞) : window limit ([] : List α) = [] := by
  rw [window, List.rtake_nil]

theorem window_natCast (n : ℕ) (items : List α) : window n items = items.rtake n := by
  obtain h | h := le_total items.length n
  · rw [window, min_eq_left (Nat.cast_le.mpr h), ENat.toNat_natCast, List.rtake, List.rtake,
      Nat.sub_self, Nat.sub_eq_zero_of_le h]
  · rw [window, min_eq_right (Nat.cast_le.mpr h), ENat.toNat_natCast]

/-- A window of a wider window is the window. -/
theorem window_window {limit wider : ℕ∞} (h : limit ≤ wider) (items : List α) :
    window limit (window wider items) = window limit items := by
  cases wider with
  | top => rw [window_top]
  | coe m =>
    obtain ⟨n, rfl⟩ := ENat.ne_top_iff_exists.mp (ne_top_of_le_ne_top (ENat.natCast_ne_top m) h)
    have hle : n ≤ m := Nat.cast_le.mp h
    rw [window_natCast, window_natCast, window_natCast, List.rtake_eq_reverse_take_reverse,
      List.rtake_eq_reverse_take_reverse, List.rtake_eq_reverse_take_reverse,
      List.reverse_reverse, List.take_take, min_eq_left hle]

/-- What is cut off before more is added would be cut off afterwards. -/
theorem window_append (limit : ℕ∞) (items more : List α) :
    window limit (window limit items ++ more) = window limit (items ++ more) := by
  cases limit with
  | top => rw [window_top items, window_top]
  | coe n =>
    rw [window_natCast, window_natCast, window_natCast, List.rtake_eq_reverse_take_reverse,
      List.rtake_eq_reverse_take_reverse, List.rtake_eq_reverse_take_reverse,
      List.reverse_append, List.reverse_append, List.reverse_reverse, List.take_append,
      List.take_append, List.take_take, min_eq_left (Nat.sub_le _ _)]

end Apm.Lib
