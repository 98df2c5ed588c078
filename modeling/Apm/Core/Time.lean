import Mathlib.Algebra.Order.Field.Rat
import Mathlib.Data.Rat.Cast.Order
import Mathlib.Tactic.Linarith
import Mathlib.Tactic.Ring
import Mathlib.Tactic.Positivity

/-!
# Instants, UTC days and minutes

A `datetime` of the source is aware, in UTC, with a resolution of one
microsecond: an integer number of microseconds since the epoch. A `date` is the
number of its day. `total_seconds() / 60.0` is taken exactly, as a rational.
-/

namespace Apm.Core

set_option autoImplicit false

/-- Microseconds since the epoch, UTC. -/
abbrev Instant := Int

/-- Days since the epoch, UTC. -/
abbrev Day := Int

def microsPerSecond : Int := 1000000
def microsPerMinute : Int := 60 * microsPerSecond
def microsPerHour : Int := 60 * microsPerMinute
def microsPerDay : Int := 24 * microsPerHour

/-- `datetime.date()` of an instant in UTC. -/
def date (t : Instant) : Day := t / microsPerDay

/-- `(b - a).total_seconds() / 60.0`. -/
def minutesBetween (a b : Instant) : ℚ := ((b - a : Int) : ℚ) / 60000000

theorem date_mono {a b : Instant} (h : a ≤ b) : date a ≤ date b :=
  Int.ediv_le_ediv (by decide) h

@[simp] theorem minutesBetween_self (a : Instant) : minutesBetween a a = 0 := by
  simp [minutesBetween]

theorem minutesBetween_add (a b c : Instant) :
    minutesBetween a b + minutesBetween b c = minutesBetween a c := by
  simp only [minutesBetween, Int.cast_sub]
  ring

theorem minutesBetween_nonneg {a b : Instant} (h : a ≤ b) : 0 ≤ minutesBetween a b := by
  have hc : (0 : ℚ) ≤ ((b - a : Int) : ℚ) := by exact_mod_cast Int.sub_nonneg.mpr h
  exact div_nonneg hc (by norm_num)

theorem minutesBetween_nonpos {a b : Instant} (h : b ≤ a) : minutesBetween a b ≤ 0 := by
  have hadd := minutesBetween_add a b a
  have hback := minutesBetween_nonneg h
  rw [minutesBetween_self] at hadd
  linarith

theorem minutesBetween_pos {a b : Instant} (h : a < b) : 0 < minutesBetween a b := by
  have hc : (0 : ℚ) < ((b - a : Int) : ℚ) := by exact_mod_cast Int.sub_pos.mpr h
  exact div_pos hc (by norm_num)

theorem minutesBetween_mono_right (a : Instant) {b c : Instant} (h : b ≤ c) :
    minutesBetween a b ≤ minutesBetween a c := by
  have hadd := minutesBetween_add a b c
  have hbc := minutesBetween_nonneg h
  linarith

end Apm.Core
