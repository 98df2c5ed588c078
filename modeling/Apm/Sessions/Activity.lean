import Apm.Core.Time

/-!
# Session activity

The two pure helpers that every metering path shares: the capped gap since a
mark, never negative, and the strict staleness test of the lazy reaper.
-/

namespace Apm.Sessions

open Apm.Core

set_option autoImplicit false

/-- `elapsed_minutes`. -/
def elapsedMinutes (mark now : Instant) (cap : Option ℚ) : ℚ :=
  let delta := minutesBetween mark now
  let minutes := max 0 delta
  match cap with
  | some c => min minutes c
  | none => minutes

/-- `is_stale`. -/
def isStale (lastActivity now : Instant) (timeoutMinutes : ℚ) : Bool :=
  decide (timeoutMinutes < elapsedMinutes lastActivity now none)

theorem elapsedMinutes_le_cap (mark now : Instant) (cap : ℚ) :
    elapsedMinutes mark now (some cap) ≤ cap := min_le_right _ _

/-- After its mark a gap is at most the wall-clock time. -/
theorem elapsedMinutes_le {mark now : Instant} (h : mark ≤ now) (cap : ℚ) :
    elapsedMinutes mark now (some cap) ≤ minutesBetween mark now := by
  have hmax : max 0 (minutesBetween mark now) = minutesBetween mark now :=
    max_eq_right (minutesBetween_nonneg h)
  simp only [elapsedMinutes, hmax]
  exact min_le_left _ _

/-- Before its mark (clock skew) a gap is worth nothing. -/
theorem elapsedMinutes_nonpos {mark now : Instant} (h : now ≤ mark) (cap : ℚ) :
    elapsedMinutes mark now (some cap) ≤ 0 := by
  have hmax : max 0 (minutesBetween mark now) = 0 := max_eq_left (minutesBetween_nonpos h)
  simp only [elapsedMinutes, hmax]
  exact min_le_left _ _

/-- A gap is charged exactly when time has passed since the mark and the cap allows it. -/
theorem elapsedMinutes_pos_iff (mark now : Instant) (cap : ℚ) :
    0 < elapsedMinutes mark now (some cap) ↔ mark < now ∧ 0 < cap := by
  constructor
  · intro h
    refine ⟨?_, lt_of_lt_of_le h (elapsedMinutes_le_cap mark now cap)⟩
    by_contra hle
    exact absurd (elapsedMinutes_nonpos (not_lt.mp hle) cap) (not_le.mpr h)
  · rintro ⟨hlt, hcap⟩
    exact lt_min (lt_max_of_lt_right (minutesBetween_pos hlt)) hcap

end Apm.Sessions
