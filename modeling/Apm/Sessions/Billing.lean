import Apm.Sessions.Service

/-!
# Billed minutes against the wall clock

Metering moves `last_activity_at` to the instant it bills up to, and bills the
gap from where it stood: the mark. A total that fits in the time from the start
to the mark keeps fitting when the gap since the mark is billed once. Both the
interleaved calls and the sequential runs of the service keep this relation.
-/

namespace Apm.Sessions

open Apm.Core

set_option autoImplicit false

/-- `billed` fits in the time from the start to the latest clock value read, and
in the time up to the mark while the session is open. -/
structure Covers (latest : Instant) (row : ConversationSession) (billed : ℚ) : Prop where
  elapsed : billed ≤ minutesBetween row.startedAt latest
  marked : row.endedAt = none → billed ≤ minutesBetween row.startedAt row.lastActivityAt

theorem Covers.mono {latest latest' : Instant} {row : ConversationSession} {billed : ℚ}
    (h : Covers latest row billed) (hle : latest ≤ latest') : Covers latest' row billed :=
  ⟨h.elapsed.trans (minutesBetween_mono_right _ hle), h.marked⟩

/-- Metering the gap since the current mark moves the mark to `now`. -/
theorem Covers.meter {latest now : Instant} {row : ConversationSession} {billed : ℚ} (cap : ℚ)
    (h : Covers latest row billed) (hopen : row.endedAt = none)
    (hmark : row.lastActivityAt ≤ now) (hnow : now ≤ latest) :
    Covers latest (meterSession (elapsedMinutes row.lastActivityAt now (some cap)) row now)
      (billed + max 0 (elapsedMinutes row.lastActivityAt now (some cap))) := by
  have hgap : max 0 (elapsedMinutes row.lastActivityAt now (some cap)) ≤
      minutesBetween row.lastActivityAt now :=
    max_le (minutesBetween_nonneg hmark) (elapsedMinutes_le hmark cap)
  have hadd := minutesBetween_add row.startedAt row.lastActivityAt now
  have hb := h.marked hopen
  have htotal : billed + max 0 (elapsedMinutes row.lastActivityAt now (some cap)) ≤
      minutesBetween row.startedAt now := by linarith
  exact ⟨htotal.trans (minutesBetween_mono_right _ hnow), fun _ => htotal⟩

/-- The residual is measured from the current mark, also when the clock was read
before the mark moved past it. -/
theorem Covers.close {latest now : Instant} {row : ConversationSession} {billed charged : ℚ}
    (cap : ℚ) (h : Covers latest row billed) (hopen : row.endedAt = none) (hnow : now ≤ latest)
    (hc : charged ≤ max 0 (residual cap row now)) :
    Covers latest (closeSession cap row now) (billed + charged) := by
  have hb := h.marked hopen
  refine ⟨?_, fun hn => by simp at hn⟩
  rcases le_total row.lastActivityAt now with hle | hle
  · have hgap : max 0 (residual cap row now) ≤ minutesBetween row.lastActivityAt now :=
      max_le (minutesBetween_nonneg hle) (elapsedMinutes_le hle cap)
    have hadd := minutesBetween_add row.startedAt row.lastActivityAt now
    have hmono := minutesBetween_mono_right row.startedAt hnow
    rw [closeSession_startedAt]
    linarith
  · have hgap : max 0 (residual cap row now) = 0 := max_eq_left (elapsedMinutes_nonpos hle cap)
    have he := h.elapsed
    rw [closeSession_startedAt]
    linarith

/-- The two totals the claim bounds. -/
structure Billing (started latest : Instant) (row : ConversationSession) (quota : ℚ) : Prop where
  startedAt : row.startedAt = started
  ordered : row.startedAt ≤ row.lastActivityAt
  session : Covers latest row row.billed
  user : Covers latest row quota

theorem Billing.mono {started latest latest' : Instant} {row : ConversationSession} {quota : ℚ}
    (h : Billing started latest row quota) (hle : latest ≤ latest') :
    Billing started latest' row quota :=
  { h with session := h.session.mono hle, user := h.user.mono hle }

theorem Billing.meter {started latest now : Instant} {row : ConversationSession} {quota : ℚ}
    (cap : ℚ) (h : Billing started latest row quota) (hopen : row.endedAt = none)
    (hmark : row.lastActivityAt ≤ now) (hnow : now ≤ latest) :
    Billing started latest
      (meterSession (elapsedMinutes row.lastActivityAt now (some cap)) row now)
      (quota + usageMinutes (usageOf (elapsedMinutes row.lastActivityAt now (some cap)) now)) where
  startedAt := h.startedAt
  ordered := h.ordered.trans hmark
  session := by
    rw [meterSession_billed]
    exact h.session.meter cap hopen hmark hnow
  user := by
    rw [usageMinutes_usageOf]
    exact h.user.meter cap hopen hmark hnow

theorem Billing.close {started latest now : Instant} {row : ConversationSession} {quota : ℚ}
    (cap : ℚ) (h : Billing started latest row quota) (hopen : row.endedAt = none)
    (hnow : now ≤ latest) :
    Billing started latest (closeSession cap row now)
      (quota + usageMinutes (usageOf (residual cap row now) now)) where
  startedAt := h.startedAt
  ordered := h.ordered
  session := h.session.close cap hopen hnow (le_max_right _ _)
  user := by
    rw [usageMinutes_usageOf]
    exact h.user.close cap hopen hnow le_rfl

end Apm.Sessions
