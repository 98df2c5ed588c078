import Apm.Core.Time
import Mathlib.Data.List.Nodup

/-!
# The spaced repetition of error types

The pure scheduler of the review items and the schedule one session makes of
them: every tracked type and every type seen now gets a new state.
-/

namespace Apm.Review

open Apm.Core

set_option autoImplicit false

/-- `INTERVAL_DAYS`. -/
def intervalDays : List Int := [1, 3, 7]

/-- `MASTERY_STREAK`. -/
def masteryStreak : Nat := 3

inductive Status where
  | due
  | mastered
  deriving DecidableEq, Repr

structure ReviewState where
  stage : Nat
  cleanStreak : Nat
  status : Status
  nextReviewAt : Option Instant
  latestCorrection : String
  deriving DecidableEq, Repr

/-- `ReviewState()`. -/
def ReviewState.new : ReviewState := ⟨0, 0, .due, none, ""⟩

/-- `now + timedelta(days=INTERVAL_DAYS[stage])`. -/
def reviewAfter (now : Instant) (stage : Nat) : Instant :=
  now + intervalDays.getD stage 0 * microsPerDay

/-- `on_error_seen`. -/
def onErrorSeen (state : ReviewState) (correction : String) (now : Instant) : ReviewState where
  stage := 0
  cleanStreak := 0
  status := .due
  nextReviewAt := some (reviewAfter now 0)
  latestCorrection := if correction = "" then state.latestCorrection else correction

/-- `on_error_absent`. -/
def onErrorAbsent (state : ReviewState) (now : Instant) : ReviewState :=
  if state.status = .mastered then state
  else if state.nextReviewAt.any (now < ·) then state
  else
    let cleanStreak := state.cleanStreak + 1
    if masteryStreak ≤ cleanStreak then
      { state with cleanStreak := cleanStreak, status := .mastered, nextReviewAt := none }
    else
      let nextStage := min (state.stage + 1) (intervalDays.length - 1)
      { state with
        stage := nextStage
        cleanStreak := cleanStreak
        status := .due
        nextReviewAt := some (reviewAfter now nextStage) }

/-- A row of `review_items`. -/
structure ReviewItem where
  errorType : String
  state : ReviewState
  deriving DecidableEq, Repr

/-- The rows `record_session` writes: `blank` is the test of a type that is skipped. -/
def recordSession (blank : String → Bool) (tracked : List ReviewItem)
    (errorsSeen : List (String × String)) (now : Instant) : List ReviewItem :=
  let allTypes := tracked.map ReviewItem.errorType ++
    (errorsSeen.map Prod.fst).filter (· ∉ tracked.map ReviewItem.errorType)
  (allTypes.filter fun errorType => !blank errorType).map fun errorType =>
    let state := ((tracked.find? (·.errorType = errorType)).map ReviewItem.state).getD .new
    match errorsSeen.lookup errorType with
    | some correction => ⟨errorType, onErrorSeen state correction now⟩
    | none => ⟨errorType, onErrorAbsent state now⟩

/-- A session writes one row for each type. -/
theorem recordSession_nodup (blank : String → Bool) {tracked : List ReviewItem}
    {errorsSeen : List (String × String)} (now : Instant)
    (htracked : (tracked.map ReviewItem.errorType).Nodup)
    (hseen : (errorsSeen.map Prod.fst).Nodup) :
    ((recordSession blank tracked errorsSeen now).map ReviewItem.errorType).Nodup := by
  rw [recordSession, List.map_map, List.map_congr_left (g := id), List.map_id]
  · refine List.Nodup.filter _ (List.Nodup.append htracked (List.Nodup.filter _ hseen) ?_)
    intro t ht hnew
    exact of_decide_eq_true (List.mem_filter.mp hnew).2 ht
  · intro t _
    dsimp only [Function.comp_apply]
    cases errorsSeen.lookup t <;> rfl

end Apm.Review
