import Apm.Core.Quota

/-!
# Streak transitions

`register_active_day` takes the day as an argument; the service applies it to
the streak columns of the user row. The columns are not nullable, so the
`or 0` of the service, which serves users built in memory, has no counterpart.
-/

namespace Apm.Streaks

open Apm.Core (Day User)

set_option autoImplicit false

structure StreakState where
  currentStreak : Int := 0
  longestStreak : Int := 0
  lastActiveDate : Option Day := none
  deriving DecidableEq, Repr

/-- `register_active_day`. -/
def registerActiveDay (state : StreakState) (today : Day) : StreakState :=
  if state.lastActiveDate = some today then state
  else
    let current := if state.lastActiveDate = some (today - 1) then state.currentStreak + 1 else 1
    { currentStreak := current
      longestStreak := max state.longestStreak current
      lastActiveDate := some today }

/-- `_apply_active_day` of the session service. -/
def applyActiveDay (user : User) (today : Day) : User :=
  let updated := registerActiveDay
    ⟨user.currentStreak, user.longestStreak, user.lastActiveDate⟩ today
  { user with
    currentStreak := updated.currentStreak
    longestStreak := updated.longestStreak
    lastActiveDate := updated.lastActiveDate }

@[simp] theorem applyActiveDay_id (user : User) (today : Day) :
    (applyActiveDay user today).id = user.id := rfl

@[simp] theorem applyActiveDay_tier (user : User) (today : Day) :
    (applyActiveDay user today).tier = user.tier := rfl

@[simp] theorem applyActiveDay_quotaDate (user : User) (today : Day) :
    (applyActiveDay user today).quotaDate = user.quotaDate := rfl

@[simp] theorem applyActiveDay_minutesUsedToday (user : User) (today : Day) :
    (applyActiveDay user today).minutesUsedToday = user.minutesUsedToday := rfl

@[simp] theorem usedOn_applyActiveDay (user : User) (today day : Day) :
    (applyActiveDay user today).usedOn day = user.usedOn day := rfl

end Apm.Streaks
