import Apm.Core.Time
import Mathlib.Algebra.Order.Monoid.WithTop

/-!
# The daily quota

One counter and one date on the user row. The counter restarts whenever a charge
carries another date than the one stored, in either direction.
-/

namespace Apm.Core

set_option autoImplicit false

def tierFree : String := "free"

/-- The columns of `users` that the metering of a conversation reads or writes. -/
structure User where
  id : Int
  tier : String
  quotaDate : Option Day
  minutesUsedToday : ℚ
  currentStreak : Int
  longestStreak : Int
  lastActiveDate : Option Day
  deriving DecidableEq, Repr

/-- `remaining_minutes`: `⊤` is `float("inf")`. -/
def remainingMinutes (user : User) (freeDaily : Int) (today : Day) : WithTop ℚ :=
  if user.tier ≠ tierFree then ⊤
  else
    let used := if user.quotaDate = some today then user.minutesUsedToday else 0
    ((max 0 ((freeDaily : ℚ) - used) : ℚ) : WithTop ℚ)

/-- `record_usage`. -/
def recordUsage (user : User) (minutes : ℚ) (today : Day) : User :=
  let user := if user.quotaDate ≠ some today then
      { user with quotaDate := some today, minutesUsedToday := 0 }
    else user
  { user with minutesUsedToday := user.minutesUsedToday + minutes }

/-- The minutes the counter holds for a day. -/
def User.usedOn (user : User) (day : Day) : ℚ :=
  if user.quotaDate = some day then user.minutesUsedToday else 0

theorem remainingMinutes_free {user : User} (h : user.tier = tierFree) (freeDaily : Int)
    (today : Day) : remainingMinutes user freeDaily today =
      ((max 0 ((freeDaily : ℚ) - user.usedOn today) : ℚ) : WithTop ℚ) := by
  simp [remainingMinutes, User.usedOn, h]

theorem remainingMinutes_paid {user : User} (h : user.tier ≠ tierFree) (freeDaily : Int)
    (today : Day) : remainingMinutes user freeDaily today = ⊤ := by
  simp [remainingMinutes, h]

@[simp] theorem recordUsage_id (user : User) (minutes : ℚ) (today : Day) :
    (recordUsage user minutes today).id = user.id := by
  simp only [recordUsage]; split <;> rfl

@[simp] theorem recordUsage_tier (user : User) (minutes : ℚ) (today : Day) :
    (recordUsage user minutes today).tier = user.tier := by
  simp only [recordUsage]; split <;> rfl

@[simp] theorem recordUsage_quotaDate (user : User) (minutes : ℚ) (today : Day) :
    (recordUsage user minutes today).quotaDate = some today := by
  by_cases h : user.quotaDate = some today <;> simp [recordUsage, h]

@[simp] theorem recordUsage_currentStreak (user : User) (minutes : ℚ) (today : Day) :
    (recordUsage user minutes today).currentStreak = user.currentStreak := by
  simp only [recordUsage]; split <;> rfl

@[simp] theorem recordUsage_longestStreak (user : User) (minutes : ℚ) (today : Day) :
    (recordUsage user minutes today).longestStreak = user.longestStreak := by
  simp only [recordUsage]; split <;> rfl

@[simp] theorem recordUsage_lastActiveDate (user : User) (minutes : ℚ) (today : Day) :
    (recordUsage user minutes today).lastActiveDate = user.lastActiveDate := by
  simp only [recordUsage]; split <;> rfl

theorem recordUsage_minutesUsedToday (user : User) (minutes : ℚ) (today : Day) :
    (recordUsage user minutes today).minutesUsedToday = user.usedOn today + minutes := by
  by_cases h : user.quotaDate = some today <;> simp [recordUsage, User.usedOn, h]

/-- A charge adds its minutes to its own day. -/
@[simp] theorem usedOn_recordUsage_same (user : User) (minutes : ℚ) (today : Day) :
    (recordUsage user minutes today).usedOn today = user.usedOn today + minutes := by
  rw [User.usedOn, recordUsage_quotaDate, if_pos rfl, recordUsage_minutesUsedToday]

/-- A charge forgets what the counter held for every other day. -/
theorem usedOn_recordUsage_other (user : User) (minutes : ℚ) {today day : Day} (h : day ≠ today) :
    (recordUsage user minutes today).usedOn day = 0 := by
  rw [User.usedOn, recordUsage_quotaDate, if_neg]
  simpa using Ne.symm h

/-- The remaining minutes of a day fall exactly as its used minutes grow. -/
theorem remainingMinutes_antitone {user user' : User} (ht : user'.tier = user.tier)
    (freeDaily : Int) {day : Day} (hu : user.usedOn day ≤ user'.usedOn day) :
    remainingMinutes user' freeDaily day ≤ remainingMinutes user freeDaily day := by
  by_cases h : user.tier = tierFree
  · rw [remainingMinutes_free h, remainingMinutes_free (ht.trans h), WithTop.coe_le_coe]
    exact max_le_max le_rfl (by linarith)
  · rw [remainingMinutes_paid h]
    exact le_top

end Apm.Core
