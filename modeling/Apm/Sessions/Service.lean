import Apm.Sessions.Activity
import Apm.Streaks.Logic

/-!
# The session service: what each locked section does

`start`, `end` and `record_turn_activity` take the user row lock and then work
on loaded rows. This file translates those sections as functions of the rows
they have in memory; the modules after it interleave, repeat or lock them. A
section that the source leaves without committing returns no rows.
-/

namespace Apm.Sessions

open Apm.Core Apm.Streaks

set_option autoImplicit false

/-- The settings the service is built with. -/
structure Settings where
  freeDaily : Int
  turnMeterCap : ℚ
  inactivityTimeout : ℚ

/-- The shipped settings: 10 minutes a day, 5 minutes a turn, 30 minutes idle. -/
def shipped : Settings := ⟨10, 5, 30⟩

/-- The metering columns of a row of `sessions`. -/
structure ConversationSession where
  userId : Int
  startedAt : Instant
  lastActivityAt : Instant
  endedAt : Option Instant
  durationMinutes : Option ℚ
  deriving DecidableEq, Repr

/-- `duration_minutes or 0.0`. -/
def ConversationSession.billed (session : ConversationSession) : ℚ :=
  session.durationMinutes.getD 0

/-- `_MAX_PRACTICE_SKEW`: 48 hours. -/
def maxPracticeSkew : Int := 48 * microsPerHour

/-- `clamp_practiced_at`. -/
def clampPracticedAt (raw : Option Instant) (now : Instant) : Instant :=
  match raw with
  | none => now
  | some raw => if raw > now ∨ now - raw > maxPracticeSkew then now else raw

/-- One call of `record_usage`. -/
structure Usage where
  minutes : ℚ
  today : Day
  deriving DecidableEq, Repr

/-- The call guarded by `minutes > 0`. -/
def usageOf (minutes : ℚ) (now : Instant) : Option Usage :=
  if 0 < minutes then some ⟨minutes, date now⟩ else none

def charge (user : User) (usage : Option Usage) : User :=
  match usage with
  | some u => recordUsage user u.minutes u.today
  | none => user

/-- The minutes a section hands to `record_usage`. -/
def usageMinutes (usage : Option Usage) : ℚ := (usage.map (·.minutes)).getD 0

/-- The gap `_close_session` bills. -/
def residual (cap : ℚ) (session : ConversationSession) (now : Instant) : ℚ :=
  elapsedMinutes session.lastActivityAt now (some cap)

/-- `_close_session` on the session row. -/
def closeSession (cap : ℚ) (session : ConversationSession) (now : Instant) : ConversationSession :=
  { session with
    endedAt := some now
    durationMinutes := some (session.billed + residual cap session now) }

/-- `_close_session` on the user row. -/
def closeUser (cap : ℚ) (session : ConversationSession) (user : User) (now : Instant) : User :=
  charge user (usageOf (residual cap session now) now)

/-- `record_turn_activity` on the session row, after the lock and the refresh.
The charge `minutes` was computed before the lock. -/
def meterSession (minutes : ℚ) (session : ConversationSession) (now : Instant) :
    ConversationSession :=
  { session with
    lastActivityAt := now
    durationMinutes := if 0 < minutes then some (session.billed + minutes)
      else session.durationMinutes }

/-- `record_turn_activity` on the user row. -/
def meterUser (minutes : ℚ) (user : User) (now : Instant) : User :=
  applyActiveDay (charge user (usageOf minutes now)) (date now)

/-- The four readings of the wall clock in `start`. -/
structure StartClock where
  checked : Instant
  now : Instant
  startedAt : Instant
  lastActivityAt : Instant

inductive StartError where
  | quotaExhausted
  | activeSessionExists
  | missionNotFound
  deriving DecidableEq, Repr

/-- What `start` returns or raises, and the rows it committed. -/
structure StartOutcome where
  result : Except StartError Nat
  committed : Option (User × List ConversationSession)

/-- `get_active_for_user`. The list is the table in the order of its ids. -/
def getActiveForUser (sessions : List ConversationSession) (userId : Int) : Option Nat :=
  sessions.findIdx? fun s => decide (s.userId = userId) && s.endedAt.isNone

/-- The end of `start`: the mission check, the insert and the single commit. -/
def openSession (t : StartClock) (missionOwned : Bool) (user : User)
    (sessions : List ConversationSession) : StartOutcome :=
  if missionOwned then
    { result := .ok sessions.length
      committed := some (user, sessions ++
        [⟨user.id, t.startedAt, t.lastActivityAt, none, none⟩]) }
  else ⟨.error .missionNotFound, none⟩

/-- `start`, from the lock to its commit or its exception. -/
def start (cfg : Settings) (t : StartClock) (missionOwned : Bool) (user : User)
    (sessions : List ConversationSession) : StartOutcome :=
  if remainingMinutes user cfg.freeDaily (date t.checked) ≤ 0 then
    ⟨.error .quotaExhausted, none⟩
  else
    match getActiveForUser sessions user.id with
    | none => openSession t missionOwned user sessions
    | some i =>
      match sessions[i]? with
      | none => openSession t missionOwned user sessions
      | some active =>
        if isStale active.lastActivityAt t.now cfg.inactivityTimeout then
          let reaped := closeUser cfg.turnMeterCap active user t.now
          let closed := sessions.set i (closeSession cfg.turnMeterCap active t.now)
          -- the reap is committed before the refusal; every other refusal rolls back
          if remainingMinutes reaped cfg.freeDaily (date t.now) ≤ 0 then
            ⟨.error .quotaExhausted, some (reaped, closed)⟩
          else openSession t missionOwned reaped closed
        else ⟨.error .activeSessionExists, none⟩

/-- `end`, after the lock and the refresh. -/
def endSession (cfg : Settings) (id : Nat) (now : Instant) (user : User)
    (sessions : List ConversationSession) : Option (User × List ConversationSession) :=
  match sessions[id]? with
  | none => none
  | some session =>
    if session.userId ≠ user.id ∨ session.endedAt ≠ none then none
    else some (closeUser cfg.turnMeterCap session user now,
      sessions.set id (closeSession cfg.turnMeterCap session now))

/-- `record_turn_activity`, after the lock and the refresh. -/
def recordTurnActivity (id : Nat) (minutes : ℚ) (now : Instant) (user : User)
    (sessions : List ConversationSession) : Option (User × List ConversationSession) :=
  match sessions[id]? with
  | none => none
  | some session =>
    if session.userId ≠ user.id ∨ session.endedAt ≠ none then none
    else some (meterUser minutes user now, sessions.set id (meterSession minutes session now))

theorem clampPracticedAt_le (raw : Option Instant) (now : Instant) :
    clampPracticedAt raw now ≤ now := by
  cases raw with
  | none => exact le_rfl
  | some raw =>
    simp only [clampPracticedAt]
    split_ifs with h
    · exact le_rfl
    · exact not_lt.mp (not_or.mp h).1

section rows

variable (cap minutes : ℚ) (session : ConversationSession) (user : User) (now : Instant)

@[simp] theorem closeSession_startedAt :
    (closeSession cap session now).startedAt = session.startedAt := rfl
@[simp] theorem closeSession_lastActivityAt :
    (closeSession cap session now).lastActivityAt = session.lastActivityAt := rfl
@[simp] theorem closeSession_endedAt : (closeSession cap session now).endedAt = some now := rfl
@[simp] theorem closeSession_userId : (closeSession cap session now).userId = session.userId := rfl
@[simp] theorem closeSession_billed :
    (closeSession cap session now).billed = session.billed + residual cap session now := rfl

@[simp] theorem meterSession_startedAt :
    (meterSession minutes session now).startedAt = session.startedAt := rfl
@[simp] theorem meterSession_lastActivityAt :
    (meterSession minutes session now).lastActivityAt = now := rfl
@[simp] theorem meterSession_endedAt :
    (meterSession minutes session now).endedAt = session.endedAt := rfl
@[simp] theorem meterSession_userId :
    (meterSession minutes session now).userId = session.userId := rfl

@[simp] theorem usageMinutes_none : usageMinutes none = 0 := rfl

theorem usageMinutes_usageOf : usageMinutes (usageOf minutes now) = max 0 minutes := by
  by_cases h : 0 < minutes
  · simp [usageMinutes, usageOf, h, max_eq_right h.le]
  · simp [usageMinutes, usageOf, h, max_eq_left (not_lt.mp h)]

theorem meterSession_billed :
    (meterSession minutes session now).billed = session.billed + max 0 minutes := by
  by_cases h : 0 < minutes
  · simp [meterSession, ConversationSession.billed, h, max_eq_right h.le]
  · simp [meterSession, ConversationSession.billed, h, max_eq_left (not_lt.mp h)]

@[simp] theorem charge_id (usage : Option Usage) : (charge user usage).id = user.id := by
  cases usage <;> simp [charge]
@[simp] theorem charge_tier (usage : Option Usage) : (charge user usage).tier = user.tier := by
  cases usage <;> simp [charge]

/-- What a guarded charge leaves on the counter for a day. -/
theorem usedOn_charge (day : Day) : (charge user (usageOf minutes now)).usedOn day =
    if 0 < minutes then (if day = date now then user.usedOn day + minutes else 0)
    else user.usedOn day := by
  by_cases hm : 0 < minutes
  · by_cases hd : day = date now
    · simp [usageOf, charge, hm, hd]
    · simp [usageOf, charge, hm, hd, usedOn_recordUsage_other user minutes hd]
  · simp [usageOf, charge, hm]

@[simp] theorem closeUser_id : (closeUser cap session user now).id = user.id := charge_id ..
@[simp] theorem closeUser_tier : (closeUser cap session user now).tier = user.tier := charge_tier ..
@[simp] theorem meterUser_id : (meterUser minutes user now).id = user.id := charge_id ..
@[simp] theorem meterUser_tier : (meterUser minutes user now).tier = user.tier := charge_tier ..

end rows

end Apm.Sessions
