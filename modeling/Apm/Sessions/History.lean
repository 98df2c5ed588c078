import Apm.Lib.Run
import Apm.Sessions.Billing

/-!
# The operations of one account, one at a time

Session starts, conversation turns and session ends run one after another on the
user row and the table of sessions. Every operation reads the wall clock, which
never goes back. A turn is metered at its practice instant, clamped to the last
48 hours of the clock of its persist.

The ledger records each call of `record_usage` that was committed, with the
session it was made for; no section of the service reads it.
-/

namespace Apm.Sessions

open Apm.Core

set_option autoImplicit false

/-- One committed call of `record_usage`. -/
structure Charge where
  session : Nat
  usage : Usage
  /-- no minute of its day remained when it was made -/
  spent : Bool
  deriving DecidableEq, Repr

structure Account where
  /-- the latest instant an operation has read -/
  clock : Instant
  user : User
  sessions : List ConversationSession
  charges : List Charge

inductive Op where
  | start (t : StartClock) (missionOwned : Bool)
  | turn (id : Nat) (practicedAt : Option Instant) (now : Instant)
  | endSession (id : Nat) (now : Instant)

/-- A registered user, before any session. -/
def registered (clock : Instant) (id : Int) (tier : String) : Account :=
  ⟨clock, ⟨id, tier, none, 0, 0, 0, none⟩, [], []⟩

/-- The session a turn or an end works on: the caller's own, not ended. -/
def Account.live (w : Account) (id : Nat) : Option ConversationSession :=
  w.sessions[id]?.filter fun s => decide (s.userId = w.user.id ∧ s.endedAt = none)

def Account.record (cfg : Settings) (w : Account) (id : Nat) (usage : Option Usage) :
    List Charge :=
  w.charges ++ (usage.map fun u =>
    ⟨id, u, decide (remainingMinutes w.user cfg.freeDaily u.today ≤ 0)⟩).toList

/-- The session `start` reaps, with its position. -/
def reaped (cfg : Settings) (now : Instant) (user : User) (sessions : List ConversationSession) :
    Option (Nat × ConversationSession) := do
  let i ← getActiveForUser sessions user.id
  let active ← sessions[i]?
  if isStale active.lastActivityAt now cfg.inactivityTimeout then some (i, active) else none

/-- The rows and the ledger after an operation whose commit wrote `rows`. -/
def Account.commit (cfg : Settings) (w : Account) (clock : Instant)
    (charged : Option (Nat × Option Usage)) (rows : Option (User × List ConversationSession)) :
    Account :=
  match rows with
  | none => { w with clock := clock }
  | some (user, sessions) =>
    { clock := clock
      user := user
      sessions := sessions
      charges := match charged with
        | none => w.charges
        | some (id, usage) => w.record cfg id usage }

/-- One operation. An instant behind the clock has no step. -/
def step (cfg : Settings) (w : Account) : Op → Option Account
  | .start t missionOwned =>
    if w.clock ≤ t.checked ∧ t.checked ≤ t.now ∧ t.now ≤ t.startedAt ∧
        t.startedAt ≤ t.lastActivityAt then
      some (w.commit cfg t.lastActivityAt
        ((reaped cfg t.now w.user w.sessions).map fun r =>
          (r.1, usageOf (residual cfg.turnMeterCap r.2 t.now) t.now))
        (start cfg t missionOwned w.user w.sessions).committed)
    else none
  | .turn id practicedAt now =>
    if w.clock ≤ now then
      let practiced := clampPracticedAt practicedAt now
      some <| match w.sessions[id]? with
        | none => { w with clock := now }
        | some session =>
          let minutes := elapsedMinutes session.lastActivityAt practiced (some cfg.turnMeterCap)
          w.commit cfg now (some (id, usageOf minutes practiced))
            (recordTurnActivity id minutes practiced w.user w.sessions)
    else none
  | .endSession id now =>
    if w.clock ≤ now then
      some <| match w.sessions[id]? with
        | none => { w with clock := now }
        | some session =>
          w.commit cfg now (some (id, usageOf (residual cfg.turnMeterCap session now) now))
            (endSession cfg id now w.user w.sessions)
    else none

/-! ## What an operation can do -/

/-- The turn of a live session. -/
def Account.meter (cfg : Settings) (w : Account) (id : Nat) (s : ConversationSession)
    (practiced now : Instant) : Account :=
  let minutes := elapsedMinutes s.lastActivityAt practiced (some cfg.turnMeterCap)
  { clock := now
    user := meterUser minutes w.user practiced
    sessions := w.sessions.set id (meterSession minutes s practiced)
    charges := w.record cfg id (usageOf minutes practiced) }

/-- The end or the reap of a live session. -/
def Account.close (cfg : Settings) (w : Account) (id : Nat) (s : ConversationSession)
    (now : Instant) : Account :=
  { clock := now
    user := closeUser cfg.turnMeterCap s w.user now
    sessions := w.sessions.set id (closeSession cfg.turnMeterCap s now)
    charges := w.record cfg id (usageOf (residual cfg.turnMeterCap s now) now) }

/-- A new session. -/
def Account.add (w : Account) (startedAt lastActivityAt : Instant) : Account :=
  { w with
    clock := lastActivityAt
    sessions := w.sessions ++ [⟨w.user.id, startedAt, lastActivityAt, none, none⟩] }

theorem live_eq_some_iff {w : Account} {id : Nat} {s : ConversationSession} :
    w.live id = some s ↔ w.sessions[id]? = some s ∧ s.userId = w.user.id ∧ s.endedAt = none := by
  simp [Account.live, Option.filter_eq_some_iff]

/-- A turn meters the live session, or does nothing but read the clock. -/
theorem step_turn {cfg : Settings} {w w' : Account} {id : Nat} {practicedAt : Option Instant}
    {now : Instant} (h : step cfg w (.turn id practicedAt now) = some w') :
    w.clock ≤ now ∧
      ((w.live id = none ∧ w' = { w with clock := now }) ∨
        ∃ s, w.live id = some s ∧ w' = w.meter cfg id s (clampPracticedAt practicedAt now) now) := by
  simp only [step] at h
  split_ifs at h with hclock
  refine ⟨hclock, ?_⟩
  cases hs : w.sessions[id]? with
  | none =>
    rw [hs] at h
    exact .inl ⟨by simp [Account.live, hs], (Option.some.inj h).symm⟩
  | some s =>
    rw [hs] at h
    by_cases hlive : s.userId = w.user.id ∧ s.endedAt = none
    · refine .inr ⟨s, live_eq_some_iff.mpr ⟨hs, hlive⟩, ?_⟩
      rw [← Option.some.inj h]
      simp [recordTurnActivity, hs, hlive.1, hlive.2, Account.commit, Account.meter]
    · refine .inl ⟨by simpa [Account.live, hs] using hlive, ?_⟩
      have hnot : s.userId ≠ w.user.id ∨ s.endedAt ≠ none := not_and_or.mp hlive
      rw [← Option.some.inj h]
      simp [recordTurnActivity, hs, hnot, Account.commit]

/-- An end closes the live session, or does nothing but read the clock. -/
theorem step_end {cfg : Settings} {w w' : Account} {id : Nat} {now : Instant}
    (h : step cfg w (.endSession id now) = some w') :
    w.clock ≤ now ∧
      (w' = { w with clock := now } ∨
        ∃ s, w.live id = some s ∧ w' = w.close cfg id s now) := by
  simp only [step] at h
  split_ifs at h with hclock
  refine ⟨hclock, ?_⟩
  cases hs : w.sessions[id]? with
  | none =>
    rw [hs] at h
    exact .inl (Option.some.inj h).symm
  | some s =>
    rw [hs] at h
    by_cases hlive : s.userId = w.user.id ∧ s.endedAt = none
    · refine .inr ⟨s, live_eq_some_iff.mpr ⟨hs, hlive⟩, ?_⟩
      rw [← Option.some.inj h]
      simp [endSession, hs, hlive.1, hlive.2, Account.commit, Account.close]
    · have hnot : s.userId ≠ w.user.id ∨ s.endedAt ≠ none := not_and_or.mp hlive
      rw [← Option.some.inj h]
      exact .inl (by simp [endSession, hs, hnot, Account.commit])

theorem getActiveForUser_spec {sessions : List ConversationSession} {userId : Int} {i : Nat}
    (h : getActiveForUser sessions userId = some i) :
    ∃ s, sessions[i]? = some s ∧ s.userId = userId ∧ s.endedAt = none := by
  simp only [getActiveForUser, List.findIdx?_eq_some_iff_getElem] at h
  obtain ⟨hi, hp, -⟩ := h
  refine ⟨sessions[i], List.getElem?_eq_getElem hi, ?_⟩
  simpa using hp

/-- The four ways a start ends. It refuses without a commit; it opens a session
at once; it reaps the abandoned session and refuses; it reaps and opens. -/
inductive Started (cfg : Settings) (t : StartClock) (w : Account) : Account → Prop where
  | refused : Started cfg t w { w with clock := t.lastActivityAt }
  | opened (hquota : ¬remainingMinutes w.user cfg.freeDaily (date t.checked) ≤ 0) :
      Started cfg t w (w.add t.startedAt t.lastActivityAt)
  | reapedOnly (id : Nat) (s : ConversationSession) (hlive : w.live id = some s) :
      Started cfg t w { w.close cfg id s t.now with clock := t.lastActivityAt }
  | reapedThenOpened (id : Nat) (s : ConversationSession) (hlive : w.live id = some s)
      (hquota : ¬remainingMinutes w.user cfg.freeDaily (date t.checked) ≤ 0)
      (hafter : ¬remainingMinutes (w.close cfg id s t.now).user cfg.freeDaily (date t.now) ≤ 0) :
      Started cfg t w ((w.close cfg id s t.now).add t.startedAt t.lastActivityAt)

theorem step_start {cfg : Settings} {w w' : Account} {t : StartClock} {missionOwned : Bool}
    (h : step cfg w (.start t missionOwned) = some w') :
    (w.clock ≤ t.checked ∧ t.checked ≤ t.now ∧ t.now ≤ t.startedAt ∧
      t.startedAt ≤ t.lastActivityAt) ∧ Started cfg t w w' := by
  simp only [step] at h
  split_ifs at h with hclock
  refine ⟨hclock, ?_⟩
  rw [← Option.some.inj h]
  by_cases hquota : remainingMinutes w.user cfg.freeDaily (date t.checked) ≤ 0
  · simp only [start, hquota, if_true, Account.commit]
    exact .refused
  cases hactive : getActiveForUser w.sessions w.user.id with
  | none =>
    have hnone : reaped cfg t.now w.user w.sessions = none := by simp [reaped, hactive]
    simp only [start, hquota, if_false, hactive, openSession, hnone, Option.map_none]
    cases missionOwned
    · exact .refused
    · exact .opened hquota
  | some i =>
    obtain ⟨s, hs, howned⟩ := getActiveForUser_spec hactive
    have hlive : w.live i = some s := live_eq_some_iff.mpr ⟨hs, howned⟩
    simp only [start, hquota, if_false, hactive, hs]
    by_cases hstale : isStale s.lastActivityAt t.now cfg.inactivityTimeout
    · have hreaped : reaped cfg t.now w.user w.sessions = some (i, s) := by
        simp [reaped, hactive, hs, hstale]
      simp only [hstale, if_true, hreaped, Option.map_some]
      split_ifs with hafter
      · exact .reapedOnly i s hlive
      · cases missionOwned
        · exact .refused
        · exact .reapedThenOpened i s hlive hquota hafter
    · simp only [hstale]
      exact .refused

/-! ## The ledger -/

/-- The minutes of the recorded charges that satisfy `p`. -/
def billedWhere (p : Charge → Bool) (charges : List Charge) : ℚ :=
  ((charges.filter p).map (·.usage.minutes)).sum

/-- The minutes charged to a day. -/
def Account.chargedOn (w : Account) (day : Day) : ℚ :=
  billedWhere (fun c => c.usage.today = day) w.charges

/-- The minutes charged for a session. -/
def Account.chargedTo (w : Account) (id : Nat) : ℚ :=
  billedWhere (fun c => c.session = id) w.charges

/-- The number of charges made to a day of which no minute remained. -/
def Account.spentOn (w : Account) (day : Day) : Nat :=
  w.charges.countP fun c => c.usage.today = day && c.spent

theorem billedWhere_append_singleton (p : Charge → Bool) (charges : List Charge) (c : Charge) :
    billedWhere p (charges ++ [c]) = billedWhere p charges + if p c then c.usage.minutes else 0 := by
  simp only [billedWhere, List.filter_append, List.map_append, List.sum_append]
  split <;> simp [*]

section record

variable {cfg : Settings} {w w' : Account} {id : Nat} {u : Usage}

theorem chargedOn_record (h : w'.charges = w.record cfg id (some u)) (day : Day) :
    w'.chargedOn day = w.chargedOn day + if u.today = day then u.minutes else 0 := by
  simp only [Account.chargedOn, h, Account.record, Option.map_some, Option.toList_some,
    billedWhere_append_singleton, decide_eq_true_eq]

theorem chargedTo_record {usage : Option Usage} (h : w'.charges = w.record cfg id usage)
    (session : Nat) :
    w'.chargedTo session = w.chargedTo session + if id = session then usageMinutes usage else 0 := by
  cases usage with
  | none => simp [Account.chargedTo, h, Account.record]
  | some u =>
    simp only [Account.chargedTo, h, Account.record, Option.map_some, Option.toList_some,
      billedWhere_append_singleton, decide_eq_true_eq]
    rfl

theorem spentOn_record (h : w'.charges = w.record cfg id (some u)) (day : Day) :
    w'.spentOn day = w.spentOn day +
      if u.today = day ∧ remainingMinutes w.user cfg.freeDaily u.today ≤ 0 then 1 else 0 := by
  simp [Account.spentOn, h, Account.record, List.countP_append, List.countP_singleton]

end record

@[simp] theorem record_none (cfg : Settings) (w : Account) (id : Nat) :
    w.record cfg id none = w.charges := by
  simp [Account.record]

end Apm.Sessions
