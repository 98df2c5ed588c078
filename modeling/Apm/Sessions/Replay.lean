import Apm.Sessions.History

/-!
# Replayed turns and the billing mark

`last_activity_at` is the mark up to which a session is billed, and a replayed
turn sets it to its practice instant. While no turn is metered behind the mark,
each row keeps the relation of `Billing` with the ledger of its account.
-/

namespace Apm.Sessions

open Apm.Core Apm.Lib

set_option autoImplicit false

/-- Every row is billed within the wall clock, and so are its charges to the quota. -/
structure WithinClock (w : Account) : Prop where
  row : ∀ id s, w.sessions[id]? = some s →
    Billing s.startedAt w.clock s (w.chargedTo id) ∧ s.lastActivityAt ≤ w.clock
  fresh : ∀ id, w.sessions.length ≤ id → w.chargedTo id = 0

theorem WithinClock.tick {w : Account} (h : WithinClock w) {clock : Instant}
    (hle : w.clock ≤ clock) : WithinClock { w with clock := clock } where
  row := fun id s hs => ⟨(h.row id s hs).1.mono hle, (h.row id s hs).2.trans hle⟩
  fresh := h.fresh

theorem WithinClock.add {w : Account} (h : WithinClock w) {startedAt lastActivityAt : Instant}
    (hle : w.clock ≤ startedAt) (hlast : startedAt ≤ lastActivityAt) :
    WithinClock (w.add startedAt lastActivityAt) where
  row := by
    intro id s hs
    rcases lt_trichotomy id w.sessions.length with hlt | heq | hgt
    · simp only [Account.add, List.getElem?_append_left hlt] at hs
      have hrow := h.row id s hs
      exact ⟨hrow.1.mono (hle.trans hlast), hrow.2.trans (hle.trans hlast)⟩
    · simp only [Account.add, heq, List.getElem?_concat_length, Option.some.injEq] at hs
      have hzero : (w.add startedAt lastActivityAt).chargedTo id = 0 := h.fresh id heq.ge
      rw [hzero, ← hs]
      have hgap := minutesBetween_nonneg hlast
      exact ⟨⟨rfl, hlast, ⟨hgap, fun _ => hgap⟩, ⟨hgap, fun _ => hgap⟩⟩, le_rfl⟩
    · rw [List.getElem?_eq_none (by simp [Account.add]; omega)] at hs
      cases hs
  fresh := fun id hid => h.fresh id (by simp [Account.add] at hid; omega)

/-- One row was replaced and its usage recorded. -/
theorem WithinClock.set {cfg : Settings} {w w' : Account} (h : WithinClock w) {id : Nat}
    {s r : ConversationSession} {usage : Option Usage} (hs : w.sessions[id]? = some s)
    (hle : w.clock ≤ w'.clock) (hsessions : w'.sessions = w.sessions.set id r)
    (hcharges : w'.charges = w.record cfg id usage)
    (hr : Billing s.startedAt w'.clock r (w.chargedTo id + usageMinutes usage))
    (hmark : r.lastActivityAt ≤ w'.clock) : WithinClock w' where
  row := by
    intro k s' hk
    have hlt : id < w.sessions.length := (List.getElem?_eq_some_iff.mp hs).1
    rw [hsessions] at hk
    rw [chargedTo_record hcharges]
    by_cases heq : id = k
    · subst heq
      rw [List.getElem?_set_self hlt, Option.some.injEq] at hk
      subst hk
      rw [if_pos rfl]
      exact ⟨{ hr with startedAt := rfl }, hmark⟩
    · rw [List.getElem?_set_ne heq] at hk
      rw [if_neg heq, add_zero]
      exact ⟨(h.row k s' hk).1.mono hle, (h.row k s' hk).2.trans hle⟩
  fresh := by
    intro k hk
    rw [hsessions, List.length_set] at hk
    have hlt : id < w.sessions.length := (List.getElem?_eq_some_iff.mp hs).1
    rw [chargedTo_record hcharges, if_neg (by omega), add_zero]
    exact h.fresh k hk

theorem WithinClock.meter {w : Account} (h : WithinClock w) (cfg : Settings) {id : Nat}
    {s : ConversationSession} (hlive : w.live id = some s) {practiced now : Instant}
    (hle : w.clock ≤ now) (hmark : s.lastActivityAt ≤ practiced) (hp : practiced ≤ now) :
    WithinClock (w.meter cfg id s practiced now) := by
  obtain ⟨hs, -, hopen⟩ := live_eq_some_iff.mp hlive
  exact h.set hs hle rfl rfl (((h.row id s hs).1.mono hle).meter cfg.turnMeterCap hopen hmark hp) hp

theorem WithinClock.close {w : Account} (h : WithinClock w) (cfg : Settings) {id : Nat}
    {s : ConversationSession} (hlive : w.live id = some s) {now : Instant} (hle : w.clock ≤ now) :
    WithinClock (w.close cfg id s now) := by
  obtain ⟨hs, -, hopen⟩ := live_eq_some_iff.mp hlive
  have hrow := h.row id s hs
  exact h.set hs hle rfl rfl ((hrow.1.mono hle).close cfg.turnMeterCap hopen le_rfl)
    (hrow.2.trans hle)

/-- The marks of the sessions did not move back. -/
def MarksKept (w w' : Account) : Prop :=
  ∀ (id : Nat) (s s' : ConversationSession), w.sessions[id]? = some s →
    w'.sessions[id]? = some s' → s.lastActivityAt ≤ s'.lastActivityAt

theorem MarksKept.of_eq {w w' : Account} (h : w'.sessions = w.sessions) : MarksKept w w' := by
  intro id s s' hs hs'
  rw [h, hs, Option.some.injEq] at hs'
  rw [hs']

theorem MarksKept.add {w w' : Account} (h : MarksKept w w')
    (hlen : w.sessions.length ≤ w'.sessions.length) (startedAt lastActivityAt : Instant) : MarksKept w (w'.add startedAt lastActivityAt) := by
  intro id s s' hs hs'
  have hlt := (List.getElem?_eq_some_iff.mp hs).1
  simp only [Account.add, List.getElem?_append_left (hlt.trans_le hlen)] at hs'
  exact h id s s' hs hs'

theorem marksKept_set_iff {w w' : Account} {id : Nat} {s r : ConversationSession}
    (hs : w.sessions[id]? = some s) (h : w'.sessions = w.sessions.set id r) :
    MarksKept w w' ↔ s.lastActivityAt ≤ r.lastActivityAt := by
  have hlt := (List.getElem?_eq_some_iff.mp hs).1
  constructor
  · exact fun hk => hk id s r hs (by rw [h, List.getElem?_set_self hlt])
  · intro hle k t t' ht ht'
    rw [h] at ht'
    by_cases heq : id = k
    · subst heq
      rw [List.getElem?_set_self hlt, Option.some.injEq] at ht'
      rw [hs, Option.some.injEq] at ht
      rw [← ht, ← ht']
      exact hle
    · rw [List.getElem?_set_ne heq, ht, Option.some.injEq] at ht'
      rw [ht']

/-- No mark moves back, and afterwards each session is billed, on its row and to
the quota, at most the time from its start to the clock of the operation. -/
def billsForward (w : Account) (_ : Op) (w' : Account) : Prop :=
  MarksKept w w' ∧ ∀ id s, w'.sessions[id]? = some s →
    s.billed ≤ minutesBetween s.startedAt w'.clock ∧
      w'.chargedTo id ≤ minutesBetween s.startedAt w'.clock

/-- A turn is metered at an instant before the last activity of its session. -/
def behindMark (w : Account) : Op → Prop
  | .turn id practicedAt now =>
    (w.live id).any fun s => clampPracticedAt practicedAt now < s.lastActivityAt
  | _ => False

instance (w : Account) (op : Op) : Decidable (behindMark w op) :=
  match op with
  | .start .. => inferInstanceAs (Decidable False)
  | .turn .. => inferInstanceAs (Decidable (_ = _))
  | .endSession .. => inferInstanceAs (Decidable False)

/-- Marks move back exactly by turns behind the mark. -/
theorem marksKept_step_iff {cfg : Settings} {w w' : Account} {op : Op}
    (hstep : step cfg w op = some w') : MarksKept w w' ↔ ¬behindMark w op := by
  have hclose : ∀ id s now, w.live id = some s → MarksKept w (w.close cfg id s now) :=
    fun id s now hlive => (marksKept_set_iff (r := closeSession cfg.turnMeterCap s now)
      (live_eq_some_iff.mp hlive).1 rfl).mpr le_rfl
  cases op with
  | start t missionOwned =>
    refine iff_of_true ?_ not_false
    cases (step_start hstep).2 with
    | refused => exact .of_eq rfl
    | opened _ => exact MarksKept.add (.of_eq rfl) le_rfl t.startedAt t.lastActivityAt
    | reapedOnly id s hlive => exact hclose id s t.now hlive
    | reapedThenOpened id s hlive _ _ =>
      exact MarksKept.add (hclose id s t.now hlive) (by simp [Account.close])
        t.startedAt t.lastActivityAt
  | turn id practicedAt now =>
    obtain ⟨-, ⟨hnone, rfl⟩ | ⟨s, hlive, rfl⟩⟩ := step_turn hstep
    · exact iff_of_true (.of_eq rfl) (by simp [behindMark, hnone])
    · rw [marksKept_set_iff (live_eq_some_iff.mp hlive).1 rfl]
      simp [behindMark, hlive]
  | endSession id now =>
    refine iff_of_true ?_ not_false
    obtain ⟨-, rfl | ⟨s, hlive, rfl⟩⟩ := step_end hstep
    · exact .of_eq rfl
    · exact hclose id s now hlive

theorem withinClock_step {cfg : Settings} {w w' : Account} {op : Op} (h : WithinClock w)
    (hg : ¬behindMark w op) (hstep : step cfg w op = some w') : WithinClock w' := by
  cases op with
  | start t missionOwned =>
    obtain ⟨⟨h₁, h₂, h₃, h₄⟩, hs⟩ := step_start hstep
    have hnow : w.clock ≤ t.now := h₁.trans h₂
    cases hs with
    | refused => exact h.tick (hnow.trans (h₃.trans h₄))
    | opened _ => exact h.add (hnow.trans h₃) h₄
    | reapedOnly id s hlive => exact (h.close cfg hlive hnow).tick (h₃.trans h₄)
    | reapedThenOpened id s hlive _ _ => exact (h.close cfg hlive hnow).add h₃ h₄
  | turn id practicedAt now =>
    obtain ⟨hclock, ⟨-, rfl⟩ | ⟨s, hlive, rfl⟩⟩ := step_turn hstep
    · exact h.tick hclock
    · have hmark : s.lastActivityAt ≤ clampPracticedAt practicedAt now := by
        simpa [behindMark, hlive] using hg
      exact h.meter cfg hlive hclock hmark (clampPracticedAt_le practicedAt now)
  | endSession id now =>
    obtain ⟨hclock, rfl | ⟨s, hlive, rfl⟩⟩ := step_end hstep
    · exact h.tick hclock
    · exact h.close cfg hlive hclock

theorem billsForward_step_iff {cfg : Settings} {w w' : Account} {op : Op} (h : WithinClock w)
    (hstep : step cfg w op = some w') : billsForward w op w' ↔ ¬behindMark w op := by
  rw [← marksKept_step_iff hstep]
  refine ⟨And.left, fun hm => ⟨hm, fun id s hs => ?_⟩⟩
  have hb := ((withinClock_step h ((marksKept_step_iff hstep).mp hm) hstep).row id s hs).1
  exact ⟨hb.session.elapsed, hb.user.elapsed⟩

theorem withinClock_registered (clock : Instant) (id : Int) (tier : String) :
    WithinClock (registered clock id tier) :=
  ⟨fun _ _ hs => by simp [registered] at hs, fun _ _ => rfl⟩

theorem along_billsForward_iff (cfg : Settings) {w : Account} (h : WithinClock w) (ops : List Op) :
    Along (step cfg) billsForward w ops ↔
      Along (step cfg) (fun w op _ => ¬behindMark w op) w ops :=
  along_iff_of_invariant (I := WithinClock)
    (fun w op w' hi (hs : step cfg w op = some w') => billsForward_step_iff hi hs)
    (fun w op w' hi hg (hs : step cfg w op = some w') => withinClock_step hi hg hs) h

/-- **Bills stay within the wall clock exactly while no turn is metered behind
the mark.** In every run of an account, with any practice instants, the marks
never move back and every session is billed at most its wall-clock time if and
only if no turn on an open session has a practice instant before the session's
last activity. -/
theorem bills_forward_iff (cfg : Settings) (clock : Instant) (id : Int) (tier : String)
    (ops : List Op) :
    Along (step cfg) billsForward (registered clock id tier) ops ↔
      Along (step cfg) (fun w op _ => ¬behindMark w op) (registered clock id tier) ops :=
  along_billsForward_iff cfg (withinClock_registered clock id tier) ops

/-- A turn at ten minutes, then a replay of minute two and another at ten. -/
def replayedBehind : List Op :=
  [.start ⟨0, 0, 0, 0⟩ true, .turn 0 none (10 * microsPerMinute),
    .turn 0 (some (2 * microsPerMinute)) (10 * microsPerMinute),
    .turn 0 none (10 * microsPerMinute), .turn 0 (some (2 * microsPerMinute)) (10 * microsPerMinute),
    .turn 0 none (10 * microsPerMinute)]

/-- The mark moves back and the same minutes are billed three times: fifteen
minutes on the row and to the quota, ten minutes after the start. -/
theorem replayed_minutes_billed_again :
    (∃ w, run (step shipped) (registered 0 1 tierFree) replayedBehind = some w ∧
      w.clock = 10 * microsPerMinute ∧ w.chargedTo 0 = 15 ∧
      w.sessions[0]?.map ConversationSession.billed = some 15) ∧
    ¬Along (step shipped) billsForward (registered 0 1 tierFree) replayedBehind := by
  constructor
  · obtain ⟨w, hw, hd⟩ := exists_run_of_check (step shipped) (registered 0 1 tierFree)
      replayedBehind (fun w => decide (w.clock = 10 * microsPerMinute ∧ w.chargedTo 0 = 15 ∧
        w.sessions[0]?.map ConversationSession.billed = some 15)) (by decide +kernel)
    exact ⟨w, hw, of_decide_eq_true hd⟩
  · rw [along_billsForward_iff shipped (withinClock_registered 0 1 tierFree)]
    decide +kernel

end Apm.Sessions
