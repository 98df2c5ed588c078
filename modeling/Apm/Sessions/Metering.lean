import Apm.Lib.Run
import Apm.Sessions.Billing

/-!
# One session under concurrent calls

Any number of `record_turn_activity`, `end` and `start`-reaper calls work on one
session row. Each call advances by its own separate steps: it reads the row, it
reads the wall clock, it takes the user row lock (which nobody else can take
until the holder commits or leaves), it refreshes the row, it mutates its copy
and it commits. The reaper takes the lock first and reads afterwards.

`record_turn_activity` computes its charge from the row it read before the lock
and does not recompute it from the refreshed row; `end` does.
-/

namespace Apm.Sessions.Metering

open Apm.Core Apm.Lib

set_option autoImplicit false

inductive Kind where
  | recordTurnActivity
  | endSession
  | reap
  deriving DecidableEq, Repr

/-- Where a call stands, with the values it holds in memory. -/
inductive Call where
  | entered
  /-- the reaper, holding the lock, before its read -/
  | admitted
  | loaded (session : ConversationSession)
  | timed (session : ConversationSession) (minutes : ℚ) (now : Instant)
  | locked (session : ConversationSession) (minutes : ℚ) (now : Instant)
  | refreshed (session : ConversationSession) (minutes : ℚ) (now : Instant)
  | mutated (session : ConversationSession) (usage : Option Usage)
  | done

structure World (ι : Type) where
  clock : Instant
  row : ConversationSession
  /-- holder of the user row lock -/
  lock : Option ι
  calls : ι → Call
  /-- latest clock value any call has read -/
  latest : Instant
  /-- minutes handed to `record_usage` by committed calls -/
  quotaBilled : ℚ

inductive Action (ι : Type) where
  | tick (micros : Nat)
  | next (i : ι)
  /-- an exception or a cancellation: the transaction is rolled back -/
  | abort (i : ι)

variable {ι : Type} [DecidableEq ι]

def World.setCall (w : World ι) (i : ι) (c : Call) : World ι :=
  { w with calls := Function.update w.calls i c }

/-- The call is over: its transaction ends and releases the lock it may hold. -/
def World.leave (w : World ι) (i : ι) : World ι :=
  { w.setCall i .done with lock := if w.lock = some i then none else w.lock }

/-- Take the user row lock, or wait (no step) while another call holds it. -/
def World.acquire (w : World ι) (i : ι) (c : Call) : Option (World ι) :=
  if w.lock = none then some { w.setCall i c with lock := some i } else none

def World.readClock (w : World ι) : World ι := { w with latest := max w.latest w.clock }

def World.commit (w : World ι) (i : ι) (session : ConversationSession) (usage : Option Usage) :
    World ι :=
  { w.leave i with row := session, quotaBilled := w.quotaBilled + usageMinutes usage }

/-- The charge a call computes when it reads the clock. -/
def chargeBeforeLock (cfg : Settings) (kind : Kind) (session : ConversationSession)
    (now : Instant) : ℚ :=
  match kind with
  | .recordTurnActivity => elapsedMinutes session.lastActivityAt now (some cfg.turnMeterCap)
  | _ => 0

/-- The mutation of the refreshed copy. -/
def mutation (cfg : Settings) (kind : Kind) (session : ConversationSession) (minutes : ℚ)
    (now : Instant) : ConversationSession × Option Usage :=
  match kind with
  | .recordTurnActivity => (meterSession minutes session now, usageOf minutes now)
  | _ => (closeSession cfg.turnMeterCap session now,
      usageOf (residual cfg.turnMeterCap session now) now)

def step (cfg : Settings) (kind : ι → Kind) (w : World ι) : Action ι → Option (World ι)
  | .tick micros => some { w with clock := w.clock + micros }
  | .abort i =>
    match w.calls i with
    | .done => none
    | _ => some (w.leave i)
  | .next i =>
    match w.calls i with
    | .entered =>
      if kind i = .reap then w.acquire i .admitted
      else if w.row.endedAt ≠ none then some (w.leave i)
      else some (w.setCall i (.loaded w.row))
    | .admitted =>
      if w.row.endedAt ≠ none then some (w.leave i)
      else some (w.setCall i (.loaded w.row))
    | .loaded s =>
      if kind i = .reap then
        if isStale s.lastActivityAt w.clock cfg.inactivityTimeout then
          some (w.readClock.setCall i (.refreshed s 0 w.clock))
        else some (w.readClock.leave i)
      else
        some (w.readClock.setCall i
          (.timed s (chargeBeforeLock cfg (kind i) s w.clock) w.clock))
    | .timed s minutes now => w.acquire i (.locked s minutes now)
    | .locked _ minutes now =>
      if w.row.endedAt ≠ none then some (w.leave i)
      else some (w.setCall i (.refreshed w.row minutes now))
    | .refreshed s minutes now =>
      some (w.setCall i (.mutated (mutation cfg (kind i) s minutes now).1
        (mutation cfg (kind i) s minutes now).2))
    | .mutated s usage => some (w.commit i s usage)
    | .done => none

/-- The session as `start` commits it, before any call on it. -/
def opened (userId : Int) (startedAt lastActivityAt clock : Instant) : World ι where
  clock := clock
  row := ⟨userId, startedAt, lastActivityAt, none, none⟩
  lock := none
  calls := fun _ => .entered
  latest := startedAt
  quotaBilled := 0

/-- When a turn finds the session still open after the lock, `last_activity_at`
is what it was when the turn read the row and computed its charge. -/
def markCurrent (kind : ι → Kind) (w : World ι) : Action ι → Bool
  | .next i =>
    match w.calls i with
    | .locked s _ _ => decide (kind i = .recordTurnActivity → w.row.endedAt = none →
        w.row.lastActivityAt = s.lastActivityAt)
    | _ => true
  | _ => true

/-! ## The invariant of the interleaved calls -/

/-- What a call knows at each of its program points. -/
def CallOk (cfg : Settings) (started : Instant) (kind : ι → Kind) (w : World ι) (i : ι) :
    Call → Prop
  | .entered | .done => True
  | .admitted => w.lock = some i
  | .loaded s => s.lastActivityAt ≤ w.clock ∧
      (kind i = .reap → w.lock = some i ∧ s = w.row ∧ s.endedAt = none)
  | .timed s minutes now => s.lastActivityAt ≤ now ∧ now ≤ w.latest ∧
      minutes = chargeBeforeLock cfg (kind i) s now
  | .locked s minutes now => w.lock = some i ∧ s.lastActivityAt ≤ now ∧ now ≤ w.latest ∧
      minutes = chargeBeforeLock cfg (kind i) s now
  | .refreshed s minutes now => w.lock = some i ∧ s = w.row ∧ s.endedAt = none ∧ now ≤ w.latest ∧
      (kind i = .recordTurnActivity → s.lastActivityAt ≤ now ∧
        minutes = elapsedMinutes s.lastActivityAt now (some cfg.turnMeterCap))
  | .mutated s usage => w.lock = some i ∧ s.lastActivityAt ≤ w.clock ∧
      Billing started w.latest s (w.quotaBilled + usageMinutes usage)

structure Inv (cfg : Settings) (started : Instant) (kind : ι → Kind) (w : World ι) : Prop where
  clock : w.latest ≤ w.clock
  mark : w.row.lastActivityAt ≤ w.clock
  billing : Billing started w.latest w.row w.quotaBilled
  calls : ∀ i, CallOk cfg started kind w i (w.calls i)

/-- A step that leaves a lock holder its lock, its row and the quota total keeps
what the other calls know. -/
structure Frame (w w' : World ι) (j : ι) : Prop where
  clock : w.clock ≤ w'.clock
  latest : w.latest ≤ w'.latest
  held : w.lock = some j →
    w'.lock = some j ∧ w'.row = w.row ∧ w'.quotaBilled = w.quotaBilled

omit [DecidableEq ι] in
theorem callOk_frame {cfg : Settings} {started : Instant} {kind : ι → Kind} {w w' : World ι}
    {j : ι} {c : Call} (hf : Frame w w' j) (h : CallOk cfg started kind w j c) :
    CallOk cfg started kind w' j c := by
  obtain ⟨hclock, hlatest, hheld⟩ := hf
  cases c with
  | entered => trivial
  | done => trivial
  | admitted => exact (hheld h).1
  | loaded s =>
    refine ⟨h.1.trans hclock, fun hk => ?_⟩
    obtain ⟨hl, hs, ho⟩ := h.2 hk
    exact ⟨(hheld hl).1, hs.trans (hheld hl).2.1.symm, ho⟩
  | timed s minutes now => exact ⟨h.1, h.2.1.trans hlatest, h.2.2⟩
  | locked s minutes now =>
    obtain ⟨hl, hm, hn, hc⟩ := h
    exact ⟨(hheld hl).1, hm, hn.trans hlatest, hc⟩
  | refreshed s minutes now =>
    obtain ⟨hl, hs, ho, hn, hc⟩ := h
    exact ⟨(hheld hl).1, hs.trans (hheld hl).2.1.symm, ho, hn.trans hlatest, hc⟩
  | mutated s usage =>
    obtain ⟨hl, hm, hb⟩ := h
    refine ⟨(hheld hl).1, hm.trans hclock, ?_⟩
    rw [(hheld hl).2.2]
    exact hb.mono hlatest

/-- One call moved to `c`; every other call kept its frame. -/
theorem calls_update {cfg : Settings} {started : Instant} {kind : ι → Kind} {w w' : World ι}
    {i : ι} {c : Call} (h : Inv cfg started kind w)
    (hcalls : w'.calls = Function.update w.calls i c)
    (hf : ∀ j, j ≠ i → Frame w w' j) (hc : CallOk cfg started kind w' i c) :
    ∀ j, CallOk cfg started kind w' j (w'.calls j) := by
  intro j
  rw [hcalls]
  by_cases hj : j = i
  · subst hj
    rwa [Function.update_self]
  · rw [Function.update_of_ne hj]
    exact callOk_frame (hf j hj) (h.calls j)

section preservation

variable {cfg : Settings} {started : Instant} {kind : ι → Kind} {w w' : World ι} {i : ι}

omit [DecidableEq ι] in
theorem inv_tick (h : Inv cfg started kind w) (micros : Nat) :
    Inv cfg started kind { w with clock := w.clock + micros } where
  clock := h.clock.trans (by simp)
  mark := h.mark.trans (by simp)
  billing := h.billing
  calls := fun j => callOk_frame (w := w) ⟨by simp, le_rfl, fun hl => ⟨hl, rfl, rfl⟩⟩ (h.calls j)

theorem inv_setCall {c : Call} (h : Inv cfg started kind w)
    (hc : CallOk cfg started kind w i c) : Inv cfg started kind (w.setCall i c) where
  clock := h.clock
  mark := h.mark
  billing := h.billing
  calls := calls_update h rfl (fun _ _ => ⟨le_rfl, le_rfl, fun hl => ⟨hl, rfl, rfl⟩⟩)
    (callOk_frame ⟨le_rfl, le_rfl, fun hl => ⟨hl, rfl, rfl⟩⟩ hc)

theorem inv_leave (h : Inv cfg started kind w) : Inv cfg started kind (w.leave i) where
  clock := h.clock
  mark := h.mark
  billing := h.billing
  calls := by
    refine calls_update h rfl (fun j hj => ⟨le_rfl, le_rfl, fun hl => ⟨?_, rfl, rfl⟩⟩) trivial
    have hne : w.lock ≠ some i := by rw [hl]; simpa using hj
    simpa [World.leave, hne] using hl

omit [DecidableEq ι] in
theorem inv_readClock (h : Inv cfg started kind w) : Inv cfg started kind w.readClock where
  clock := max_le h.clock le_rfl
  mark := h.mark
  billing := h.billing.mono (le_max_left _ _)
  calls := fun j => callOk_frame (w := w)
    ⟨le_rfl, le_max_left _ _, fun hl => ⟨hl, rfl, rfl⟩⟩ (h.calls j)

theorem inv_acquire {c : Call} (h : Inv cfg started kind w)
    (hstep : w.acquire i c = some w')
    (hc : CallOk cfg started kind { w with lock := some i } i c) : Inv cfg started kind w' := by
  unfold World.acquire at hstep
  split at hstep
  · rename_i hfree
    obtain rfl := Option.some.inj hstep
    refine ⟨h.clock, h.mark, h.billing, calls_update h rfl (fun j _ => ?_) ?_⟩
    · exact ⟨le_rfl, le_rfl, fun hl => by rw [hfree] at hl; cases hl⟩
    · exact callOk_frame ⟨le_rfl, le_rfl, fun hl => ⟨hl, rfl, rfl⟩⟩ hc
  · cases hstep

theorem inv_commit {s : ConversationSession} {usage : Option Usage}
    (h : Inv cfg started kind w) (hc : CallOk cfg started kind w i (.mutated s usage)) :
    Inv cfg started kind (w.commit i s usage) := by
  obtain ⟨hlock, hmark, hbill⟩ := hc
  refine ⟨h.clock, hmark, hbill, calls_update h rfl (fun j hj => ?_) trivial⟩
  refine ⟨le_rfl, le_rfl, fun hl => ?_⟩
  -- the committing call holds the lock, so no other call does
  rw [hlock] at hl
  exact absurd (Option.some.inj hl).symm hj

end preservation

theorem inv_step {cfg : Settings} {started : Instant} {kind : ι → Kind} (w : World ι)
    (a : Action ι) (w' : World ι) (h : Inv cfg started kind w) (hg : markCurrent kind w a = true)
    (hstep : step cfg kind w a = some w') : Inv cfg started kind w' := by
  cases a with
  | tick micros =>
    obtain rfl := Option.some.inj hstep
    exact inv_tick h micros
  | abort i =>
    simp only [step] at hstep
    split at hstep
    · cases hstep
    · obtain rfl := Option.some.inj hstep
      exact inv_leave h
  | next i =>
    have hi := h.calls i
    cases hcall : w.calls i with
    | entered =>
      simp only [step, hcall] at hstep
      split_ifs at hstep with hreap hended
      · exact inv_acquire h hstep rfl
      · obtain rfl := Option.some.inj hstep
        exact inv_leave h
      · obtain rfl := Option.some.inj hstep
        exact inv_setCall h ⟨h.mark, fun hk => absurd hk hreap⟩
    | admitted =>
      simp only [step, hcall] at hstep
      rw [hcall] at hi
      split_ifs at hstep with hended
      · obtain rfl := Option.some.inj hstep
        exact inv_leave h
      · obtain rfl := Option.some.inj hstep
        exact inv_setCall h ⟨h.mark, fun _ => ⟨hi, rfl, not_not.mp hended⟩⟩
    | loaded s =>
      simp only [step, hcall] at hstep
      rw [hcall] at hi
      split_ifs at hstep with hreap hstale
      · obtain rfl := Option.some.inj hstep
        obtain ⟨hl, hs, ho⟩ := hi.2 hreap
        refine inv_setCall (inv_readClock h) ⟨hl, hs, ho, le_max_right _ _, fun hk => ?_⟩
        rw [hreap] at hk
        cases hk
      · obtain rfl := Option.some.inj hstep
        exact inv_leave (inv_readClock h)
      · obtain rfl := Option.some.inj hstep
        exact inv_setCall (inv_readClock h) ⟨hi.1, le_max_right _ _, rfl⟩
    | timed s minutes now =>
      simp only [step, hcall] at hstep
      rw [hcall] at hi
      exact inv_acquire h hstep ⟨rfl, hi⟩
    | locked s minutes now =>
      simp only [step, hcall] at hstep
      rw [hcall] at hi
      simp only [markCurrent, hcall, decide_eq_true_eq] at hg
      split_ifs at hstep with hended
      · obtain rfl := Option.some.inj hstep
        exact inv_leave h
      · obtain rfl := Option.some.inj hstep
        obtain ⟨hl, hm, hn, hc⟩ := hi
        have hopen := not_not.mp hended
        refine inv_setCall h ⟨hl, rfl, hopen, hn, fun hk => ?_⟩
        -- the guard: the charge was computed from the mark still in the row
        rw [hg hk hopen]
        refine ⟨hm, ?_⟩
        rw [hc, hk]
        rfl
    | refreshed s minutes now =>
      simp only [step, hcall] at hstep
      rw [hcall] at hi
      obtain rfl := Option.some.inj hstep
      obtain ⟨hl, rfl, hopen, hn, hc⟩ := hi
      refine inv_setCall h ⟨hl, ?_, ?_⟩
      · cases hk : kind i with
        | recordTurnActivity => exact hn.trans h.clock
        | endSession => exact h.mark
        | reap => exact h.mark
      · cases hk : kind i with
        | recordTurnActivity =>
          obtain ⟨hm, rfl⟩ := hc hk
          exact h.billing.meter cfg.turnMeterCap hopen hm hn
        | endSession => exact h.billing.close cfg.turnMeterCap hopen hn
        | reap => exact h.billing.close cfg.turnMeterCap hopen hn
    | mutated s usage =>
      simp only [step, hcall] at hstep
      rw [hcall] at hi
      obtain rfl := Option.some.inj hstep
      exact inv_commit h hi
    | done =>
      simp only [step, hcall] at hstep
      cases hstep

omit [DecidableEq ι] in
theorem inv_opened (cfg : Settings) (kind : ι → Kind) (userId : Int)
    {startedAt lastActivityAt clock : Instant} (hs : startedAt ≤ lastActivityAt)
    (hl : lastActivityAt ≤ clock) :
    Inv cfg startedAt kind (opened userId startedAt lastActivityAt clock) where
  clock := hs.trans hl
  mark := hl
  billing :=
    { startedAt := rfl
      ordered := hs
      session := ⟨(minutesBetween_self _).ge, fun _ => minutesBetween_nonneg hs⟩
      user := ⟨(minutesBetween_self _).ge, fun _ => minutesBetween_nonneg hs⟩ }
  calls := fun _ => trivial

/-- **No interval is billed twice while every turn's mark is current.** For any
number of calls and every order of their steps, the minutes billed to the
session and to the quota stay below the wall-clock time from `started_at` to the
latest clock value read. -/
theorem billed_within_wall_clock (cfg : Settings) (kind : ι → Kind) (userId : Int)
    {startedAt lastActivityAt clock : Instant} {as : List (Action ι)} {w : World ι}
    (hs : startedAt ≤ lastActivityAt) (hl : lastActivityAt ≤ clock)
    (hrun : run (step cfg kind) (opened userId startedAt lastActivityAt clock) as = some w)
    (hg : Along (step cfg kind) (fun w a _ => markCurrent kind w a = true)
      (opened userId startedAt lastActivityAt clock) as) :
    w.row.billed ≤ minutesBetween startedAt w.latest ∧
      w.quotaBilled ≤ minutesBetween startedAt w.latest := by
  have hinv : Inv cfg startedAt kind w :=
    run_invariant (fun w a w' hi hga hw => inv_step w a w' hi hga hw)
      (inv_opened cfg kind userId hs hl) hg hrun
  have hstart := hinv.billing.startedAt
  rw [← hstart]
  exact ⟨hinv.billing.session.elapsed, hinv.billing.user.elapsed⟩

/-- A turn of two minutes, then the end of the session a minute later. -/
def turnThenEnd : List (Action Bool) :=
  [.next false, .tick 120000000, .next false, .next false, .next false, .next false, .next false,
    .next true, .tick 60000000, .next true, .next true, .next true, .next true, .next true]

theorem billed_within_wall_clock_turn_then_end :
    ∃ w, run (step shipped (fun i => if i then .endSession else .recordTurnActivity))
        (opened 1 0 0 0) turnThenEnd = some w ∧
      w.row.billed = 3 ∧ w.row.billed ≤ minutesBetween 0 w.latest ∧
      w.quotaBilled ≤ minutesBetween 0 w.latest := by
  obtain ⟨w, hw, hb⟩ := exists_run_of_check
    (step shipped (fun i => if i then .endSession else .recordTurnActivity))
    (opened 1 0 0 0) turnThenEnd (fun w => decide (w.row.billed = 3)) (by decide +kernel)
  refine ⟨w, hw, of_decide_eq_true hb, ?_⟩
  exact billed_within_wall_clock shipped (fun i => if i then .endSession else .recordTurnActivity) 1
    (by decide) (by decide) hw (by decide +kernel)

/-- Two turns read the row before either has the lock: both charge the same two minutes. -/
def overlappingTurns : List (Action Bool) :=
  [.next false, .next true, .tick 120000000, .next false, .next true,
    .next false, .next false, .next false, .next false,
    .next true, .next true, .next true, .next true]

/-- Four minutes are billed two minutes after the start, to the session and to the quota. -/
theorem overlapping_turns_billed_twice :
    ∃ w, run (step shipped (fun _ => .recordTurnActivity)) (opened 1 0 0 0) overlappingTurns = some w ∧
      minutesBetween 0 w.latest = 2 ∧ w.row.billed = 4 ∧ w.quotaBilled = 4 ∧
      ¬ (w.row.billed ≤ minutesBetween 0 w.latest ∧
        w.quotaBilled ≤ minutesBetween 0 w.latest) := by
  obtain ⟨w, hw, hb⟩ := exists_run_of_check
    (step shipped (fun _ => .recordTurnActivity)) (opened 1 0 0 0) overlappingTurns
    (fun w => decide (minutesBetween 0 w.latest = 2 ∧ w.row.billed = 4 ∧ w.quotaBilled = 4))
    (by decide +kernel)
  obtain ⟨hclock, hrow, hquota⟩ := of_decide_eq_true hb
  refine ⟨w, hw, hclock, hrow, hquota, ?_⟩
  rw [hclock, hrow]
  norm_num

end Apm.Sessions.Metering
