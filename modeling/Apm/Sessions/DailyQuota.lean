import Apm.Sessions.History

/-!
# The daily quota over whole runs

The counter of the user row stands for one day, the day of its last charge.
Charges made at the server clock only move that day forward, so the counter
holds what was charged to the current day. A replayed turn can charge an earlier
day and move it back.
-/

namespace Apm.Sessions

open Apm.Core Apm.Lib Apm.Streaks

set_option autoImplicit false

/-- A free user whose counter is not negative and does not stand for a day to come. -/
structure QuotaOk (w : Account) : Prop where
  tier : w.user.tier = tierFree
  day : ∀ d, w.user.quotaDate = some d → d ≤ date w.clock
  used : 0 ≤ w.user.minutesUsedToday

theorem QuotaOk.usedOn_nonneg {w : Account} (h : QuotaOk w) (day : Day) :
    0 ≤ w.user.usedOn day := by
  unfold User.usedOn
  split
  · exact h.used
  · exact le_rfl

/-- Nothing is on the counter for a day to come. -/
theorem QuotaOk.usedOn_later {w : Account} (h : QuotaOk w) {day : Day} (hd : date w.clock < day) :
    w.user.usedOn day = 0 := by
  rw [User.usedOn, if_neg]
  intro hq
  exact absurd (h.day day hq) (not_le.mpr hd)

theorem QuotaOk.tick {w : Account} (h : QuotaOk w) {clock : Instant} (hle : w.clock ≤ clock) :
    QuotaOk { w with clock := clock } :=
  ⟨h.tier, fun d hd => (h.day d hd).trans (date_mono hle), h.used⟩

/-- A charge at an instant the clock has reached. -/
theorem QuotaOk.charge {w : Account} (h : QuotaOk w) {practiced clock : Instant}
    (hle : w.clock ≤ clock) (hp : practiced ≤ clock) (minutes : ℚ)
    (sessions : List ConversationSession) (charges : List Charge) :
    QuotaOk ⟨clock, charge w.user (usageOf minutes practiced), sessions, charges⟩ := by
  by_cases hm : 0 < minutes
  · refine ⟨(charge_tier ..).trans h.tier, fun d hd => ?_, ?_⟩
    · simp only [usageOf, hm, if_true, Apm.Sessions.charge, recordUsage_quotaDate,
        Option.some.injEq] at hd
      exact hd ▸ date_mono hp
    · have hu := h.usedOn_nonneg (date practiced)
      simp only [usageOf, hm, if_true, Apm.Sessions.charge, recordUsage_minutesUsedToday]
      linarith
  · simp only [usageOf, hm, if_false, Apm.Sessions.charge]
    exact ⟨h.tier, fun d hd => (h.day d hd).trans (date_mono hle), h.used⟩

theorem QuotaOk.meter {w : Account} (h : QuotaOk w) (cfg : Settings) (id : Nat)
    (s : ConversationSession) {practiced now : Instant} (hle : w.clock ≤ now)
    (hp : practiced ≤ now) : QuotaOk (w.meter cfg id s practiced now) := by
  have hc := h.charge hle hp (elapsedMinutes s.lastActivityAt practiced (some cfg.turnMeterCap))
    w.sessions w.charges
  exact ⟨hc.tier, hc.day, hc.used⟩

theorem QuotaOk.close {w : Account} (h : QuotaOk w) (cfg : Settings) (id : Nat)
    (s : ConversationSession) {now : Instant} (hle : w.clock ≤ now) :
    QuotaOk (w.close cfg id s now) :=
  h.charge hle le_rfl (residual cfg.turnMeterCap s now) _ _

theorem QuotaOk.add {w : Account} (h : QuotaOk w) (startedAt : Instant)
    {lastActivityAt : Instant} (hle : w.clock ≤ lastActivityAt) :
    QuotaOk (w.add startedAt lastActivityAt) :=
  ⟨h.tier, (h.tick hle).day, h.used⟩

theorem quotaOk_step {cfg : Settings} {w w' : Account} {op : Op} (h : QuotaOk w)
    (hstep : step cfg w op = some w') : QuotaOk w' := by
  cases op with
  | start t missionOwned =>
    obtain ⟨⟨h₁, h₂, h₃, h₄⟩, hs⟩ := step_start hstep
    have hnow : w.clock ≤ t.now := h₁.trans h₂
    have hlast : t.now ≤ t.lastActivityAt := h₃.trans h₄
    cases hs with
    | refused => exact h.tick (hnow.trans hlast)
    | opened _ => exact h.add t.startedAt (hnow.trans hlast)
    | reapedOnly id s _ => exact (h.close cfg id s hnow).tick hlast
    | reapedThenOpened id s _ _ _ => exact (h.close cfg id s hnow).add t.startedAt hlast
  | turn id practicedAt now =>
    obtain ⟨hclock, ⟨-, rfl⟩ | ⟨s, -, rfl⟩⟩ := step_turn hstep
    · exact h.tick hclock
    · exact h.meter cfg id s hclock (clampPracticedAt_le practicedAt now)
  | endSession id now =>
    obtain ⟨hclock, rfl | ⟨s, -, rfl⟩⟩ := step_end hstep
    · exact h.tick hclock
    · exact h.close cfg id s hclock

/-! ## What the counter forgets -/

/-- No minute of the operation's own day comes back. -/
def keepsUsage (cfg : Settings) (w : Account) (_ : Op) (w' : Account) : Prop :=
  remainingMinutes w'.user cfg.freeDaily (date w'.clock) ≤
    remainingMinutes w.user cfg.freeDaily (date w'.clock)

instance (cfg : Settings) (w : Account) (op : Op) (w' : Account) :
    Decidable (keepsUsage cfg w op w') :=
  inferInstanceAs (Decidable (remainingMinutes w'.user cfg.freeDaily (date w'.clock) ≤
    remainingMinutes w.user cfg.freeDaily (date w'.clock)))

/-- A replayed turn charges an earlier day than the one of its persist, and part
of the quota of that later day has been used. -/
def chargesEarlierDay (cfg : Settings) (w : Account) : Op → Prop
  | .turn id practicedAt now =>
    let practiced := clampPracticedAt practicedAt now
    date practiced ≠ date now ∧ 0 < cfg.turnMeterCap ∧
      (w.live id).any (fun s => s.lastActivityAt < practiced) ∧
      0 < cfg.freeDaily ∧ 0 < w.user.usedOn (date now)
  | _ => False

instance (cfg : Settings) (w : Account) (op : Op) : Decidable (chargesEarlierDay cfg w op) :=
  match op with
  | .start .. => inferInstanceAs (Decidable False)
  | .turn .. => inferInstanceAs (Decidable (_ ∧ _))
  | .endSession .. => inferInstanceAs (Decidable False)

/-- Minutes come back exactly when a used counter drops to zero. -/
theorem remainingMinutes_reset {user user' : User} (ht : user.tier = tierFree)
    (ht' : user'.tier = tierFree) (freeDaily : Int) {day : Day} (h0 : user'.usedOn day = 0)
    (hu : 0 ≤ user.usedOn day) :
    remainingMinutes user' freeDaily day ≤ remainingMinutes user freeDaily day ↔
      ¬(0 < freeDaily ∧ 0 < user.usedOn day) := by
  rw [remainingMinutes_free ht, remainingMinutes_free ht', WithTop.coe_le_coe, h0, sub_zero]
  constructor
  · rintro hle ⟨hf, hused⟩
    have hf' : (0 : ℚ) < (freeDaily : ℚ) := by exact_mod_cast hf
    rw [max_eq_right hf'.le] at hle
    rcases le_max_iff.mp hle with h | h <;> linarith
  · intro h
    by_cases hf : 0 < freeDaily
    · have hzero : user.usedOn day = 0 := le_antisymm (not_lt.mp fun hp => h ⟨hf, hp⟩) hu
      rw [hzero, sub_zero]
    · have hf' : (freeDaily : ℚ) ≤ 0 := by exact_mod_cast not_lt.mp hf
      rw [max_eq_left hf']
      exact le_max_left _ _

/-- A residual is charged to the day of the clock, or to one that has passed. -/
theorem keepsUsage_close (cfg : Settings) {w : Account} (h : QuotaOk w) (id : Nat)
    (s : ConversationSession) {now clock : Instant} (hle : w.clock ≤ now) (hnow : now ≤ clock) :
    remainingMinutes (w.close cfg id s now).user cfg.freeDaily (date clock) ≤
      remainingMinutes w.user cfg.freeDaily (date clock) := by
  refine remainingMinutes_antitone (closeUser_tier ..) _ ?_
  change _ ≤ (charge w.user (usageOf (residual cfg.turnMeterCap s now) now)).usedOn (date clock)
  rw [usedOn_charge]
  split_ifs with hm hd
  · linarith
  · -- the clock has moved to a day without usage
    have hlater : date w.clock < date clock :=
      lt_of_le_of_lt (date_mono hle) (lt_of_le_of_ne (date_mono hnow) (Ne.symm hd))
    exact (h.usedOn_later hlater).le
  · exact le_rfl

theorem keepsUsage_meter {cfg : Settings} {w : Account} (h : QuotaOk w) {id : Nat}
    {s : ConversationSession} (hlive : w.live id = some s) (practicedAt : Option Instant)
    (now : Instant) :
    remainingMinutes (w.meter cfg id s (clampPracticedAt practicedAt now) now).user
        cfg.freeDaily (date now) ≤ remainingMinutes w.user cfg.freeDaily (date now) ↔
      ¬chargesEarlierDay cfg w (.turn id practicedAt now) := by
  set practiced := clampPracticedAt practicedAt now with hp
  have hused : ∀ day, (w.meter cfg id s practiced now).user.usedOn day =
      (charge w.user (usageOf (elapsedMinutes s.lastActivityAt practiced
        (some cfg.turnMeterCap)) practiced)).usedOn day := fun _ => rfl
  have htier : (w.meter cfg id s practiced now).user.tier = w.user.tier := meterUser_tier ..
  have hguard : chargesEarlierDay cfg w (.turn id practicedAt now) ↔
      (date practiced ≠ date now ∧
        0 < elapsedMinutes s.lastActivityAt practiced (some cfg.turnMeterCap)) ∧
      0 < cfg.freeDaily ∧ 0 < w.user.usedOn (date now) := by
    simp only [chargesEarlierDay, ← hp, hlive, Option.any_some, decide_eq_true_eq,
      elapsedMinutes_pos_iff]
    tauto
  by_cases hreset : date practiced ≠ date now ∧
      0 < elapsedMinutes s.lastActivityAt practiced (some cfg.turnMeterCap)
  · have hzero : (w.meter cfg id s practiced now).user.usedOn (date now) = 0 := by
      rw [hused, usedOn_charge, if_pos hreset.2, if_neg (Ne.symm hreset.1)]
    rw [remainingMinutes_reset h.tier (htier.trans h.tier) _ hzero (h.usedOn_nonneg _), hguard]
    simp [hreset]
  · refine iff_of_true (remainingMinutes_antitone htier _ ?_) fun hg => hreset (hguard.mp hg).1
    rw [hused, usedOn_charge]
    split_ifs with hm hd
    · linarith
    · exact absurd ⟨fun he => hd he.symm, hm⟩ hreset
    · exact le_rfl

theorem keepsUsage_step {cfg : Settings} {w w' : Account} {op : Op} (h : QuotaOk w)
    (hstep : step cfg w op = some w') :
    keepsUsage cfg w op w' ↔ ¬chargesEarlierDay cfg w op := by
  cases op with
  | start t missionOwned =>
    refine iff_of_true ?_ not_false
    obtain ⟨⟨h₁, h₂, h₃, h₄⟩, hs⟩ := step_start hstep
    have hclose := fun id s => keepsUsage_close cfg h id s (h₁.trans h₂) (h₃.trans h₄)
    cases hs with
    | refused => exact le_rfl
    | opened _ => exact le_rfl
    | reapedOnly id s _ => exact hclose id s
    | reapedThenOpened id s _ _ _ => exact hclose id s
  | turn id practicedAt now =>
    obtain ⟨-, ⟨hnone, rfl⟩ | ⟨s, hlive, rfl⟩⟩ := step_turn hstep
    · refine iff_of_true le_rfl ?_
      rintro ⟨-, -, hlive, -⟩
      rw [hnone] at hlive
      cases hlive
    · exact keepsUsage_meter h hlive practicedAt now
  | endSession id now =>
    refine iff_of_true ?_ not_false
    obtain ⟨hclock, rfl | ⟨s, -, rfl⟩⟩ := step_end hstep
    · exact le_rfl
    · exact keepsUsage_close cfg h id s hclock le_rfl

/-- **Usage is forgotten exactly by charges to an earlier day.** In every run of
a free account, the remaining minutes of a day never grow within that day if and
only if no replayed turn charges an earlier day while part of the quota of its
own day has been used. -/
theorem remaining_nonincreasing_iff (cfg : Settings) {w : Account} (h : QuotaOk w)
    (ops : List Op) :
    Along (step cfg) (keepsUsage cfg) w ops ↔
      Along (step cfg) (fun w op _ => ¬chargesEarlierDay cfg w op) w ops :=
  along_iff_of_invariant (I := QuotaOk) (P := keepsUsage cfg)
    (fun w op w' hi (hs : step cfg w op = some w') => keepsUsage_step hi hs)
    (fun w op w' hi _ (hs : step cfg w op = some w') => quotaOk_step hi hs) h

theorem quotaOk_registered (clock : Instant) (id : Int) : QuotaOk (registered clock id tierFree) where
  tier := rfl
  day := fun d hd => by cases hd
  used := le_rfl

/-- An instant of a day, in minutes. -/
def minuteOf (day minute : Int) : Instant := day * microsPerDay + minute * microsPerMinute

/-- A session opened ten minutes before midnight. -/
def beforeMidnight : Op :=
  .start ⟨minuteOf 0 1430, minuteOf 0 1430, minuteOf 0 1430, minuteOf 0 1430⟩ true

/-- Its only turn is replayed after midnight, at the instant it was practiced. -/
theorem remaining_nonincreasing_iff_replay :
    Along (step shipped) (keepsUsage shipped) (registered 0 1 tierFree)
      [beforeMidnight, .turn 0 (some (minuteOf 0 1435)) (minuteOf 1 10)] :=
  (remaining_nonincreasing_iff shipped (quotaOk_registered 0 1) _).mpr (by decide +kernel)

/-- A turn after midnight is charged 5 minutes; then two turns from before
midnight are replayed, and the second one is charged. -/
def replayedAfterMidnight : List Op :=
  [beforeMidnight, .turn 0 none (minuteOf 1 5), .turn 0 (some (minuteOf 0 1431)) (minuteOf 1 6),
    .turn 0 (some (minuteOf 0 1433)) (minuteOf 1 7)]

/-- The five minutes charged to the new day are forgotten. -/
theorem replayed_turns_restore_quota :
    (∃ w w', run (step shipped) (registered 0 1 tierFree) (replayedAfterMidnight.take 3) = some w ∧
      run (step shipped) (registered 0 1 tierFree) replayedAfterMidnight = some w' ∧
      date w.clock = 1 ∧ remainingMinutes w.user 10 1 = (5 : ℚ) ∧
      date w'.clock = 1 ∧ remainingMinutes w'.user 10 1 = (10 : ℚ)) ∧
    ¬Along (step shipped) (keepsUsage shipped) (registered 0 1 tierFree)
      replayedAfterMidnight := by
  constructor
  · obtain ⟨w, hw, hd⟩ := exists_run_of_check (step shipped) (registered 0 1 tierFree)
      (replayedAfterMidnight.take 3)
      (fun w => decide (date w.clock = 1 ∧ w.user.tier = tierFree ∧ w.user.usedOn 1 = 5))
      (by decide +kernel)
    obtain ⟨w', hw', hd'⟩ := exists_run_of_check (step shipped) (registered 0 1 tierFree)
      replayedAfterMidnight
      (fun w => decide (date w.clock = 1 ∧ w.user.tier = tierFree ∧ w.user.usedOn 1 = 0))
      (by decide +kernel)
    obtain ⟨hday, htier, hused⟩ := of_decide_eq_true hd
    obtain ⟨hday', htier', hused'⟩ := of_decide_eq_true hd'
    refine ⟨w, w', hw, hw', hday, ?_, hday', ?_⟩
    · rw [remainingMinutes_free htier, hused]
      norm_num
    · rw [remainingMinutes_free htier', hused']
      norm_num
  · decide +kernel

/-! ## What the quota bounds -/

/-- The counter against the ledger. From the clock's day on, the counter holds
what was charged; a day takes one charge past its quota, and one more for each
charge made when nothing remained. -/
structure Bounded (cfg : Settings) (w : Account) : Prop extends QuotaOk w where
  ledger : ∀ day, date w.clock ≤ day → w.chargedOn day = w.user.usedOn day
  bound : ∀ day, w.chargedOn day ≤
    max 0 (cfg.freeDaily : ℚ) + max 0 cfg.turnMeterCap * (1 + w.spentOn day)

/-- Some minutes remain exactly when less than the quota was used. -/
theorem remainingMinutes_pos_iff {user : User} (ht : user.tier = tierFree) (freeDaily : Int)
    (day : Day) : ¬remainingMinutes user freeDaily day ≤ 0 ↔ user.usedOn day < freeDaily := by
  rw [remainingMinutes_free ht, not_le, WithTop.coe_pos, lt_max_iff, sub_pos]
  simp

theorem Bounded.tick {cfg : Settings} {w : Account} (h : Bounded cfg w) {clock : Instant}
    (hle : w.clock ≤ clock) : Bounded cfg { w with clock := clock } where
  toQuotaOk := h.toQuotaOk.tick hle
  ledger := fun day hd => h.ledger day ((date_mono hle).trans hd)
  bound := h.bound

theorem Bounded.add {cfg : Settings} {w : Account} (h : Bounded cfg w) (startedAt : Instant)
    {lastActivityAt : Instant} (hle : w.clock ≤ lastActivityAt) :
    Bounded cfg (w.add startedAt lastActivityAt) where
  toQuotaOk := h.toQuotaOk.add startedAt hle
  ledger := (h.tick hle).ledger
  bound := h.bound

/-- A charge of at most one cap, at the clock. -/
theorem Bounded.charge {cfg : Settings} {w : Account} (h : Bounded cfg w) (id : Nat)
    {minutes : ℚ} {now : Instant} (hle : w.clock ≤ now) (hm : minutes ≤ cfg.turnMeterCap)
    (sessions : List ConversationSession) :
    Bounded cfg ⟨now, Apm.Sessions.charge w.user (usageOf minutes now), sessions,
      w.record cfg id (usageOf minutes now)⟩ := by
  by_cases hpos : 0 < minutes
  swap
  · simp only [usageOf, hpos, if_false, Apm.Sessions.charge, record_none]
    have ht := h.tick hle
    exact ⟨⟨ht.tier, ht.day, ht.used⟩, ht.ledger, ht.bound⟩
  have hcap : minutes ≤ max 0 cfg.turnMeterCap := hm.trans (le_max_right _ _)
  have htoday : w.chargedOn (date now) = w.user.usedOn (date now) :=
    h.ledger _ (date_mono hle)
  have husage : usageOf minutes now = some ⟨minutes, date now⟩ := if_pos hpos
  refine ⟨h.toQuotaOk.charge hle le_rfl minutes _ _, fun day hd => ?_, fun day => ?_⟩
  · rw [chargedOn_record (congrArg (w.record cfg id) husage), usedOn_charge, if_pos hpos]
    by_cases hday : day = date now
    · rw [if_pos hday.symm, if_pos hday, hday, htoday]
    · rw [if_neg (Ne.symm hday), if_neg hday, add_zero]
      have hlater : date w.clock < day :=
        lt_of_le_of_lt (date_mono hle) (lt_of_le_of_ne hd (Ne.symm hday))
      rw [h.ledger day hlater.le, h.usedOn_later hlater]
  · rw [chargedOn_record (congrArg (w.record cfg id) husage),
      spentOn_record (congrArg (w.record cfg id) husage)]
    have hb := h.bound day
    by_cases hday : date now = day
    · subst hday
      by_cases hspent : remainingMinutes w.user cfg.freeDaily (date now) ≤ 0
      · -- past the quota: one more charge to count
        rw [if_pos rfl, if_pos ⟨rfl, hspent⟩]
        push_cast
        linarith
      · have hunder := (remainingMinutes_pos_iff h.tier _ _).mp hspent
        have hquota : (cfg.freeDaily : ℚ) ≤ max 0 (cfg.freeDaily : ℚ) := le_max_right _ _
        have hcount : 0 ≤ max 0 cfg.turnMeterCap * (w.spentOn (date now) : ℚ) := by positivity
        rw [if_pos rfl, if_neg (fun hs => hspent hs.2), add_zero, htoday]
        linarith
    · rw [if_neg hday, if_neg (fun hs => hday hs.1), add_zero, add_zero]
      exact hb

theorem Bounded.meter {cfg : Settings} {w : Account} (h : Bounded cfg w) (id : Nat)
    (s : ConversationSession) {now : Instant} (hle : w.clock ≤ now) :
    Bounded cfg (w.meter cfg id s now now) := by
  have hc := h.charge id hle (elapsedMinutes_le_cap s.lastActivityAt now cfg.turnMeterCap)
    w.sessions
  exact ⟨⟨hc.tier, hc.day, hc.used⟩, hc.ledger, hc.bound⟩

theorem Bounded.close {cfg : Settings} {w : Account} (h : Bounded cfg w) (id : Nat)
    (s : ConversationSession) {now : Instant} (hle : w.clock ≤ now) :
    Bounded cfg (w.close cfg id s now) :=
  h.charge id hle (elapsedMinutes_le_cap s.lastActivityAt now cfg.turnMeterCap) _

/-- No client practice instant. -/
def serverClock (_ : Account) (op : Op) (_ : Account) : Prop :=
  match op with
  | .turn _ practicedAt _ => practicedAt = none
  | _ => True

theorem bounded_step {cfg : Settings} {w w' : Account} {op : Op} (h : Bounded cfg w)
    (hserver : serverClock w op w') (hstep : step cfg w op = some w') : Bounded cfg w' := by
  cases op with
  | start t missionOwned =>
    obtain ⟨⟨h₁, h₂, h₃, h₄⟩, hs⟩ := step_start hstep
    have hnow : w.clock ≤ t.now := h₁.trans h₂
    have hlast : t.now ≤ t.lastActivityAt := h₃.trans h₄
    cases hs with
    | refused => exact h.tick (hnow.trans hlast)
    | opened _ => exact h.add t.startedAt (hnow.trans hlast)
    | reapedOnly id s _ => exact (h.close id s hnow).tick hlast
    | reapedThenOpened id s _ _ _ => exact (h.close id s hnow).add t.startedAt hlast
  | turn id practicedAt now =>
    obtain rfl : practicedAt = none := hserver
    obtain ⟨hclock, ⟨-, rfl⟩ | ⟨s, -, rfl⟩⟩ := step_turn hstep
    · exact h.tick hclock
    · exact h.meter id s hclock
  | endSession id now =>
    obtain ⟨hclock, rfl | ⟨s, -, rfl⟩⟩ := step_end hstep
    · exact h.tick hclock
    · exact h.close id s hclock

/-- A session opens only through a start, with less than the quota charged to the
day of its first check and to the day of its check after the reap. -/
def opensUnspent (cfg : Settings) (w : Account) (op : Op) (w' : Account) : Prop :=
  w.sessions.length < w'.sessions.length → ∃ t missionOwned, op = .start t missionOwned ∧
    w.chargedOn (date t.checked) < cfg.freeDaily ∧ w'.chargedOn (date t.now) < cfg.freeDaily

theorem opensUnspent_step {cfg : Settings} {w w' : Account} {op : Op} (h : Bounded cfg w)
    (hstep : step cfg w op = some w') : opensUnspent cfg w op w' := by
  intro hlen
  cases op with
  | start t missionOwned =>
    obtain ⟨⟨h₁, h₂, h₃, h₄⟩, hs⟩ := step_start hstep
    have hnow : w.clock ≤ t.now := h₁.trans h₂
    have hchecked : w.chargedOn (date t.checked) = w.user.usedOn (date t.checked) :=
      h.ledger _ (date_mono h₁)
    have hunder : ¬remainingMinutes w.user cfg.freeDaily (date t.checked) ≤ 0 →
        w.chargedOn (date t.checked) < cfg.freeDaily := fun hq => by
      rw [hchecked]
      exact (remainingMinutes_pos_iff h.tier _ _).mp hq
    cases hs with
    | refused => exact absurd hlen (lt_irrefl _)
    | opened hquota =>
      refine ⟨t, missionOwned, rfl, hunder hquota, ?_⟩
      change w.chargedOn (date t.now) < cfg.freeDaily
      by_cases hday : date t.now = date t.checked
      · rw [hday]
        exact hunder hquota
      · -- midnight passed between the two readings: nothing is charged to the new day
        have hlater : date w.clock < date t.now :=
          lt_of_le_of_lt (date_mono h₁) (lt_of_le_of_ne (date_mono h₂) (Ne.symm hday))
        rw [h.ledger _ hlater.le, h.usedOn_later hlater]
        have hused := h.usedOn_nonneg (date t.checked)
        have hq := hunder hquota
        rw [hchecked] at hq
        linarith
    | reapedOnly id s _ =>
      simp [Account.close] at hlen
    | reapedThenOpened id s _ hquota hafter =>
      refine ⟨t, missionOwned, rfl, hunder hquota, ?_⟩
      have hc := h.close id s hnow
      have hafter' := (remainingMinutes_pos_iff hc.tier _ _).mp hafter
      rw [← hc.ledger (date t.now) le_rfl] at hafter'
      exact hafter'
  | turn id practicedAt now =>
    obtain ⟨-, ⟨-, rfl⟩ | ⟨s, -, rfl⟩⟩ := step_turn hstep
    · exact absurd hlen (lt_irrefl _)
    · simp [Account.meter] at hlen
  | endSession id now =>
    obtain ⟨-, rfl | ⟨s, -, rfl⟩⟩ := step_end hstep
    · exact absurd hlen (lt_irrefl _)
    · simp [Account.close] at hlen

/-- The turns of the open sessions are not gated: each is taken whatever remains of the quota, and
charges the day its gap, which is one cap at most. -/
def TakesTurns (cfg : Settings) (w : Account) : Prop :=
  ∀ id s now, w.live id = some s → w.clock ≤ now →
    let gap := elapsedMinutes s.lastActivityAt now (some cfg.turnMeterCap)
    gap ≤ cfg.turnMeterCap ∧ ∃ w', step cfg w (.turn id none now) = some w' ∧
      w'.sessions[id]? = some (meterSession gap s now) ∧
      w'.chargedOn (date now) = w.chargedOn (date now) + max 0 gap

theorem chargedOn_meter (cfg : Settings) (w : Account) (id : Nat) (s : ConversationSession)
    (now : Instant) :
    (w.meter cfg id s now now).chargedOn (date now) = w.chargedOn (date now) +
      max 0 (elapsedMinutes s.lastActivityAt now (some cfg.turnMeterCap)) := by
  by_cases hpos : 0 < elapsedMinutes s.lastActivityAt now (some cfg.turnMeterCap)
  · have husage : usageOf (elapsedMinutes s.lastActivityAt now (some cfg.turnMeterCap)) now =
        some ⟨elapsedMinutes s.lastActivityAt now (some cfg.turnMeterCap), date now⟩ := if_pos hpos
    rw [chargedOn_record (congrArg (w.record cfg id) husage), if_pos rfl, max_eq_right hpos.le]
  · have husage : usageOf (elapsedMinutes s.lastActivityAt now (some cfg.turnMeterCap)) now =
        none := if_neg hpos
    have hsame : (w.meter cfg id s now now).charges = w.charges := by
      rw [Account.meter, husage, record_none]
    rw [Account.chargedOn, hsame, max_eq_left (not_lt.mp hpos), add_zero, Account.chargedOn]

theorem takesTurns (cfg : Settings) (w : Account) : TakesTurns cfg w := by
  intro id s now hlive hclock
  refine ⟨elapsedMinutes_le_cap .., ?_⟩
  obtain ⟨w', hstep⟩ : ∃ w', step cfg w (.turn id none now) = some w' := by
    rw [step, if_pos hclock]
    exact ⟨_, rfl⟩
  obtain ⟨-, ⟨hnone, -⟩ | ⟨s', hlive', rfl⟩⟩ := step_turn hstep
  · rw [hlive] at hnone
    cases hnone
  · obtain rfl : s = s' := Option.some.inj (hlive.symm.trans hlive')
    obtain ⟨hlt, -⟩ := List.getElem?_eq_some_iff.mp (live_eq_some_iff.mp hlive).1
    exact ⟨_, hstep, List.getElem?_set_self hlt, chargedOn_meter cfg w id s now⟩

theorem bounded_registered (cfg : Settings) (clock : Instant) (id : Int) :
    Bounded cfg (registered clock id tierFree) where
  toQuotaOk := quotaOk_registered clock id
  ledger := fun day _ => by simp [registered, Account.chargedOn, billedWhere, User.usedOn]
  bound := fun day => by
    simp only [registered, Account.chargedOn, billedWhere, List.filter_nil, List.map_nil,
      List.sum_nil]
    positivity

/-- **The quota gates the opening of sessions only.** With server instants, a
session opens only while less than the quota is charged to the day; the turns of an
open session are taken and charged whatever remains, one cap each at most; so the
minutes charged to a day stay within the quota and one cap, plus one cap for each
charge an open session makes after the quota is spent. -/
theorem quota_gates_openings (cfg : Settings) (clock : Instant) (id : Int) {ops : List Op}
    {w : Account} (hserver : Along (step cfg) serverClock (registered clock id tierFree) ops)
    (hrun : run (step cfg) (registered clock id tierFree) ops = some w) :
    Along (step cfg) (opensUnspent cfg) (registered clock id tierFree) ops ∧ TakesTurns cfg w ∧
      ∀ day, w.chargedOn day ≤
        max 0 (cfg.freeDaily : ℚ) + max 0 cfg.turnMeterCap * (1 + w.spentOn day) := by
  have hinit := bounded_registered cfg clock id
  have hstep : ∀ w op w', Bounded cfg w → serverClock w op w' → step cfg w op = some w' →
      opensUnspent cfg w op w' ∧ Bounded cfg w' :=
    fun _ _ _ hi hg hs => ⟨opensUnspent_step hi hs, bounded_step hi hg hs⟩
  have hend : Bounded cfg w :=
    run_invariant (fun w op w' hi hg hs => (hstep w op w' hi hg hs).2) hinit hserver hrun
  exact ⟨along_of_invariant hstep hinit hserver, takesTurns cfg w, hend.bound⟩

instance (w : Account) (op : Op) (w' : Account) : Decidable (serverClock w op w') :=
  match op with
  | .turn .. => inferInstanceAs (Decidable (_ = _))
  | .start .. => inferInstanceAs (Decidable True)
  | .endSession .. => inferInstanceAs (Decidable True)

/-- A session opened at midnight, with a turn every five minutes for `n` turns. -/
def everyFiveMinutes (n : Nat) : List Op :=
  .start ⟨0, 0, 0, 0⟩ true ::
    (List.range n).map fun k => .turn 0 none (minuteOf 0 (5 * (k + 1)))

theorem quota_gates_openings_two_turns :
    ∃ w, run (step shipped) (registered 0 1 tierFree) (everyFiveMinutes 2) = some w ∧
      (Along (step shipped) (opensUnspent shipped) (registered 0 1 tierFree) (everyFiveMinutes 2) ∧
        TakesTurns shipped w ∧ ∀ day, w.chargedOn day ≤ max 0 ((shipped.freeDaily : ℤ) : ℚ) +
          max 0 shipped.turnMeterCap * (1 + w.spentOn day)) := by
  obtain ⟨w, hw, -⟩ := exists_run_of_check (step shipped) (registered 0 1 tierFree)
    (everyFiveMinutes 2) (fun _ => true) (by decide +kernel)
  exact ⟨w, hw, quota_gates_openings shipped 0 1 (by decide +kernel) hw⟩

/-- Four turns in an open session charge twenty minutes, past the ten of the day
and the five of one cap. -/
theorem open_session_charged_past_quota :
    ∃ w, run (step shipped) (registered 0 1 tierFree) (everyFiveMinutes 4) = some w ∧
      Along (step shipped) serverClock (registered 0 1 tierFree) (everyFiveMinutes 4) ∧
      w.chargedOn 0 = 20 ∧
      ¬w.chargedOn 0 ≤ (shipped.freeDaily : ℚ) + shipped.turnMeterCap := by
  obtain ⟨w, hw, hd⟩ := exists_run_of_check (step shipped) (registered 0 1 tierFree)
    (everyFiveMinutes 4) (fun w => decide (w.chargedOn 0 = 20)) (by decide +kernel)
  refine ⟨w, hw, by decide +kernel, of_decide_eq_true hd, ?_⟩
  rw [of_decide_eq_true hd]
  norm_num [shipped]

end Apm.Sessions
