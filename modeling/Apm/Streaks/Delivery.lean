import Apm.Sessions.History
import Mathlib.Data.Finset.Max
import Mathlib.Order.Bounds.Basic

/-!
# Streaks and the order of delivery

An offline turn is delivered after turns of later days, and the streak transition
compares the day of a turn with the day delivered last. This file proves that the
streak columns tell the practice days of the learner exactly while the days are
delivered in order.
-/

namespace Apm.Streaks

open Apm.Core Apm.Lib Apm.Sessions

set_option autoImplicit false

/-- The `n` days up to `d` are days of practice. -/
def Consecutive (days : List Int) (d : Int) (n : Nat) : Prop := ∀ i : Nat, i < n → d - i ∈ days

/-- The streak columns tell the days of practice, whatever order they came in. -/
structure StreakKept (days : List Day) (user : User) : Prop where
  last : ∀ d, user.lastActiveDate = some d ↔ IsGreatest {d | d ∈ days} d
  current : ∀ d, user.lastActiveDate = some d →
    ∃ n : Nat, user.currentStreak = n ∧ Consecutive days d n ∧ d - n ∉ days
  longest : ∃ n : Nat, user.longestStreak = n ∧ IsGreatest {n | ∃ d, Consecutive days d n} n

/-- An account with the days of its turns, the latest delivery first. -/
structure Learner where
  account : Account
  days : List Day

/-- The day a turn of an open session is credited to. -/
def practiceDay (w : Account) : Op → Option Day
  | .turn id practicedAt now => (w.live id).map fun _ => date (clampPracticedAt practicedAt now)
  | _ => none

def deliver (cfg : Settings) (x : Learner) (op : Op) : Option Learner :=
  (step cfg x.account op).map fun w => ⟨w, (practiceDay x.account op).toList ++ x.days⟩

/-- The columns tell the days so far, and the longest streak did not decrease. -/
def streakTold (x : Learner) (_ : Op) (x' : Learner) : Prop :=
  StreakKept x'.days x'.account.user ∧
    x.account.user.longestStreak ≤ x'.account.user.longestStreak

/-- A turn is delivered for a day before the stored last active date. -/
def behindLastDay (x : Learner) (op : Op) : Prop :=
  ∃ d ∈ practiceDay x.account op, ∃ last ∈ x.account.user.lastActiveDate, d < last

section columns

variable {days : List Int} {user user' : User} {d : Int}

theorem StreakKept.congr (h : StreakKept days user) (hlast : user'.lastActiveDate = user.lastActiveDate)
    (hcurrent : user'.currentStreak = user.currentStreak)
    (hlongest : user'.longestStreak = user.longestStreak) : StreakKept days user' where
  last d := by rw [hlast]; exact h.last d
  current d hd := by rw [hcurrent]; exact h.current d (hlast ▸ hd)
  longest := by rw [hlongest]; exact h.longest

theorem Consecutive.cons {n : Nat} {e : Int} (h : Consecutive days d n) :
    Consecutive (e :: days) d n := fun i hi => List.mem_cons_of_mem _ (h i hi)

/-- A run through a day that is not before any other ends on it. -/
theorem consecutive_cons {n : Nat} {e : Int} (hd : ∀ d' ∈ days, d' ≤ d)
    (h : Consecutive (d :: days) e n) : Consecutive days e n ∨ e = d := by
  by_cases hn : n = 0
  · left
    intro i hi
    omega
  · have he : e ∈ d :: days := by simpa using h 0 (Nat.pos_of_ne_zero hn)
    rcases List.mem_cons.mp he with rfl | he
    · exact .inr rfl
    · left
      intro i hi
      rcases List.mem_cons.mp (h i hi) with heq | hmem
      · have hle := hd e he
        have hzero : e - (i : Int) = e := by omega
        rw [hzero]
        exact he
      · exact hmem

/-- The longest run after a day that is not before any other. -/
theorem longest_cons {m n : Nat} (hd : ∀ d' ∈ days, d' ≤ d)
    (hm : IsGreatest {n | ∃ d, Consecutive days d n} m) (hn : Consecutive (d :: days) d n)
    (hstop : d - n ∉ d :: days) :
    IsGreatest {n | ∃ e, Consecutive (d :: days) e n} (max m n) := by
  constructor
  · rcases le_total m n with hle | hle
    · rw [max_eq_right hle]
      exact ⟨d, hn⟩
    · rw [max_eq_left hle]
      obtain ⟨e, he⟩ := hm.1
      exact ⟨e, he.cons⟩
  · rintro k ⟨e, he⟩
    rcases consecutive_cons hd he with hold | rfl
    · exact (hm.2 ⟨e, hold⟩).trans (le_max_left ..)
    · refine le_trans ?_ (le_max_right ..)
      by_contra hlt
      exact hstop (he n (not_le.mp hlt))

/-- The day that is registered is a day of practice from then on. -/
theorem applyActiveDay_last (user : User) (d : Day) :
    (applyActiveDay user d).lastActiveDate = some d := by
  simp only [applyActiveDay, registerActiveDay]
  split
  · assumption
  · rfl

theorem longest_le_applyActiveDay (user : User) (d : Day) :
    user.longestStreak ≤ (applyActiveDay user d).longestStreak := by
  simp only [applyActiveDay, registerActiveDay]
  split
  · exact le_rfl
  · exact le_max_left ..

/-- Some day is the latest. -/
theorem exists_latest (h : d ∈ days) : ∃ g, IsGreatest {d | d ∈ days} g := by
  refine ⟨days.toFinset.max' ⟨d, List.mem_toFinset.mpr h⟩, ?_⟩
  rw [← List.coe_toFinset]
  exact days.toFinset.isGreatest_max' _

theorem StreakKept.le (h : StreakKept days user)
    (hd : ∀ last, user.lastActiveDate = some last → last ≤ d) : ∀ d' ∈ days, d' ≤ d := by
  intro d' hd'
  obtain ⟨g, hg⟩ := exists_latest hd'
  exact (hg.2 hd').trans (hd g ((h.last g).mpr hg))

/-- A day that is not before the last one is registered as the columns should say. -/
theorem StreakKept.register (h : StreakKept days user)
    (hd : ∀ last, user.lastActiveDate = some last → last ≤ d) :
    StreakKept (d :: days) (applyActiveDay user d) := by
  have hle : ∀ d' ∈ days, d' ≤ d := h.le hd
  have hgreatest : IsGreatest {d' | d' ∈ d :: days} d := by
    refine ⟨List.mem_cons_self, fun d' hd' => ?_⟩
    rcases List.mem_cons.mp hd' with rfl | hd'
    · exact le_rfl
    · exact hle d' hd'
  have hlast : ∀ e, (applyActiveDay user d).lastActiveDate = some e ↔
      IsGreatest {d' | d' ∈ d :: days} e := by
    intro e
    rw [applyActiveDay_last, Option.some.injEq]
    exact ⟨fun he => he ▸ hgreatest, fun he => hgreatest.unique he⟩
  obtain ⟨m, hm, hlongest⟩ := h.longest
  by_cases hsame : user.lastActiveDate = some d
  · have hmem : d ∈ days := ((h.last d).mp hsame).1
    have hiff : ∀ x, x ∈ d :: days ↔ x ∈ days := fun x => by
      rw [List.mem_cons]
      exact ⟨fun hx => hx.elim (fun he => he ▸ hmem) id, .inr⟩
    have huser : applyActiveDay user d = user := by
      simp only [applyActiveDay, registerActiveDay, hsame, if_true]
      rw [← hsame]
    rw [huser] at hlast ⊢
    refine ⟨hlast, fun e he => ?_, m, hm, ?_⟩
    · obtain ⟨n, hn, hrun, hstop⟩ := h.current e he
      exact ⟨n, hn, hrun.cons, fun hx => hstop ((hiff _).mp hx)⟩
    · simpa only [Consecutive, hiff] using hlongest
  · obtain ⟨n, hn, hrun, hstop⟩ : ∃ n : Nat, (applyActiveDay user d).currentStreak = n ∧
        Consecutive (d :: days) d n ∧ d - n ∉ d :: days := by
      by_cases hnext : user.lastActiveDate = some (d - 1)
      · obtain ⟨n, hn, hrun, hstop⟩ := h.current (d - 1) hnext
        refine ⟨n + 1, ?_, fun i hi => ?_, fun hx => ?_⟩
        · simp [applyActiveDay, registerActiveDay, hnext, hn]
        · cases i with
          | zero => simp
          | succ i =>
            have hi' := hrun i (by omega)
            have heq : d - ((i + 1 : Nat) : Int) = d - 1 - i := by omega
            rw [heq]
            exact List.mem_cons_of_mem _ hi'
        · have heq : d - ((n + 1 : Nat) : Int) = d - 1 - n := by omega
          rw [heq] at hx
          rcases List.mem_cons.mp hx with hx | hx
          · omega
          · exact hstop hx
      · refine ⟨1, ?_, fun i hi => ?_, fun hx => ?_⟩
        · simp [applyActiveDay, registerActiveDay, hsame, hnext]
        · obtain rfl : i = 0 := by omega
          simp
        · -- the day before was not practised: it would be the last one
          have hbefore : d - 1 ∈ days := by
            rcases List.mem_cons.mp hx with hx | hx
            · omega
            · exact hx
          obtain ⟨g, hg⟩ := exists_latest hbefore
          have hg' := (h.last g).mpr hg
          have hlow : d - 1 ≤ g := hg.2 hbefore
          have hhigh : g ≤ d := hd g hg'
          rcases eq_or_lt_of_le hhigh with rfl | hlt
          · exact hsame hg'
          · obtain rfl : g = d - 1 := by omega
            exact hnext hg'
    have hcurrent : ∀ e, (applyActiveDay user d).lastActiveDate = some e →
        ∃ n : Nat, (applyActiveDay user d).currentStreak = n ∧ Consecutive (d :: days) e n ∧
          e - n ∉ d :: days := by
      intro e he
      obtain rfl : d = e := Option.some.inj ((applyActiveDay_last user d).symm.trans he)
      exact ⟨n, hn, hrun, hstop⟩
    refine ⟨hlast, hcurrent, max m n, ?_, longest_cons hle hlongest hrun hstop⟩
    have hmax : (applyActiveDay user d).longestStreak =
        max user.longestStreak (applyActiveDay user d).currentStreak := by
      simp only [applyActiveDay, registerActiveDay, if_neg hsame]
    rw [hmax, hm, hn, Nat.cast_max]

/-- A day before the last one is not registered as the columns should say. -/
theorem StreakKept.not_behind {last : Day} (h : StreakKept days user)
    (hlast : user.lastActiveDate = some last) (hd : d < last) :
    ¬StreakKept (d :: days) (applyActiveDay user d) := by
  intro hkept
  have hgreatest := (hkept.last d).mp (applyActiveDay_last user d)
  have hmem : last ∈ d :: days := List.mem_cons_of_mem _ ((h.last last).mp hlast).1
  exact absurd (hgreatest.2 hmem) (not_le.mpr hd)

end columns

section runs

variable {cfg : Settings} {x x' : Learner} {op : Op}

theorem charge_streak (user : User) (usage : Option Usage) :
    (charge user usage).lastActiveDate = user.lastActiveDate ∧
      (charge user usage).currentStreak = user.currentStreak ∧
      (charge user usage).longestStreak = user.longestStreak := by
  cases usage with
  | none => exact ⟨rfl, rfl, rfl⟩
  | some u =>
    exact ⟨recordUsage_lastActiveDate .., recordUsage_currentStreak .., recordUsage_longestStreak ..⟩

/-- What an operation makes of the streak columns: nothing, or the day of a turn. -/
theorem step_streak {w w' : Account} (h : step cfg w op = some w') :
    ∃ user : User, user.lastActiveDate = w.user.lastActiveDate ∧
      user.currentStreak = w.user.currentStreak ∧ user.longestStreak = w.user.longestStreak ∧
      w'.user = match practiceDay w op with
        | none => user
        | some d => applyActiveDay user d := by
  have hclose : ∀ (s : ConversationSession) (now : Instant),
      (closeUser cfg.turnMeterCap s w.user now).lastActiveDate = w.user.lastActiveDate ∧
        (closeUser cfg.turnMeterCap s w.user now).currentStreak = w.user.currentStreak ∧
        (closeUser cfg.turnMeterCap s w.user now).longestStreak = w.user.longestStreak :=
    fun s now => charge_streak w.user _
  cases op with
  | start t missionOwned =>
    cases (step_start h).2 with
    | refused | opened => exact ⟨w.user, rfl, rfl, rfl, rfl⟩
    | reapedOnly id s | reapedThenOpened id s =>
      obtain ⟨hlast, hcurrent, hlongest⟩ := hclose s t.now
      exact ⟨_, hlast, hcurrent, hlongest, rfl⟩
  | turn id practicedAt now =>
    obtain ⟨-, ⟨hnone, rfl⟩ | ⟨s, hlive, rfl⟩⟩ := step_turn h
    · exact ⟨w.user, rfl, rfl, rfl, by rw [practiceDay, hnone]; rfl⟩
    · obtain ⟨hlast, hcurrent, hlongest⟩ := charge_streak w.user
        (usageOf (elapsedMinutes s.lastActivityAt (clampPracticedAt practicedAt now)
          (some cfg.turnMeterCap)) (clampPracticedAt practicedAt now))
      exact ⟨_, hlast, hcurrent, hlongest, by rw [practiceDay, hlive]; rfl⟩
  | endSession id now =>
    obtain ⟨-, rfl | ⟨s, hlive, rfl⟩⟩ := step_end h
    · exact ⟨w.user, rfl, rfl, rfl, rfl⟩
    · obtain ⟨hlast, hcurrent, hlongest⟩ := hclose s now
      exact ⟨_, hlast, hcurrent, hlongest, rfl⟩

/-- An operation leaves the columns telling the days exactly when it is not behind. -/
theorem streakTold_step_iff (h : StreakKept x.days x.account.user)
    (hstep : deliver cfg x op = some x') : streakTold x op x' ↔ ¬behindLastDay x op := by
  obtain ⟨w', hw, rfl⟩ := Option.map_eq_some_iff.mp hstep
  obtain ⟨user, hlast, hcurrent, hlongest, huser⟩ := step_streak hw
  have hkept : StreakKept x.days user := h.congr hlast hcurrent hlongest
  rw [streakTold, huser, ← hlongest]
  cases hday : practiceDay x.account op with
  | none =>
    refine iff_of_true ⟨hkept, le_rfl⟩ ?_
    rintro ⟨d, hd, -⟩
    rw [hday] at hd
    cases hd
  | some d =>
    constructor
    · rintro ⟨htold, -⟩ ⟨d', hd', last, hl, hlt⟩
      obtain rfl : d = d' := Option.some.inj (hday.symm.trans hd')
      exact hkept.not_behind (hlast.trans hl) hlt htold
    · intro hordered
      refine ⟨hkept.register fun last hl => ?_, longest_le_applyActiveDay user d⟩
      by_contra hlt
      exact hordered ⟨d, hday, last, hlast.symm.trans hl, not_le.mp hlt⟩

theorem streakKept_registered (clock : Instant) (id : Int) (tier : String) :
    StreakKept [] (registered clock id tier).user where
  last d := by
    refine iff_of_false (fun h => by cases h) fun h => ?_
    exact absurd h.1 List.not_mem_nil
  current d h := by cases h
  longest := by
    refine ⟨0, rfl, ⟨0, fun i hi => absurd hi (Nat.not_lt_zero i)⟩, ?_⟩
    rintro n ⟨d, hd⟩
    by_contra hn
    exact absurd (hd 0 (not_le.mp hn)) List.not_mem_nil

/-- **The streak columns tell the days of practice exactly while they come in order.**
In every run of an account, with any practice instants, the last active date is the
latest day delivered, the current streak the run of days ending on it and the longest
streak the longest run, after every operation, if and only if no turn is delivered for a
day before the stored last active date. -/
theorem streak_told_iff (cfg : Settings) (clock : Instant) (id : Int) (tier : String)
    (ops : List Op) :
    Along (deliver cfg) streakTold ⟨registered clock id tier, []⟩ ops ↔
      Along (deliver cfg) (fun x op _ => ¬behindLastDay x op) ⟨registered clock id tier, []⟩ ops :=
  along_iff_of_invariant (I := fun x => StreakKept x.days x.account.user)
    (fun _ _ _ hi (hs : deliver cfg _ _ = some _) => streakTold_step_iff hi hs)
    (fun _ _ _ hi hg (hs : deliver cfg _ _ = some _) => ((streakTold_step_iff hi hs).mpr hg).1)
    (streakKept_registered clock id tier)

end runs

/-- A session on day nine, a turn there and a turn on day ten. -/
def inOrder : List Op :=
  [.start ⟨9 * microsPerDay, 9 * microsPerDay, 9 * microsPerDay, 9 * microsPerDay⟩ true,
    .turn 0 none (9 * microsPerDay), .turn 0 none (10 * microsPerDay)]

/-- The turn of day nine is replayed within the 48 hours, after the turn of day ten. -/
def replayedLate : List Op :=
  [.start ⟨9 * microsPerDay, 9 * microsPerDay, 9 * microsPerDay, 9 * microsPerDay⟩ true,
    .turn 0 none (10 * microsPerDay), .turn 0 (some (9 * microsPerDay)) (10 * microsPerDay)]

/-- The same two days leave another last active date and another streak. -/
theorem replayed_day_breaks_streak :
    clampPracticedAt (some (9 * microsPerDay)) (10 * microsPerDay) = 9 * microsPerDay ∧
      (∃ x, run (deliver shipped) ⟨registered 0 1 tierFree, []⟩ inOrder = some x ∧
        x.days = [10, 9] ∧ x.account.user.lastActiveDate = some 10 ∧
        x.account.user.currentStreak = 2 ∧ x.account.user.longestStreak = 2) ∧
      (∃ x, run (deliver shipped) ⟨registered 0 1 tierFree, []⟩ replayedLate = some x ∧
        x.days = [9, 10] ∧ x.account.user.lastActiveDate = some 9 ∧
        x.account.user.currentStreak = 1 ∧ x.account.user.longestStreak = 1 ∧
        ¬StreakKept x.days x.account.user) := by
  refine ⟨by decide +kernel, ?_, ?_⟩
  · obtain ⟨x, hx, hd⟩ := exists_run_of_check (deliver shipped) ⟨registered 0 1 tierFree, []⟩ inOrder
      (fun x => decide (x.days = [10, 9] ∧ x.account.user.lastActiveDate = some 10 ∧
        x.account.user.currentStreak = 2 ∧ x.account.user.longestStreak = 2)) (by decide +kernel)
    exact ⟨x, hx, of_decide_eq_true hd⟩
  · obtain ⟨x, hx, hd⟩ := exists_run_of_check (deliver shipped) ⟨registered 0 1 tierFree, []⟩
      replayedLate (fun x => decide (x.days = [9, 10] ∧ x.account.user.lastActiveDate = some 9 ∧
        x.account.user.currentStreak = 1 ∧ x.account.user.longestStreak = 1)) (by decide +kernel)
    obtain ⟨hdays, hlast, hcurrent, hlongest⟩ := of_decide_eq_true hd
    refine ⟨x, hx, hdays, hlast, hcurrent, hlongest, fun h => ?_⟩
    have hgreatest := (h.last 9).mp hlast
    rw [hdays] at hgreatest
    exact absurd (hgreatest.2 (show (10 : Int) ∈ [9, 10] by simp)) (by decide)

end Apm.Streaks
