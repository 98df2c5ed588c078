import Apm.Lib.Climb
import Apm.Review.Scheduler
import Mathlib.Data.List.Pairwise

/-!
# The ladder of an error type

A tracked error type climbs one rung for each session without it that is due. This
file proves what its row says after any history of sessions, and that it is mastered
exactly when the sessions since its last appearance were spaced by the whole ladder.
-/

namespace Apm.Review

open Apm.Core Apm.Lib

set_option autoImplicit false

/-- One call of `record_session`. -/
structure Session where
  errorsSeen : List (String × String)
  now : Instant

/-- The error type is in the map of the session. -/
def Session.saw (s : Session) (errorType : String) : Prop :=
  errorType ∈ s.errorsSeen.map Prod.fst

instance (s : Session) (errorType : String) : Decidable (s.saw errorType) :=
  inferInstanceAs (Decidable (_ ∈ _))

/-- The schedule of one error type. -/
def stateOf (items : List ReviewItem) (errorType : String) : Option ReviewState :=
  (items.find? (·.errorType = errorType)).map ReviewItem.state

/-- The rows of a learner after some calls of `record_session`, the first one first. -/
def recordSessions (blank : String → Bool) (sessions : List Session) : List ReviewItem :=
  sessions.foldl (fun items s => recordSession blank items s.errorsSeen s.now) []

/-- The instant of the last session that changed the schedule of the error type. -/
def lastChange (blank : String → Bool) (errorType : String) (sessions : List Session) :
    Option Instant :=
  (sessions.foldl (fun (r : List ReviewItem × Option Instant) s =>
      let items := recordSession blank r.1 s.errorsSeen s.now
      (items, if stateOf items errorType = stateOf r.1 errorType then r.2 else some s.now))
    ([], none)).2

/-- What the row of a tracked error type says, `changedAt` its last change. -/
structure OnLadder (changedAt : Instant) (state : ReviewState) : Prop where
  due : state.status = .due → state.stage = state.cleanStreak ∧ state.cleanStreak < masteryStreak ∧
    state.nextReviewAt = some (reviewAfter changedAt state.stage)
  mastered : state.status = .mastered → state.cleanStreak = masteryStreak ∧ state.stage = 2 ∧
    state.nextReviewAt = none

/-- `errorType` last appeared in session `s`, and `after` are the sessions since. -/
def LastSeen (sessions : List Session) (errorType : String) (s : Session)
    (after : List Session) : Prop :=
  (∃ before, sessions = before ++ s :: after) ∧ s.saw errorType ∧
    ∀ a ∈ after, ¬a.saw errorType

/-- Sessions one day after `s`, three days after that and seven days after that. -/
def Spaced (s : Instant) (instants : List Instant) : Prop :=
  ∃ t₁ ∈ instants, ∃ t₂ ∈ instants, ∃ t₃ ∈ instants, s + microsPerDay ≤ t₁ ∧
    t₁ + 3 * microsPerDay ≤ t₂ ∧ t₂ + 7 * microsPerDay ≤ t₃

section history

variable {blank : String → Bool} {sessions : List Session} {errorType : String}

theorem stateOf_map (types : List String) (f : String → ReviewItem)
    (hf : ∀ t, (f t).errorType = t) (errorType : String) :
    stateOf (types.map f) errorType =
      if errorType ∈ types then some (f errorType).state else none := by
  induction types with
  | nil => rfl
  | cons t types ih =>
    rw [stateOf, List.map_cons, List.find?_cons, hf]
    by_cases ht : t = errorType
    · simp [ht]
    · rw [decide_eq_false ht]
      simp only [List.mem_cons, Ne.symm ht, false_or]
      exact ih

theorem stateOf_isSome {items : List ReviewItem} :
    (stateOf items errorType).isSome = true ↔ errorType ∈ items.map ReviewItem.errorType := by
  rw [stateOf, Option.isSome_map, List.find?_isSome, List.mem_map]
  simp only [decide_eq_true_eq]

theorem lookup_isSome {seen : List (String × String)} :
    (seen.lookup errorType).isSome = true ↔ errorType ∈ seen.map Prod.fst := by
  rw [List.lookup_isSome_iff, List.mem_map]
  constructor
  · rintro ⟨p, hp, he⟩
    exact ⟨p, hp, (eq_of_beq he).symm⟩
  · rintro ⟨p, hp, he⟩
    exact ⟨p, hp, beq_iff_eq.mpr he.symm⟩

/-- What one session makes of the schedule of an error type. -/
theorem stateOf_recordSession (blank : String → Bool) (items : List ReviewItem)
    (errorsSeen : List (String × String)) (now : Instant) (errorType : String) :
    stateOf (recordSession blank items errorsSeen now) errorType =
      if blank errorType then none
      else match errorsSeen.lookup errorType with
        | some correction =>
          some (onErrorSeen ((stateOf items errorType).getD .new) correction now)
        | none => (stateOf items errorType).map (onErrorAbsent · now) := by
  rw [recordSession, stateOf_map _ _ (fun t => by dsimp only; split <;> rfl)]
  by_cases hblank : blank errorType = true
  · simp [hblank]
  have htype : (errorType ∈ (items.map ReviewItem.errorType ++
      (errorsSeen.map Prod.fst).filter (· ∉ items.map ReviewItem.errorType)).filter
        fun t => !blank t) ↔
      (stateOf items errorType).isSome = true ∨ (errorsSeen.lookup errorType).isSome = true := by
    rw [stateOf_isSome, lookup_isSome]
    simp only [List.mem_filter, List.mem_append, decide_eq_true_eq, Bool.not_eq_true', hblank]
    tauto
  rw [if_neg hblank]
  simp only [htype]
  change (if _ then some (match errorsSeen.lookup errorType with
    | some correction =>
      (⟨errorType, onErrorSeen ((stateOf items errorType).getD .new) correction now⟩ : ReviewItem)
    | none => ⟨errorType, onErrorAbsent ((stateOf items errorType).getD .new) now⟩).state
    else none) = _
  cases hseen : errorsSeen.lookup errorType with
  | some correction => simp
  | none =>
    cases hstate : stateOf items errorType with
    | none => simp
    | some state => simp

theorem recordSessions_append (blank : String → Bool) (sessions : List Session) (x : Session) :
    recordSessions blank (sessions ++ [x]) =
      recordSession blank (recordSessions blank sessions) x.errorsSeen x.now := by
  rw [recordSessions, List.foldl_append]
  rfl

theorem lastChange_append (blank : String → Bool) (errorType : String) (sessions : List Session)
    (x : Session) :
    lastChange blank errorType (sessions ++ [x]) =
      if stateOf (recordSessions blank (sessions ++ [x])) errorType =
          stateOf (recordSessions blank sessions) errorType
      then lastChange blank errorType sessions else some x.now := by
  have hitems : ∀ (xs : List Session) (r : List ReviewItem × Option Instant),
      (xs.foldl (fun (r : List ReviewItem × Option Instant) s =>
        let items := recordSession blank r.1 s.errorsSeen s.now
        (items, if stateOf items errorType = stateOf r.1 errorType then r.2 else some s.now)) r).1 =
      xs.foldl (fun items s => recordSession blank items s.errorsSeen s.now) r.1 := by
    intro xs
    induction xs with
    | nil => exact fun _ => rfl
    | cons s xs ih => exact fun r => ih _
  rw [recordSessions_append, lastChange, List.foldl_append]
  simp only [List.foldl_cons, List.foldl_nil, hitems]
  rfl

/-- The rungs of the ladder. Past the last one the gap stays the last. -/
def rung (k : Nat) (u : Instant) : Instant := u + intervalDays.getD k 7 * microsPerDay

theorem rung_eq {k : Nat} (hk : k < masteryStreak) (u : Instant) : rung k u = reviewAfter u k := by
  rw [rung, reviewAfter]
  match k, hk with
  | 0, _ | 1, _ | 2, _ => rfl

theorem lt_rung (k : Nat) (u : Instant) : u < rung k u := by
  rw [rung, microsPerDay, microsPerHour, microsPerMinute, microsPerSecond]
  match k with
  | 0 => simp [intervalDays]
  | 1 => simp [intervalDays]
  | 2 => simp [intervalDays]
  | k + 3 => simp [intervalDays]

theorem rung_mono (k : Nat) {u v : Instant} (h : u ≤ v) : rung k u ≤ rung k v :=
  Int.add_le_add_right h _

/-- The row of an error type last seen at `s`, after clean sessions at `ts`: the
greedy climb, up to the rung where it is mastered. -/
def Standing (s : Instant) (ts : List Instant) (u : Instant) (state : ReviewState) : Prop :=
  (state.status = .due ∧ state.cleanStreak = state.stage ∧ state.stage < masteryStreak ∧
      state.nextReviewAt = some (rung state.stage u) ∧ Earliest rung ts s state.stage u) ∨
    (state.status = .mastered ∧ state.cleanStreak = masteryStreak ∧ state.stage = 2 ∧
      state.nextReviewAt = none ∧ Climb rung ts s masteryStreak u)

theorem standing_seen (state : ReviewState) (correction : String) (now : Instant) :
    Standing now [] now (onErrorSeen state correction now) :=
  .inl ⟨rfl, rfl, Nat.succ_pos 2, rfl, .start rung now⟩

/-- A clean session leaves the row and its last change, or changes it now. -/
theorem standing_absent {s u now : Instant} {ts : List Instant} {state : ReviewState}
    (h : Standing s ts u state) (hs : s ≤ now) (hts : ∀ t ∈ ts, t ≤ now) :
    (onErrorAbsent state now = state ∧ Standing s (ts ++ [now]) u state) ∨
      (onErrorAbsent state now ≠ state ∧
        Standing s (ts ++ [now]) now (onErrorAbsent state now)) := by
  rcases h with ⟨hstatus, hclean, hstage, hnext, hearliest⟩ | ⟨hstatus, hclean, hstage, hnext, hclimb⟩
  · by_cases hearly : now < rung state.stage u
    · left
      have hsame : onErrorAbsent state now = state := by
        rw [onErrorAbsent, if_neg (by rw [hstatus]; decide),
          if_pos (by rw [hnext]; exact decide_eq_true hearly)]
      exact ⟨hsame, .inl ⟨hstatus, hclean, hstage, hnext,
        hearliest.wait lt_rung (fun k _ _ => rung_mono k) hs hts hearly⟩⟩
    · right
      have hadvance := hearliest.advance lt_rung hs hts (not_lt.mp hearly)
      have hnew : onErrorAbsent state now =
          if masteryStreak ≤ state.cleanStreak + 1 then
            { state with cleanStreak := state.cleanStreak + 1, status := .mastered, nextReviewAt := none }
          else { state with
            stage := min (state.stage + 1) (intervalDays.length - 1)
            cleanStreak := state.cleanStreak + 1
            status := .due
            nextReviewAt := some (reviewAfter now (min (state.stage + 1) (intervalDays.length - 1))) } := by
        rw [onErrorAbsent, if_neg (by rw [hstatus]; decide),
          if_neg (by rw [hnext]; simpa using hearly)]
      refine ⟨fun hsame => ?_, ?_⟩
      · have hstreak : state.cleanStreak + 1 = state.cleanStreak := by
          rw [hnew] at hsame
          split at hsame <;> exact congrArg ReviewState.cleanStreak hsame
        omega
      · rw [hnew]
        by_cases hlast : masteryStreak ≤ state.cleanStreak + 1
        · have htop : state.stage = 2 := by
            rw [masteryStreak] at hlast hstage
            omega
          rw [if_pos hlast]
          refine .inr ⟨rfl, ?_, htop, rfl, ?_⟩
          · rw [hclean, htop]
            rfl
          · rw [htop] at hadvance
            exact hadvance.climbs
        · have hnotlast : state.stage + 1 < masteryStreak := by omega
          have hmin : min (state.stage + 1) (intervalDays.length - 1) = state.stage + 1 := by
            rw [masteryStreak] at hnotlast
            exact Nat.min_eq_left (by change state.stage + 1 ≤ 2; omega)
          rw [if_neg hlast, hmin, ← rung_eq hnotlast]
          exact .inl ⟨rfl, congrArg (· + 1) hclean, hnotlast, rfl, hadvance⟩
  · left
    exact ⟨by rw [onErrorAbsent, if_pos hstatus], .inr ⟨hstatus, hclean, hstage, hnext,
      hclimb.mono fun _ hv => List.mem_append_left _ hv⟩⟩

/-- The row of a tracked error type after any sessions. -/
theorem standing_of_recordSessions (hmono : sessions.Pairwise fun a b => a.now ≤ b.now)
    {state : ReviewState} (h : stateOf (recordSessions blank sessions) errorType = some state) :
    ∃ s after u, LastSeen sessions errorType s after ∧
      lastChange blank errorType sessions = some u ∧
      Standing s.now (after.map Session.now) u state := by
  induction sessions using List.reverseRecOn generalizing state with
  | nil => cases h
  | append_singleton sessions x ih =>
    have hbefore : sessions.Pairwise fun a b => a.now ≤ b.now := (List.pairwise_append.mp hmono).1
    have hlast : ∀ a ∈ sessions, a.now ≤ x.now := fun a ha =>
      (List.pairwise_append.mp hmono).2.2 a ha x (List.mem_singleton_self x)
    rw [lastChange_append, h]
    rw [recordSessions_append, stateOf_recordSession] at h
    split at h
    · cases h
    rename_i hblank
    by_cases hsaw : x.saw errorType
    · obtain ⟨correction, hcorrection⟩ := Option.isSome_iff_exists.mp (lookup_isSome.mpr hsaw)
      rw [hcorrection] at h
      obtain rfl := Option.some.inj h
      refine ⟨x, [], x.now, ⟨⟨sessions, rfl⟩, hsaw, by simp⟩, ?_, standing_seen _ _ _⟩
      split
      · rename_i hsame
        -- an appearance that changes nothing is one at the instant of the last change
        obtain ⟨s, after, u, -, hchange, hstanding⟩ := ih hbefore hsame.symm
        rw [hchange]
        rcases hstanding with ⟨-, -, -, hnext, -⟩ | ⟨hstatus, -⟩
        · have hrung : rung 0 x.now = rung 0 u := Option.some.inj hnext
          rw [rung, rung] at hrung
          rw [add_right_cancel hrung]
        · cases hstatus
      · rfl
    · have hnone : x.errorsSeen.lookup errorType = none := by
        rw [← Option.not_isSome_iff_eq_none, lookup_isSome]
        exact hsaw
      rw [hnone] at h
      obtain ⟨old, hold, rfl⟩ := Option.map_eq_some_iff.mp h
      obtain ⟨s, after, u, ⟨⟨before, rfl⟩, hseen, hclean⟩, hchange, hstanding⟩ := ih hbefore hold
      have hs : s.now ≤ x.now := hlast s (by simp)
      have hts : ∀ t ∈ after.map Session.now, t ≤ x.now := by
        intro t ht
        obtain ⟨a, ha, rfl⟩ := List.mem_map.mp ht
        exact hlast a (by simp [ha])
      have hlastseen : LastSeen ((before ++ s :: after) ++ [x]) errorType s (after ++ [x]) := by
        refine ⟨⟨before, by simp⟩, hseen, fun a ha => ?_⟩
        rcases List.mem_append.mp ha with ha | ha
        · exact hclean a ha
        · rw [List.mem_singleton.mp ha]
          exact hsaw
      rw [hold, hchange]
      rcases standing_absent hstanding hs hts with ⟨hsame, hstands⟩ | ⟨hnew, hstands⟩
      · refine ⟨s, after ++ [x], u, hlastseen, by rw [hsame, if_pos rfl], ?_⟩
        rw [hsame, List.map_append]
        exact hstands
      · refine ⟨s, after ++ [x], x.now, hlastseen, ?_, ?_⟩
        · rw [if_neg fun he => hnew (Option.some.inj he)]
        · rw [List.map_append]
          exact hstands

/-- The climb to the rung of mastery, spelled out. -/
theorem exists_climb_iff {s : Instant} {ts : List Instant} :
    (∃ u, Climb rung ts s masteryStreak u) ↔ Spaced s ts := by
  constructor
  · rintro ⟨t₃, h₃⟩
    cases h₃ with
    | step h₂ ht₃ hle₃ =>
      cases h₂ with
      | step h₁ ht₂ hle₂ =>
        cases h₁ with
        | step h₀ ht₁ hle₁ =>
          cases h₀
          rw [rung] at hle₁ hle₂ hle₃
          simp only [intervalDays, List.getD_cons_zero, List.getD_cons_succ, one_mul] at hle₁ hle₂ hle₃
          exact ⟨_, ht₁, _, ht₂, _, ht₃, hle₁, hle₂, hle₃⟩
  · rintro ⟨t₁, ht₁, t₂, ht₂, t₃, ht₃, h₁, h₂, h₃⟩
    refine ⟨t₃, .step (.step (.step .start ht₁ ?_) ht₂ h₂) ht₃ h₃⟩
    rw [rung]
    simpa [intervalDays] using h₁

theorem Standing.mastered_iff {s u : Instant} {ts : List Instant} {state : ReviewState}
    (h : Standing s ts u state) : state.status = .mastered ↔ Spaced s ts := by
  rw [← exists_climb_iff]
  rcases h with ⟨hstatus, -, hstage, -, hearliest⟩ | ⟨hstatus, -, -, -, hclimb⟩
  · rw [hstatus]
    refine iff_of_false (by decide) ?_
    rintro ⟨v, hv⟩
    -- the rungs below the mastery are climbed too
    have hbelow : ∀ n, state.stage < n → ∀ w, ¬Climb rung ts s n w := by
      intro n hn
      induction n, hn using Nat.le_induction with
      | base => exact hearliest.top
      | succ n _ ih =>
        intro w hw
        obtain ⟨w', hw', -⟩ := hw.descend
        exact ih w' hw'
    exact hbelow masteryStreak hstage v hv
  · exact iff_of_true hstatus ⟨u, hclimb⟩

end history

/-- **The ladder of every error type.** After any sessions at non-decreasing instants, each a
call that was committed, the row of a tracked error type is due on the rung of its clean
streak, scheduled from its last change, or mastered; and it is mastered exactly if the
sessions since its last appearance were spaced by the ladder, which takes eleven days. -/
theorem ladder_holds (blank : String → Bool) (sessions : List Session) (errorType : String)
    (state : ReviewState) (hmono : sessions.Pairwise fun a b => a.now ≤ b.now)
    (htracked : stateOf (recordSessions blank sessions) errorType = some state) :
    ∃ s after u, LastSeen sessions errorType s after ∧
      lastChange blank errorType sessions = some u ∧ OnLadder u state ∧
      (state.status = .mastered ↔ Spaced s.now (after.map Session.now)) ∧
      (state.status = .mastered → s.now + 11 * microsPerDay ≤ u) := by
  obtain ⟨s, after, u, hseen, hchange, hstanding⟩ := standing_of_recordSessions hmono htracked
  refine ⟨s, after, u, hseen, hchange, ?_, hstanding.mastered_iff, ?_⟩
  · rcases hstanding with ⟨hstatus, hclean, hstage, hnext, -⟩ | ⟨hstatus, hclean, hstage, hnext, -⟩
    · rw [rung_eq hstage] at hnext
      have hnot : state.status ≠ .mastered := by rw [hstatus]; decide
      exact ⟨fun _ => ⟨hclean.symm, hclean ▸ hstage, hnext⟩, fun h => absurd h hnot⟩
    · have hnot : state.status ≠ .due := by rw [hstatus]; decide
      exact ⟨fun h => absurd h hnot, fun _ => ⟨hclean, hstage, hnext⟩⟩
  · intro hmastered
    rcases hstanding with ⟨hstatus, -⟩ | ⟨-, -, -, -, hclimb⟩
    · rw [hstatus] at hmastered
      cases hmastered
    · obtain ⟨t₂, h₂, hle₃⟩ := hclimb.descend
      obtain ⟨t₁, h₁, hle₂⟩ := h₂.descend
      obtain ⟨t₀, h₀, hle₁⟩ := h₁.descend
      cases h₀
      rw [rung] at hle₁ hle₂ hle₃
      simp only [intervalDays, List.getD_cons_zero, List.getD_cons_succ, one_mul] at hle₁ hle₂ hle₃
      linarith

/-- An error, and clean sessions one, four and eleven days later. -/
def spacedSessions : List Session :=
  [⟨[("tense", "went")], 0⟩, ⟨[], microsPerDay⟩, ⟨[("article", "a")], 4 * microsPerDay⟩,
    ⟨[], 11 * microsPerDay⟩]

theorem ladder_holds_spaced :
    ∃ state, stateOf (recordSessions (fun _ => false) spacedSessions) "tense" = some state ∧
      state.status = .mastered ∧ ∃ s after u, LastSeen spacedSessions "tense" s after ∧
        Spaced s.now (after.map Session.now) ∧ s.now + 11 * microsPerDay ≤ u := by
  have hstate : stateOf (recordSessions (fun _ => false) spacedSessions) "tense" =
      some ⟨2, 3, .mastered, none, "went"⟩ := by decide +kernel
  obtain ⟨s, after, u, hseen, -, -, hiff, hlate⟩ := ladder_holds (fun _ => false) spacedSessions
    "tense" _ (by simp [spacedSessions, microsPerDay, microsPerHour, microsPerMinute, microsPerSecond])
    hstate
  exact ⟨_, hstate, rfl, s, after, u, hseen, hiff.mp rfl, hlate rfl⟩

end Apm.Review
