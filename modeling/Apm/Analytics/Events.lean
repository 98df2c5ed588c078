import Apm.Core.Time
import Apm.Lib.Calls
import Apm.Lib.Run
import Mathlib.Data.List.Dedup

/-!
# The analytics events and their summary

`session_completed` counts the user's completions, records one more and, behind the first one, an
activation; each is a transaction of its own, and any number of calls interleave with them, with
the retention purge and with the erasure of a user's data. A unique index refuses a second
activation and the purge spares the first, so that a user is activated once and stays so.
-/

namespace Apm.Analytics

open Apm.Core Apm.Lib

set_option autoImplicit false

/-- An event: its name with its properties. -/
inductive AnalyticsEvent where
  | activation
  | sessionCompleted (sessionId : Int) (cefr : String) (errorCount : Int)
  | transferStarted (skill : String)
  deriving DecidableEq, Repr

/-- `EVENT_ACTIVATION`, `EVENT_SESSION_COMPLETED`, `EVENT_TRANSFER_STARTED`. -/
inductive EventName where
  | activation
  | sessionCompleted
  | transferStarted
  deriving DecidableEq, Repr

def AnalyticsEvent.name : AnalyticsEvent → EventName
  | .activation => .activation
  | .sessionCompleted .. => .sessionCompleted
  | .transferStarted _ => .transferStarted

/-- A row of `analytics_events`; `created_at` is the start of its transaction. -/
structure AnalyticsEventRow where
  event : AnalyticsEvent
  userId : Int
  createdAt : Instant
  deriving DecidableEq, Repr

abbrev Rows := List AnalyticsEventRow

/-! ## The repository -/

def countEvents (rows : Rows) (userId : Int) (name : EventName) : Nat :=
  rows.countP fun r => decide (r.userId = userId ∧ r.event.name = name)

def distinctUsersWithEvent (rows : Rows) (name : EventName) : Nat :=
  ((rows.filter fun r => r.event.name = name).map AnalyticsEventRow.userId).dedup.length

def countEvent (rows : Rows) (name : EventName) : Nat :=
  rows.countP fun r => decide (r.event.name = name)

def countEventSince (rows : Rows) (name : EventName) (since : Instant) : Nat :=
  rows.countP fun r => decide (r.event.name = name ∧ since ≤ r.createdAt)

/-- `uq_analytics_activation_per_user`. -/
def violates (rows : Rows) (row : AnalyticsEventRow) : Bool :=
  decide (row.event = .activation) &&
    rows.any fun r => decide (r.event = .activation ∧ r.userId = row.userId)

/-! ## The summary -/

structure AnalyticsSummary where
  usersActivated : Nat
  completionsTotal : Nat
  completionsThisWeek : Nat
  transfersStartedTotal : Nat
  deriving DecidableEq, Repr

/-- `date.weekday()`: day 0 was a Thursday. -/
def weekday (day : Day) : Int := (day + 3) % 7

/-- The offset from UTC of a time zone, which is less than a day. -/
abbrev UtcOffset := {offset : Int // -microsPerDay < offset ∧ offset < microsPerDay}

/-- `_week_start`: midnight of Monday, without a zone; the driver reads it in that of the server. -/
def weekStart (zone : UtcOffset) (today : Day) : Instant :=
  (today - weekday today) * microsPerDay - zone.val

def summary (zone : UtcOffset) (rows : Rows) (now : Instant) : AnalyticsSummary where
  usersActivated := distinctUsersWithEvent rows .activation
  completionsTotal := countEvent rows .sessionCompleted
  completionsThisWeek := countEventSince rows .sessionCompleted (weekStart zone (date now))
  transfersStartedTotal := countEvent rows .transferStarted

/-! ## The retention purge -/

/-- `ANALYTICS_EVENT_TTL_DAYS` -/
def analyticsEventTtlDays : Int := 30

/-- `ANALYTICS_RETENTION_EXEMPT_NAMES` -/
def analyticsRetentionExemptNames : List EventName := [.activation]

/-- The statement of `purge_expired_entries` on `analytics_events`. -/
def purgeEvents (rows : Rows) (now : Instant) : Rows :=
  rows.filter fun r => !(decide (r.createdAt < now - analyticsEventTtlDays * microsPerDay) &&
    decide (r.event.name ∉ analyticsRetentionExemptNames))

/-! ## The service -/

/-- The arguments of `session_completed`. -/
structure Completion where
  userId : Int
  sessionId : Int
  cefr : String
  errorCount : Int
  deriving DecidableEq, Repr

def Completion.event (c : Completion) : AnalyticsEvent :=
  .sessionCompleted c.sessionId c.cefr c.errorCount

/-- How the database answers an `emit`: a commit that raises may have been applied. -/
inductive Answer where
  | recorded
  | raised (applied : Bool)
  deriving DecidableEq, Repr

/-- Where a call of `session_completed` is: behind its count, behind its completion. -/
inductive Phase where
  | entered
  | counted (prior : Option Nat)
  | activating
  | done
  deriving DecidableEq, Repr

/-- The rows of the table and the calls. What was recorded and not erased since, what was ever
recorded, and the times of the purges are histories. -/
structure World where
  rows : Rows
  calls : List (Call Completion Phase)
  recorded : Rows
  ever : Rows
  purges : List Instant

def World.init : World := ⟨[], [], [], [], []⟩

inductive Event where
  | sessionCompleted (c : Completion)
  /-- `count_events`, unless it raises -/
  | count (i : Nat) (raises : Bool)
  | complete (i : Nat) (createdAt : Instant) (answer : Answer)
  | activate (i : Nat) (createdAt : Instant) (answer : Answer)
  | transferStarted (userId : Int) (skill : String) (createdAt : Instant) (answer : Answer)
  | purge (now : Instant)
  /-- the erasure of a user's voice data, or of the user -/
  | erase (userId : Int)
  deriving DecidableEq

def World.setPhase (w : World) (i : Nat) (phase : Phase) : World :=
  { w with calls := Call.setPhase w.calls i phase }

def World.record (w : World) (row : AnalyticsEventRow) : World :=
  { w with
    rows := w.rows ++ [row]
    recorded := w.recorded ++ [row]
    ever := w.ever ++ [row] }

/-- `SqlAlchemyAnalyticsSink.emit`: whether it returns, and the rows it leaves. -/
def World.emit (w : World) (row : AnalyticsEventRow) (answer : Answer) : Bool × World :=
  if violates w.rows row then (false, w)
  else match answer with
    | .recorded => (true, w.record row)
    | .raised true => (false, w.record row)
    | .raised false => (false, w)

def step (w : World) : Event → Option World
  | .sessionCompleted c => some { w with calls := w.calls ++ [⟨c, .entered⟩] }
  | .count i raises =>
    match w.calls[i]? with
    | some ⟨c, .entered⟩ =>
      let prior := if raises then none else some (countEvents w.rows c.userId .sessionCompleted)
      some (w.setPhase i (.counted prior))
    | _ => none
  | .complete i createdAt answer =>
    match w.calls[i]? with
    | some ⟨c, .counted prior⟩ =>
      let (completed, w) := w.emit ⟨c.event, c.userId, createdAt⟩ answer
      some (w.setPhase i (if completed = true ∧ prior = some 0 then .activating else .done))
    | _ => none
  | .activate i createdAt answer =>
    match w.calls[i]? with
    | some ⟨c, .activating⟩ =>
      some ((w.emit ⟨.activation, c.userId, createdAt⟩ answer).2.setPhase i .done)
    | _ => none
  | .transferStarted userId skill createdAt answer =>
    some (w.emit ⟨.transferStarted skill, userId, createdAt⟩ answer).2
  | .purge now => some { w with rows := purgeEvents w.rows now, purges := w.purges ++ [now] }
  | .erase userId =>
    some { w with
      rows := w.rows.filter (·.userId ≠ userId)
      recorded := w.recorded.filter (·.userId ≠ userId) }

/-! ## One step -/

theorem violates_eq_false_iff {rows : Rows} {row : AnalyticsEventRow} :
    violates rows row = false ↔ row.event = .activation →
      ∀ r ∈ rows, r.event = .activation → r.userId ≠ row.userId := by
  simp only [violates, Bool.and_eq_false_imp, decide_eq_true_eq, List.any_eq_false, not_and]

/-- What one event can do: calls move on, and the rows are kept, appended to or filtered. -/
inductive Moves (w : World) : Event → World → Prop where
  | entered (c : Completion) :
    Moves w (.sessionCompleted c) { w with calls := w.calls ++ [⟨c, .entered⟩] }
  | count (i : Nat) (raises : Bool) (c : Completion) (hcall : w.calls[i]? = some ⟨c, .entered⟩) :
    Moves w (.count i raises) (w.setPhase i
      (.counted (if raises then none else some (countEvents w.rows c.userId .sessionCompleted))))
  | uncompleted (i : Nat) (t : Instant) (answer : Answer) (c : Completion) (prior : Option Nat)
    (hcall : w.calls[i]? = some ⟨c, .counted prior⟩) (hanswer : answer = .raised false) :
    Moves w (.complete i t answer) (w.setPhase i .done)
  | completed (i : Nat) (t : Instant) (answer : Answer) (c : Completion) (prior : Option Nat)
    (hcall : w.calls[i]? = some ⟨c, .counted prior⟩) :
    Moves w (.complete i t answer) ((w.record ⟨c.event, c.userId, t⟩).setPhase i
      (if answer = .recorded ∧ prior = some 0 then .activating else .done))
  | refused (i : Nat) (t : Instant) (answer : Answer) (c : Completion)
    (hcall : w.calls[i]? = some ⟨c, .activating⟩)
    (hrefused : answer = .raised false ∨ ∃ r ∈ w.rows, r.event = .activation ∧ r.userId = c.userId) :
    Moves w (.activate i t answer) (w.setPhase i .done)
  | activated (i : Nat) (t : Instant) (answer : Answer) (c : Completion)
    (hcall : w.calls[i]? = some ⟨c, .activating⟩)
    (hfirst : ∀ r ∈ w.rows, r.event = .activation → r.userId ≠ c.userId) :
    Moves w (.activate i t answer) ((w.record ⟨.activation, c.userId, t⟩).setPhase i .done)
  | transferred (userId : Int) (skill : String) (t : Instant) (answer : Answer) :
    Moves w (.transferStarted userId skill t answer) (w.record ⟨.transferStarted skill, userId, t⟩)
  | untransferred (userId : Int) (skill : String) (t : Instant) (answer : Answer) :
    Moves w (.transferStarted userId skill t answer) w
  | purge (now : Instant) :
    Moves w (.purge now) { w with rows := purgeEvents w.rows now, purges := w.purges ++ [now] }
  | erase (userId : Int) :
    Moves w (.erase userId) { w with
      rows := w.rows.filter (·.userId ≠ userId)
      recorded := w.recorded.filter (·.userId ≠ userId) }

theorem emit_of_ne_activation {w : World} {row : AnalyticsEventRow} (answer : Answer)
    (h : row.event ≠ .activation) : w.emit row answer =
      match answer with
      | .recorded => (true, w.record row)
      | .raised true => (false, w.record row)
      | .raised false => (false, w) := by
  have hv : violates w.rows row = false := violates_eq_false_iff.mpr fun he => absurd he h
  unfold World.emit
  rw [hv]
  rfl

theorem moves_of_step {w w' : World} {e : Event} (h : step w e = some w') : Moves w e w' := by
  cases e with
  | sessionCompleted c =>
    obtain rfl := Option.some.inj h
    exact .entered c
  | count i raises =>
    simp only [step] at h
    split at h
    · rename_i c hcall
      obtain rfl := Option.some.inj h
      exact .count i raises c hcall
    · cases h
  | complete i t answer =>
    simp only [step] at h
    split at h
    · rename_i c prior hcall
      rw [emit_of_ne_activation answer (by nofun)] at h
      obtain rfl := Option.some.inj h
      cases answer with
      | recorded =>
        have hmove := Moves.completed i t .recorded c prior hcall
        simpa using hmove
      | raised applied =>
        cases applied with
        | true => exact .completed i t (.raised true) c prior hcall
        | false => exact .uncompleted i t _ c prior hcall rfl
    · cases h
  | activate i t answer =>
    simp only [step] at h
    split at h
    · rename_i c hcall
      obtain rfl := Option.some.inj h
      cases hv : violates w.rows ⟨.activation, c.userId, t⟩ with
      | true =>
        unfold World.emit
        rw [if_pos hv]
        refine .refused i t answer c hcall (.inr ?_)
        simpa [violates] using hv
      | false =>
        have hfirst := violates_eq_false_iff.mp hv rfl
        unfold World.emit
        rw [hv]
        cases answer with
        | recorded => exact .activated i t _ c hcall hfirst
        | raised applied =>
          cases applied with
          | true => exact .activated i t _ c hcall hfirst
          | false => exact .refused i t _ c hcall (.inl rfl)
    · cases h
  | transferStarted userId skill t answer =>
    obtain rfl := Option.some.inj h
    rw [emit_of_ne_activation answer (by nofun)]
    cases answer with
    | recorded => exact .transferred userId skill t _
    | raised applied =>
      cases applied with
      | true => exact .transferred userId skill t _
      | false => exact .untransferred userId skill t _
  | purge now =>
    obtain rfl := Option.some.inj h
    exact .purge now
  | erase userId =>
    obtain rfl := Option.some.inj h
    exact .erase userId

/-! ## Every run -/

/-- No purge so far could remove the row. -/
def Kept (purges : List Instant) (r : AnalyticsEventRow) : Prop :=
  r.event.name ∈ analyticsRetentionExemptNames ∨
    ∀ t ∈ purges, t - analyticsEventTtlDays * microsPerDay ≤ r.createdAt

def Completes (userId : Int) (r : AnalyticsEventRow) : Prop :=
  r.event.name = .sessionCompleted ∧ r.userId = userId

structure Inv (w : World) : Prop where
  /-- the table agrees with what was recorded on the rows that no purge could remove -/
  kept : ∀ p : AnalyticsEventRow → Bool, (∀ r, p r = true → Kept w.purges r) →
    w.rows.filter p = w.recorded.filter p
  unique : w.rows.Pairwise fun r r' =>
    r.event = .activation → r'.event = .activation → r.userId ≠ r'.userId
  ever : w.rows ⊆ w.ever
  behind : ∀ r ∈ w.ever, r.event = .activation → ∃ r' ∈ w.ever, Completes r.userId r'
  activating : ∀ c ∈ w.calls, c.phase = .activating → ∃ r' ∈ w.ever, Completes c.arg.userId r'

variable {w w' : World}

/-- The purge spares the activations. -/
theorem mem_purgeEvents {rows : Rows} {now : Instant} {r : AnalyticsEventRow} (h : r ∈ rows)
    (hact : r.event = .activation) : r ∈ purgeEvents rows now := by
  refine List.mem_filter.mpr ⟨h, ?_⟩
  rw [hact]
  simp [AnalyticsEvent.name, analyticsRetentionExemptNames]

theorem purgeEvents_sublist {rows : Rows} {now : Instant} : (purgeEvents rows now).Sublist rows :=
  List.filter_sublist

/-- A row that no purge could remove is still there behind one more. -/
theorem filter_purgeEvents {rows : Rows} {purges : List Instant} {now : Instant}
    {p : AnalyticsEventRow → Bool} (hp : ∀ r, p r = true → Kept (purges ++ [now]) r) :
    (purgeEvents rows now).filter p = rows.filter p := by
  rw [purgeEvents, List.filter_filter]
  refine List.filter_congr fun r _ => ?_
  cases hr : p r with
  | false => rfl
  | true =>
    rw [Bool.true_and, Bool.not_eq_true', Bool.and_eq_false_iff, decide_eq_false_iff_not,
      decide_eq_false_iff_not, not_not, Int.not_lt]
    rcases hp r hr with hexempt | hold
    · exact .inr hexempt
    · exact .inl (hold now (List.mem_append_right _ (List.mem_singleton_self _)))

theorem inv_setPhase {i : Nat} {c : Completion} {phase phase' : Phase} (hw : Inv w)
    (hcall : w.calls[i]? = some ⟨c, phase⟩)
    (hphase : phase' = .activating → ∃ r' ∈ w.ever, Completes c.userId r') :
    Inv (w.setPhase i phase') := by
  refine ⟨hw.kept, hw.unique, hw.ever, hw.behind, Call.forall_setPhase hw.activating fun c' hc' => ?_⟩
  obtain rfl := Option.some.inj (hcall.symm.trans hc')
  exact hphase

/-- A row is recorded that the index lets in. -/
theorem inv_record {row : AnalyticsEventRow} (hw : Inv w)
    (hfirst : row.event = .activation → ∀ r ∈ w.rows, r.event = .activation →
      r.userId ≠ row.userId)
    (hbehind : row.event = .activation → ∃ r' ∈ w.ever, Completes row.userId r') :
    Inv (w.record row) := by
  have hmore {P : AnalyticsEventRow → Prop} (h : ∃ r ∈ w.ever, P r) :
      ∃ r ∈ w.ever ++ [row], P r := by
    obtain ⟨r, hr, hP⟩ := h
    exact ⟨r, List.mem_append_left _ hr, hP⟩
  refine ⟨fun p hp => ?_, ?_, ?_, fun r hr hact => ?_, fun c hc hphase =>
    hmore (hw.activating c hc hphase)⟩
  · change (w.rows ++ [row]).filter p = (w.recorded ++ [row]).filter p
    rw [List.filter_append, List.filter_append, hw.kept p hp]
  · refine List.pairwise_append.mpr ⟨hw.unique, List.pairwise_singleton _ _, fun r hr r' hr' => ?_⟩
    rw [List.mem_singleton.mp hr']
    exact fun hact hact' => hfirst hact' r hr hact
  · exact List.append_subset.mpr ⟨fun r hr => List.mem_append_left _ (hw.ever hr),
      List.subset_append_right _ _⟩
  · rcases List.mem_append.mp hr with hold | hnew
    · exact hmore (hw.behind r hold hact)
    · rw [List.mem_singleton.mp hnew] at hact ⊢
      exact hmore (hbehind hact)

theorem inv_step {e : Event} (hw : Inv w) (h : step w e = some w') : Inv w' := by
  cases moves_of_step h with
  | entered c => exact ⟨hw.kept, hw.unique, hw.ever, hw.behind, Call.forall_begin hw.activating nofun⟩
  | count i raises c hcall => exact inv_setPhase hw hcall nofun
  | uncompleted i t answer c prior hcall hanswer => exact inv_setPhase hw hcall nofun
  | completed i t answer c prior hcall =>
    have hrecord : Inv (w.record ⟨c.event, c.userId, t⟩) := inv_record hw nofun nofun
    refine inv_setPhase hrecord hcall fun _ => ?_
    exact ⟨_, List.mem_append_right _ (List.mem_singleton_self _), rfl, rfl⟩
  | refused i t answer c hcall hrefused => exact inv_setPhase hw hcall nofun
  | activated i t answer c hcall hfirst =>
    have hbehind := hw.activating _ (List.mem_of_getElem? hcall) rfl
    exact inv_setPhase (inv_record hw (fun _ => hfirst) fun _ => hbehind) hcall nofun
  | transferred userId skill t answer => exact inv_record hw nofun nofun
  | untransferred userId skill t answer => exact hw
  | purge now =>
    refine ⟨fun p hp => ?_, hw.unique.sublist purgeEvents_sublist,
      fun r hr => hw.ever (purgeEvents_sublist.subset hr), hw.behind, hw.activating⟩
    refine (filter_purgeEvents hp).trans (hw.kept p fun r hr => ?_)
    exact (hp r hr).imp id fun hold t ht => hold t (List.mem_append_left _ ht)
  | erase userId =>
    refine ⟨fun p hp => ?_, hw.unique.sublist List.filter_sublist,
      fun r hr => hw.ever (List.mem_of_mem_filter hr), hw.behind, hw.activating⟩
    change (w.rows.filter _).filter p = (w.recorded.filter _).filter p
    rw [List.filter_comm, List.filter_comm (l := w.recorded), hw.kept p hp]

theorem inv_init : Inv World.init :=
  ⟨fun _ _ => rfl, List.Pairwise.nil, List.Subset.refl _, List.forall_mem_nil _,
    List.forall_mem_nil _⟩

theorem inv_of_run {es : List Event} (h : run step World.init es = some w) : Inv w :=
  run_preserves (fun _ _ _ => inv_step) inv_init h

/-- **A user has one activation at most, never without a completion that was recorded before, and
keeps it until the user's data are erased**, in any order of the calls, their failures and the
purges. -/
theorem activation_once {es : List Event} (h : run step World.init es = some w) :
    (w.rows.Pairwise fun r r' =>
      r.event = .activation → r'.event = .activation → r.userId ≠ r'.userId) ∧
    (∀ r ∈ w.rows, r.event = .activation → ∃ r' ∈ w.ever, Completes r.userId r') ∧
    ∀ e w', step w e = some w' → ∀ r ∈ w.rows, r.event = .activation → e ≠ .erase r.userId →
      r ∈ w'.rows := by
  have hw := inv_of_run h
  refine ⟨hw.unique, fun r hr => hw.behind r (hw.ever hr), fun e w' hstep r hr hact he => ?_⟩
  cases moves_of_step hstep with
  | entered | count | uncompleted | refused | untransferred => exact hr
  | completed | activated | transferred => exact List.mem_append_left _ hr
  | purge now => exact mem_purgeEvents hr hact
  | erase userId =>
    exact List.mem_filter.mpr ⟨hr, decide_eq_true fun hu => he (congrArg Event.erase hu.symm)⟩

/-! ## The figures of the summary -/

/-- The week began less than eight days ago, in any zone. -/
theorem lt_weekStart (zone : UtcOffset) (now : Instant) :
    now - 8 * microsPerDay < weekStart zone (date now) := by
  obtain ⟨offset, -, hzone⟩ := zone
  have hday : microsPerDay = 86400000000 := by decide
  have hlow : date now * 86400000000 ≤ now := Int.ediv_mul_le now (by decide)
  have hhigh : now < (date now + 1) * 86400000000 := Int.lt_ediv_add_one_mul_self now (by decide)
  have hweek : weekday (date now) ≤ 6 := by
    rw [weekday]
    omega
  change now - 8 * microsPerDay < (date now - weekday (date now)) * microsPerDay - offset
  rw [hday] at hzone ⊢
  linarith

/-- **The summary counts what was recorded, not what the purges have left**: everyone who was ever
activated, and every completion since Monday. -/
theorem summary_eq_recorded {es : List Event} (h : run step World.init es = some w) (zone : UtcOffset)
    {now : Instant} (hnow : ∀ t ∈ w.purges, t ≤ now) :
    (summary zone w.rows now).usersActivated = distinctUsersWithEvent w.recorded .activation ∧
    (summary zone w.rows now).completionsThisWeek =
      countEventSince w.recorded .sessionCompleted (weekStart zone (date now)) := by
  have hw := inv_of_run h
  constructor
  · have hkept := hw.kept (fun r => decide (r.event.name = .activation)) fun r hr => by
      left
      rw [of_decide_eq_true hr]
      exact List.mem_singleton_self _
    rw [summary, distinctUsersWithEvent, hkept, distinctUsersWithEvent]
  · have hkept := hw.kept (fun r => decide (r.event.name = .sessionCompleted ∧
        weekStart zone (date now) ≤ r.createdAt)) fun r hr => by
      right
      intro t ht
      have hweek := lt_weekStart zone now
      have hsince := (of_decide_eq_true hr).2
      have htime := hnow t ht
      have hday : microsPerDay = 86400000000 := by decide
      rw [analyticsEventTtlDays, hday]
      rw [hday] at hweek
      linarith
    rw [summary, countEventSince, List.countP_eq_length_filter, hkept, countEventSince,
      List.countP_eq_length_filter]

/-! ## Nobody is left out -/

/-- The event succeeds, and erases nothing of the user. -/
def Event.Succeeds (userId : Int) : Event → Prop
  | .count _ raises => raises = false
  | .complete _ _ answer => answer = .recorded
  | .activate _ _ answer => answer = .recorded
  | .erase userId' => userId' ≠ userId
  | _ => True

/-- The user is activated, or will be by a call that is about to, or has not completed anything
that a call could have counted. -/
def Owed (userId : Int) (w : World) : Prop :=
  (∃ r ∈ w.rows, r.event = .activation ∧ r.userId = userId) ∨
  (∃ c ∈ w.calls, c.arg.userId = userId ∧ c.phase = .activating) ∨
  ((∀ r ∈ w.ever, ¬Completes userId r) ∧
    ∀ c ∈ w.calls, c.arg.userId = userId → ∀ prior, c.phase = .counted prior → prior = some 0)

theorem countEvents_eq_zero {rows : Rows} {userId : Int}
    (h : ∀ r ∈ rows, ¬Completes userId r) : countEvents rows userId .sessionCompleted = 0 :=
  List.countP_eq_zero.mpr fun r hr hc => h r hr (of_decide_eq_true hc).symm

/-- A call that moves leaves the others that are about to activate. -/
theorem activating_setPhase {i : Nat} {c : Completion} {phase phase' : Phase} {userId : Int}
    (hcall : w.calls[i]? = some ⟨c, phase⟩) (hother : phase = .activating → c.userId ≠ userId)
    (h : ∃ c ∈ w.calls, c.arg.userId = userId ∧ c.phase = .activating) :
    ∃ c ∈ (w.setPhase i phase').calls, c.arg.userId = userId ∧ c.phase = .activating := by
  obtain ⟨c', hc', huser, hact⟩ := h
  obtain ⟨j, hj⟩ := List.mem_iff_getElem?.mp hc'
  refine ⟨c', List.mem_iff_getElem?.mpr ⟨j, ?_⟩, huser, hact⟩
  rw [World.setPhase, Call.getElem?_setPhase, if_neg, hj]
  rintro rfl
  obtain rfl := Option.some.inj (hcall.symm.trans hj)
  exact hother hact huser

/-- A call that moves behind its count owes nothing more. -/
theorem owed_setPhase {i : Nat} {c : Completion} {phase phase' : Phase} {userId : Int}
    (ho : Owed userId w) (hcall : w.calls[i]? = some ⟨c, phase⟩)
    (hother : phase = .activating → c.userId ≠ userId)
    (hphase : ∀ prior, phase' = .counted prior → (∀ r ∈ w.ever, ¬Completes userId r) →
      c.userId = userId → prior = some 0) : Owed userId (w.setPhase i phase') := by
  refine ho.imp id (Or.imp (activating_setPhase hcall hother) fun hnone => ⟨hnone.1, ?_⟩)
  refine Call.forall_setPhase hnone.2 fun c' hc' => ?_
  obtain rfl := Option.some.inj (hcall.symm.trans hc')
  exact fun huser prior hp => hphase prior hp hnone.1 huser

/-- A row that completes nothing of the user leaves what is owed. -/
theorem owed_record {userId : Int} {row : AnalyticsEventRow} (ho : Owed userId w)
    (hrow : ¬Completes userId row) : Owed userId (w.record row) := by
  refine ho.imp ?_ (Or.imp id fun hnone => ⟨fun r hr => ?_, hnone.2⟩)
  · rintro ⟨r, hr, hrest⟩
    exact ⟨r, List.mem_append_left _ hr, hrest⟩
  · rcases List.mem_append.mp hr with hold | hnew
    · exact hnone.1 r hold
    · rw [List.mem_singleton.mp hnew]
      exact hrow

theorem owed_step {e : Event} {userId : Int} (hw : Inv w) (ho : Owed userId w)
    (he : e.Succeeds userId) (h : step w e = some w') : Owed userId w' := by
  cases moves_of_step h with
  | entered c =>
    refine ho.imp id (Or.imp ?_ fun hnone => ⟨hnone.1, Call.forall_begin hnone.2 nofun⟩)
    rintro ⟨c', hc', hrest⟩
    exact ⟨c', List.mem_append_left _ hc', hrest⟩
  | count i raises c hcall =>
    refine owed_setPhase ho hcall nofun fun prior hp hnone huser => ?_
    rw [if_neg (by rw [show raises = false from he]; decide)] at hp
    rw [← Phase.counted.inj hp, huser, countEvents_eq_zero fun r hr => hnone r (hw.ever hr)]
  | uncompleted i t answer c prior hcall hanswer => cases he.symm.trans hanswer
  | completed i t answer c prior hcall =>
    by_cases huser : c.userId = userId
    · rcases ho with ⟨r, hr, hact⟩ | hact | hnone
      · exact .inl ⟨r, List.mem_append_left _ hr, hact⟩
      · exact .inr (.inl (activating_setPhase hcall nofun hact))
      · -- the first completion of the user: its call counted none
        have hprior := hnone.2 _ (List.mem_of_getElem? hcall) huser prior rfl
        refine .inr (.inl ⟨⟨c, .activating⟩, ?_, huser, rfl⟩)
        have hmoved : (Call.setPhase w.calls i .activating)[i]? = some ⟨c, .activating⟩ :=
          Call.getElem?_setPhase_self hcall
        rw [if_pos ⟨he, hprior⟩]
        exact List.mem_of_getElem? hmoved
    · refine owed_setPhase (owed_record ho fun hc => huser hc.2) hcall nofun ?_
      exact fun _ _ _ hself => absurd hself huser
  | refused i t answer c hcall hrefused =>
    by_cases huser : c.userId = userId
    · rcases hrefused with hfailed | ⟨r, hr, hact, hsame⟩
      · cases he.symm.trans hfailed
      · exact .inl ⟨r, hr, hact, hsame.trans huser⟩
    · exact owed_setPhase ho hcall (fun _ => huser) nofun
  | activated i t answer c hcall hfirst =>
    by_cases huser : c.userId = userId
    · exact .inl ⟨_, List.mem_append_right _ (List.mem_singleton_self _), rfl, huser⟩
    · exact owed_setPhase (owed_record ho nofun) hcall (fun _ => huser) nofun
  | transferred userId' skill t answer => exact owed_record ho nofun
  | untransferred userId' skill t answer => exact ho
  | purge now =>
    refine ho.imp ?_ id
    rintro ⟨r, hr, hact, huser⟩
    exact ⟨r, mem_purgeEvents hr hact, hact, huser⟩
  | erase userId' =>
    refine ho.imp ?_ id
    rintro ⟨r, hr, hact, huser⟩
    refine ⟨r, List.mem_filter.mpr ⟨hr, decide_eq_true ?_⟩, hact, huser⟩
    rw [huser]
    exact Ne.symm he

/-- **Whoever has completed a session is activated** once the calls are done, if they succeed:
however the calls of a user interleave, the first completion is seen as the first. -/
theorem activated_of_completed {es : List Event} (h : run step World.init es = some w) (userId : Int)
    (hes : ∀ e ∈ es, e.Succeeds userId) (hdone : ∀ c ∈ w.calls, c.phase = .done)
    (hcompleted : ∃ r ∈ w.ever, Completes userId r) :
    ∃ r ∈ w.rows, r.event = .activation ∧ r.userId = userId := by
  have howed : Inv w ∧ Owed userId w := by
    refine run_invariant (I := fun w => Inv w ∧ Owed userId w)
      (G := fun _ e _ => Event.Succeeds userId e) (fun s e t hs he hst => ⟨inv_step hs.1 hst, owed_step hs.1 hs.2 he hst⟩)
      ⟨inv_init, .inr (.inr ⟨List.forall_mem_nil _, List.forall_mem_nil _⟩)⟩
      (along_of_forall_mem (fun e he _ _ _ => hes e he) _) h
  rcases howed.2 with hrow | ⟨c, hc, -, hact⟩ | hnone
  · exact hrow
  · cases (hdone c hc).symm.trans hact
  · obtain ⟨r, hr, hcompletes⟩ := hcompleted
    exact absurd hcompletes (hnone.1 r hr)

def firstSession : Completion := ⟨7, 1, "B1", 3⟩

def secondSession : Completion := ⟨7, 2, "B1", 0⟩

/-- Two devices of one user finish a session at once: both calls count none. -/
def finishedTwice : List Event :=
  [.sessionCompleted firstSession, .sessionCompleted secondSession, .count 0 false, .count 1 false,
    .complete 0 1000 .recorded, .complete 1 1001 .recorded, .activate 1 1002 .recorded,
    .purge 2000, .activate 0 1003 .recorded]

theorem activation_once_finishedTwice :
    ∃ w, run step World.init finishedTwice = some w ∧
      countEvents w.rows 7 .activation = 1 ∧ ∀ r ∈ w.rows, r.event = .activation →
        ∃ r' ∈ w.ever, Completes r.userId r' := by
  have hcheck : (run step World.init finishedTwice).map
      (fun w => decide (countEvents w.rows 7 .activation = 1)) = some true := by decide
  obtain ⟨w, hrun, hw⟩ := exists_run_of_check _ _ _ _ hcheck
  exact ⟨w, hrun, of_decide_eq_true hw, (activation_once hrun).2.1⟩

theorem summary_eq_recorded_finishedTwice :
    ∃ w, run step World.init finishedTwice = some w ∧
      (summary ⟨0, by decide⟩ w.rows 3000).usersActivated =
        distinctUsersWithEvent w.recorded .activation := by
  have hcheck : (run step World.init finishedTwice).map
      (fun w => decide (∀ t ∈ w.purges, t ≤ (3000 : Instant))) = some true := by decide
  obtain ⟨w, hrun, hw⟩ := exists_run_of_check _ _ _ _ hcheck
  exact ⟨w, hrun, (summary_eq_recorded hrun ⟨0, by decide⟩ (of_decide_eq_true hw)).1⟩

theorem activated_of_completed_finishedTwice :
    ∃ w, run step World.init finishedTwice = some w ∧
      ∃ r ∈ w.rows, r.event = .activation ∧ r.userId = 7 := by
  have hcheck : (run step World.init finishedTwice).map (fun w =>
      decide (∀ c ∈ w.calls, c.phase = .done) &&
        w.ever.any fun r => decide (r.event.name = .sessionCompleted ∧ r.userId = 7)) =
      some true := by decide
  obtain ⟨w, hrun, hw⟩ := exists_run_of_check _ _ _ _ hcheck
  obtain ⟨hdone, hany⟩ := Bool.and_eq_true_iff.mp hw
  obtain ⟨r, hr, hcompletes⟩ := List.any_eq_true.mp hany
  have hcompleted : Completes 7 r :=
    (of_decide_eq_true hcompletes : r.event.name = .sessionCompleted ∧ r.userId = 7)
  refine ⟨w, hrun, activated_of_completed hrun 7 ?_ (of_decide_eq_true hdone) ⟨r, hr, hcompleted⟩⟩
  simp [finishedTwice, Event.Succeeds]

end Apm.Analytics
