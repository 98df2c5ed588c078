import Apm.Conversation.ReplayOnce

/-!
# Replays and the retention of a key

The purge task deletes the keys that are older than a day, whatever became of them.
Its ticks run beside any requests. This file proves that a completed turn is never
processed again by a replay, as long as no tick has deleted its key.
-/

namespace Apm.Conversation

open Apm.Core Apm.Lib Apm.Idempotency

set_option autoImplicit false

/-- `IDEMPOTENCY_KEY_TTL_HOURS`: 24 hours. -/
def idempotencyKeyTtl : Int := 24 * microsPerHour

/-- `purge_expired_entries` on `idempotency_keys`. -/
def purgeExpiredEntries (table : Table) (now : Instant) : Table := fun r =>
  (table r).filter fun row => !decide (row.createdAt < now - idempotencyKeyTtl)

inductive Event (ι : Type) where
  | request (a : Action ι)
  /-- a tick of the purge task, with the clock it has read -/
  | purge (now : Instant)
  deriving DecidableEq

def Event.action {ι : Type} : Event ι → Option (Action ι)
  | .request a => some a
  | .purge _ => none

/-- The tick leaves a row of that age. -/
def Event.spares {ι : Type} (createdAt : Instant) : Event ι → Bool
  | .request _ => true
  | .purge now => now - idempotencyKeyTtl ≤ createdAt

variable {ι : Type} [DecidableEq ι]

def eventStep (S : Setup ι) (w : World ι) : Event ι → Option (World ι)
  | .request a => step S w a
  | .purge now =>
    if now ≤ w.clock then some { w with table := purgeExpiredEntries w.table now } else none

/-- The turn of the row is completed, and no attempt at it is under way. -/
structure Settled (S : Setup ι) (r : Ref) (row : IdempotencyKey) (w : World ι) : Prop where
  present : w.table r = some row
  completed : row.response ≠ none
  idle : ∀ i role, S.ref (i, role) = r → (w.phase i).acts (S.request i).keyed role = false

theorem purge_spared {table : Table} {r : Ref} {row : IdempotencyKey} {now : Instant}
    (hrow : table r = some row) (hspared : now - idempotencyKeyTtl ≤ row.createdAt) :
    purgeExpiredEntries table now r = some row := by
  rw [purgeExpiredEntries, hrow, Option.filter_some, if_pos]
  rw [Bool.not_eq_true', decide_eq_false_iff_not, not_lt]
  exact hspared

/-- A tick that does not spare the row of a completed turn forgets the turn. -/
theorem purge_forgets {table : Table} {r : Ref} {row : IdempotencyKey} {now : Instant}
    (hrow : table r = some row) (hold : row.createdAt < now - idempotencyKeyTtl) :
    purgeExpiredEntries table now r = none := by
  rw [purgeExpiredEntries, hrow, Option.filter_some, if_neg]
  rw [Bool.not_eq_true', decide_eq_false_iff_not, not_not]
  exact hold

/-- No step of a request undoes a completion when no attempt is under way. -/
theorem settled_move {S : Setup ι} {r : Ref} {row : IdempotencyKey} {w w' : World ι} {a : Action ι}
    (h : Settled S r row w) (hmove : Moves S w a w') : Settled S r row w' := by
  have hquiet : ∀ i p, Quiet S w i p → Settled S r row (w.setPhase i p) := by
    intro i p hp
    refine ⟨h.present, h.completed, fun j role hj => ?_⟩
    show (Function.update w.phase i p j).acts (S.request j).keyed role = false
    by_cases hji : j = i
    · subst hji
      rw [Function.update_self]
      by_contra hacts
      have hbefore := hp.acts role (Bool.eq_true_of_not_eq_false hacts)
      rw [h.idle j role hj] at hbefore
      cases hbefore
    · rw [Function.update_of_ne hji]
      exact h.idle j role hj
  cases hmove with
  | tick micros => exact ⟨h.present, h.completed, h.idle⟩
  | quiet i p hp _ _ => exact hquiet i p hp
  | store i base reply cut hphase =>
    have hq := hquiet i _ (quiet_afterPersist hphase)
    exact ⟨h.present, h.completed, hq.idle⟩
  | lost i base reply cut cancelled hphase =>
    have hq := hquiet i _ (quiet_afterLoss hphase cancelled)
    exact ⟨h.present, h.completed, hq.idle⟩
  | take i role readAt stamp table hphase _ _ hclaim _ _ =>
    have hclaimed : S.ref (i, role) ≠ r := fun hr => by
      obtain ⟨-, habsent | ⟨t, hpending, -⟩⟩ := claim_eq_some hclaim
      · rw [hr, h.present] at habsent
        cases habsent
      · rw [Pending, hr, h.present] at hpending
        obtain rfl := Option.some.inj hpending
        exact h.completed rfl
    refine ⟨claim_completed hclaim h.present h.completed, h.completed, fun j role' hj => ?_⟩
    show (Function.update w.phase i role.claimed.2 j).acts (S.request j).keyed role' = false
    by_cases hji : j = i
    · subst hji
      rw [Function.update_self]
      have hidle := h.idle j role' hj
      rw [hphase] at hidle
      cases role <;> cases role' <;> first | exact absurd hj hclaimed | exact hidle
    · rw [Function.update_of_ne hji]
      exact h.idle j role' hj
  | finalise i op rest outcome hphase =>
    have hop : S.ref (i, op.role) ≠ r := fun hr => by
      have hidle := h.idle i op.role hr
      rw [hphase, Phase.acts, List.any_cons, decide_eq_true rfl] at hidle
      cases hidle
    refine ⟨(apply_other w.table op (Ne.symm hop)).trans h.present, h.completed,
      fun j role hj => ?_⟩
    show (Function.update w.phase i (.finish rest outcome) j).acts (S.request j).keyed role = false
    by_cases hji : j = i
    · subst hji
      rw [Function.update_self]
      have hidle := h.idle j role hj
      rw [hphase, Phase.acts, List.any_cons, Bool.or_eq_false_iff] at hidle
      exact hidle.2
    · rw [Function.update_of_ne hji]
      exact h.idle j role hj

theorem settled_event {S : Setup ι} {r : Ref} {row : IdempotencyKey} {w w' : World ι} {e : Event ι}
    (h : Settled S r row w) (hspared : e.spares row.createdAt = true)
    (hs : eventStep S w e = some w') : Settled S r row w' := by
  cases e with
  | request a => exact settled_move h (step_moves hs)
  | purge now =>
    simp only [eventStep] at hs
    split at hs
    · cases hs
      exact ⟨purge_spared h.present (of_decide_eq_true hspared), h.completed, h.idle⟩
    · cases hs

theorem Moves.persisted_other {S : Setup ι} {w w' : World ι} {a : Action ι} (h : Moves S w a w')
    {j : ι} (hj : ∀ base reply cut, w.phase j ≠ .persist base reply cut) :
    w'.persisted j = w.persisted j := by
  cases h with
  | store i base reply cut hphase | lost i base reply cut cancelled hphase =>
    refine Function.update_of_ne (fun he => ?_) ..
    subst he
    exact hj base reply cut hphase
  | tick | quiet | take | finalise => rfl

/-- A request that is over stays as it is. -/
theorem over_events {S : Setup ι} {j : ι} {outcome : Outcome} {es : List (Event ι)} {w w' : World ι}
    (hphase : w.phase j = .finish [] outcome) (hpersisted : w.persisted j = false)
    (hrun : run (eventStep S) w es = some w') :
    w'.phase j = .finish [] outcome ∧ w'.persisted j = false := by
  refine run_preserves (I := fun w : World ι => w.phase j = .finish [] outcome ∧
    w.persisted j = false) (fun w e w' hi (hs : eventStep S w e = some w') => ?_)
    ⟨hphase, hpersisted⟩ hrun
  cases e with
  | request a =>
    have hmove := step_moves hs
    obtain ⟨rest, hrest, hsub⟩ := hmove.settled hi.1
    refine ⟨List.subset_nil.mp hsub ▸ hrest, ?_⟩
    rw [hmove.persisted_other fun base reply cut hp => by rw [hi.1] at hp; cases hp]
    exact hi.2
  | purge now =>
    simp only [eventStep] at hs
    split at hs
    · cases hs
      exact hi
    · cases hs

/-- The actions of requests among the events. -/
def actions (es : List (Event ι)) : List (Action ι) := es.filterMap Event.action

/-- **A completed turn is not processed again**, as long as no tick deletes its key: for
any requests and ticks of the purge task after the completion, at any time, every replay
is answered from the row as soon as it takes a step, and never persists or meters. -/
theorem replayed_of_spared {S : Setup ι} {r : Ref} {row : IdempotencyKey} {ρ : String}
    {es : List (Event ι)} {w w' : World ι} (h : Settled S r row w) (hρ : row.response = some ρ)
    (hspared : ∀ e ∈ es, e.spares row.createdAt = true)
    (hrun : run (eventStep S) w es = some w') {j : ι} (hj : S.ref (j, .key) = r)
    (hphase : w.phase j = .lookup) (hpersisted : w.persisted j = false) :
    Replayed j ρ (actions es) (w'.phase j) ∧ w'.persisted j = false := by
  induction es generalizing w with
  | nil =>
    obtain rfl := Option.some.inj hrun
    exact ⟨.inl ⟨hphase, nofun⟩, hpersisted⟩
  | cons e rest ih =>
    obtain ⟨m, hm, hrest⟩ := run_cons_iff.mp hrun
    have hsettled := settled_event h (hspared e List.mem_cons_self) hm
    have htail : ∀ e ∈ rest, e.spares row.createdAt = true := fun e he =>
      hspared e (List.mem_cons_of_mem _ he)
    cases e with
    | purge now =>
      have hsame : m.phase = w.phase ∧ m.persisted = w.persisted := by
        simp only [eventStep] at hm
        split at hm
        · cases hm
          exact ⟨rfl, rfl⟩
        · cases hm
      exact ih hsettled htail hrest (hsame.1 ▸ hphase) (hsame.2 ▸ hpersisted)
    | request a =>
      have hmove := step_moves hm
      have hpersisted' : m.persisted j = false := by
        rw [hmove.persisted_other fun base reply cut hp => by rw [hphase] at hp; cases hp]
        exact hpersisted
      by_cases ha : a.request = some j
      · have hcompleted : Completed w.table (S.ref (j, .key)) ρ :=
          ⟨row.createdAt, by rw [hj, h.present, ← hρ]⟩
        obtain hcached | ⟨hfailed, hraised⟩ := lookup_completed hphase hcompleted ha hm
        · obtain ⟨hover, hunpersisted⟩ := over_events hcached hpersisted' hrest
          exact ⟨.inr (.inl hover), hunpersisted⟩
        · obtain ⟨hover, hunpersisted⟩ := over_events hfailed hpersisted' hrest
          refine ⟨.inr (.inr ⟨hover, ?_⟩), hunpersisted⟩
          rcases hraised with rfl | rfl
          · exact .inl List.mem_cons_self
          · exact .inr List.mem_cons_self
      · have hsame : m.phase j = .lookup := (hmove.phase_other ha).trans hphase
        obtain ⟨hreplayed, hunpersisted⟩ := ih hsettled htail hrest hsame hpersisted'
        exact ⟨hreplayed.cons ha, hunpersisted⟩

/-- A turn that was practiced offline at 0, and its replay. -/
def offline : Setup Bool where
  request := fun _ => ⟨1, 5, .turn, some "k", "hello"⟩
  owner := fun _ => some 1
  transcriptMaxMessages := 200

/-- The server completes the turn; the client does not hear of it. -/
def lostAnswer : List (Event Bool) := firstAttempt.map .request

def sameDayReplay : List (Event Bool) :=
  [.request (.tick 80000000000), .purge 80000000000, .request (.lookup true)]

theorem replayed_of_spared_same_day :
    ∃ s w, run (eventStep offline) (.init offline 0 (fun _ => none) fun _ => []) lostAnswer =
        some s ∧ run (eventStep offline) s sameDayReplay = some w ∧
      Replayed true "hi" (actions sameDayReplay) (w.phase true) ∧ w.persisted true = false := by
  obtain ⟨s, hs, hd⟩ := exists_run_of_check (eventStep offline)
    (.init offline 0 (fun _ => none) fun _ => []) lostAnswer
    (fun s => decide ((s.phase true = .lookup ∧ s.persisted true = false) ∧
      s.table (1, "k") = some ⟨some "hi", 0⟩ ∧ ∀ i, (s.phase i).acts true .key = false ∧
        (s.phase i).acts true .lock = false)) (by decide +kernel)
  obtain ⟨⟨hphase, hpersisted⟩, hrow, hidle⟩ := of_decide_eq_true hd
  have hsettled : Settled offline (1, "k") ⟨some "hi", 0⟩ s := by
    refine ⟨hrow, nofun, fun i role _ => ?_⟩
    cases role with
    | key => exact (hidle i).1
    | lock => exact (hidle i).2
  obtain ⟨w, hw, -⟩ := exists_run_of_check (eventStep offline)
    (.init offline 0 (fun _ => none) fun _ => []) (lostAnswer ++ sameDayReplay) (fun _ => true)
    (by decide +kernel)
  obtain ⟨s', hs', hw'⟩ := run_append_iff.mp hw
  obtain rfl : s' = s := Option.some.inj (hs'.symm.trans hs)
  exact ⟨s', w, hs, hw', replayed_of_spared hsettled rfl (by decide) hw' rfl hphase hpersisted⟩

/-- A tick of the purge task after 25 hours, and the replay an hour later. -/
def lateReplay : List (Event Bool) :=
  [.request (.tick 90000000000), .purge 90005000000, .request (.tick 3600000000),
    .request (.lookup true), .request (.claim true 93605000000 93605000000),
    .request (.acquire true 93605000000 93605000000), .request (.prepare true true),
    .request (.generate true (.reply "again")), .request (.persist true .committed)]

/-- The practice instant is accepted, and the turn is persisted and metered again. -/
theorem late_replay_processed_twice :
    ∃ s w, run (eventStep offline) (.init offline 0 (fun _ => none) fun _ => []) lostAnswer =
        some s ∧ s.table (1, "k") = some ⟨some "hi", 0⟩ ∧
      run (eventStep offline) s lateReplay = some w ∧
      Sessions.clampPracticedAt (some 0) w.clock = 0 ∧ w.persisted true = true ∧
      w.commits = [(5, "hello", "hi"), (5, "hello", "again")] := by
  obtain ⟨s, hs, hd⟩ := exists_run_of_check (eventStep offline)
    (.init offline 0 (fun _ => none) fun _ => []) lostAnswer
    (fun s => decide (s.table (1, "k") = some ⟨some "hi", 0⟩)) (by decide +kernel)
  obtain ⟨w, hw, he⟩ := exists_run_of_check (eventStep offline)
    (.init offline 0 (fun _ => none) fun _ => []) (lostAnswer ++ lateReplay)
    (fun w => decide (Sessions.clampPracticedAt (some 0) w.clock = 0 ∧ w.persisted true = true ∧
      w.commits = [(5, "hello", "hi"), (5, "hello", "again")])) (by decide +kernel)
  obtain ⟨s', hs', hw'⟩ := run_append_iff.mp hw
  obtain rfl : s' = s := Option.some.inj (hs'.symm.trans hs)
  exact ⟨s', w, hs, of_decide_eq_true hd, hw', of_decide_eq_true he⟩

end Apm.Conversation
