import Apm.Lib.Run
import Apm.Lib.UnitOfWork
import Apm.Sessions.History

/-!
# The user row under concurrent requests

Each request first loads the user through `get_current_user`, then reads what
its section needs, takes the user row lock with `SELECT ... FOR UPDATE`, runs
its locked section and commits. `start` and `end` lock in the session that
loaded the user: the identity map hands back the loaded object with its old
column values. Turn metering locks in a session of its own and reads the row.

A commit writes the columns whose value in memory differs from the loaded one.
The locked sections that commit are logged in commit order; running the log one
section after another is the reference result.
-/

namespace Apm.Sessions.UserRow

open Apm.Core Apm.Lib Apm.Streaks

set_option autoImplicit false

structure Db where
  user : User
  sessions : List ConversationSession
  deriving DecidableEq

/-- What a request does, from its path. -/
inductive Kind where
  | start (missionOwned : Bool)
  | endSession (id : Nat)
  | recordTurnActivity (id : Nat)
  deriving DecidableEq

/-- A locked section with the values the request holds when it takes the lock. -/
inductive Section where
  | start (t : StartClock) (missionOwned : Bool)
  | endSession (id : Nat) (now : Instant)
  | recordTurnActivity (id : Nat) (minutes : ℚ) (now : Instant)

/-- The rows a section commits, from the user object it has in memory. -/
def Section.run (cfg : Settings) (user : User) (sessions : List ConversationSession) :
    Section → Option (User × List ConversationSession)
  | .start t missionOwned => (Sessions.start cfg t missionOwned user sessions).committed
  | .endSession id now => Sessions.endSession cfg id now user sessions
  | .recordTurnActivity id minutes now => Sessions.recordTurnActivity id minutes now user sessions

def writeBack (loaded mutated row : User) : User where
  id := writeColumn loaded.id mutated.id row.id
  tier := writeColumn loaded.tier mutated.tier row.tier
  quotaDate := writeColumn loaded.quotaDate mutated.quotaDate row.quotaDate
  minutesUsedToday :=
    writeColumn loaded.minutesUsedToday mutated.minutesUsedToday row.minutesUsedToday
  currentStreak := writeColumn loaded.currentStreak mutated.currentStreak row.currentStreak
  longestStreak := writeColumn loaded.longestStreak mutated.longestStreak row.longestStreak
  lastActiveDate := writeColumn loaded.lastActiveDate mutated.lastActiveDate row.lastActiveDate

/-- Where a request stands, with the user object in the identity map of the
session that will lock. -/
inductive Phase where
  | entered
  | loaded (user : User)
  | ready (user : User) (sec : Section)
  | locked (user : User) (sec : Section)
  | done

structure World (ι : Type) where
  db : Db
  /-- holder of the user row lock -/
  lock : Option ι
  phase : ι → Phase
  /-- the committed sections, in commit order -/
  log : List Section

inductive Action (ι : Type) where
  /-- `get_current_user` -/
  | load (i : ι)
  /-- the reads before the lock, with the instants of the request -/
  | read (i : ι) (t : StartClock)
  | lock (i : ι)
  /-- the locked section and its commit, or its exit without one -/
  | finish (i : ι)
  /-- an exception or a cancellation: the transaction is rolled back -/
  | abort (i : ι)

variable {ι : Type} [DecidableEq ι]

def World.setPhase (w : World ι) (i : ι) (p : Phase) : World ι :=
  { w with phase := Function.update w.phase i p }

/-- The request is over and releases the lock it may hold. -/
def World.leave (w : World ι) (i : ι) : World ι :=
  { w.setPhase i .done with lock := if w.lock = some i then none else w.lock }

/-- The section a request is about to lock for, or its early return. -/
def sectionOf (cfg : Settings) (db : Db) (t : StartClock) : Kind → Option Section
  | .start missionOwned => some (.start t missionOwned)
  | .endSession id =>
    match db.sessions[id]? with
    | none => none
    | some session =>
      if session.userId ≠ db.user.id ∨ session.endedAt ≠ none then none
      else some (.endSession id t.now)
  | .recordTurnActivity id =>
    match db.sessions[id]? with
    | none => none
    | some session =>
      if session.userId ≠ db.user.id ∨ session.endedAt ≠ none then none
      else some (.recordTurnActivity id
        (elapsedMinutes session.lastActivityAt t.now (some cfg.turnMeterCap)) t.now)

/-- The user object `users.lock` returns: the fresh session of a turn reads the
row, the request session keeps what it loaded. -/
def lockedUser (db : Db) (loaded : User) : Section → User
  | .recordTurnActivity .. => db.user
  | _ => loaded

def World.commit (w : World ι) (i : ι) (user : User) (sec : Section)
    (rows : User × List ConversationSession) : World ι :=
  { w.leave i with
    db := ⟨writeBack user rows.1 w.db.user, rows.2⟩
    log := w.log ++ [sec] }

def step (cfg : Settings) (kind : ι → Kind) (w : World ι) : Action ι → Option (World ι)
  | .load i =>
    match w.phase i with
    | .entered => some (w.setPhase i (.loaded w.db.user))
    | _ => none
  | .read i t =>
    match w.phase i with
    | .loaded user =>
      match sectionOf cfg w.db t (kind i) with
      | none => some (w.leave i)
      | some sec => some (w.setPhase i (.ready user sec))
    | _ => none
  | .lock i =>
    match w.phase i with
    | .ready user sec =>
      if w.lock = none then
        some { w.setPhase i (.locked (lockedUser w.db user sec) sec) with lock := some i }
      else none
    | _ => none
  | .finish i =>
    match w.phase i with
    | .locked user sec =>
      match sec.run cfg user w.db.sessions with
      | none => some (w.leave i)
      | some rows => some (w.commit i user sec rows)
    | _ => none
  | .abort i =>
    match w.phase i with
    | .done => none
    | _ => some (w.leave i)

def World.init (db : Db) : World ι := ⟨db, none, fun _ => .entered, []⟩

/-- One section after another, each on the rows the one before left. -/
def serial (cfg : Settings) (db : Db) (log : List Section) : Db :=
  log.foldl (fun db sec => (sec.run cfg db.user db.sessions).elim db fun rows => ⟨rows.1, rows.2⟩) db

/-- A section reads the quota columns: a start that reaps, or that only passes
its check on the object in memory; an end with a residual to charge. -/
def readsQuota (cfg : Settings) (db : Db) : Section → Bool
  | .start t _ => (reaped cfg t.now db.user db.sessions).isSome ||
      decide (remainingMinutes db.user cfg.freeDaily (date t.checked) ≤ 0)
  | .endSession id now =>
    match db.sessions[id]? with
    | none => false
    | some session => decide (0 < residual cfg.turnMeterCap session now)
  | .recordTurnActivity .. => false

/-- The section that is about to finish works on the quota columns of the row:
they have not changed since its request loaded the user. -/
def quotaCurrent (cfg : Settings) (w : World ι) : Action ι → Bool
  | .finish i =>
    match w.phase i with
    | .locked user sec => decide (readsQuota cfg w.db sec = true →
        user.quotaDate = w.db.user.quotaDate ∧
          user.minutesUsedToday = w.db.user.minutesUsedToday)
    | _ => true
  | _ => true

/-! ## What a section writes -/

theorem writeBack_self (loaded row : User) : writeBack loaded loaded row = row := by
  simp only [writeBack, writeColumn_self]

theorem writeBack_current (loaded mutated : User) : writeBack loaded mutated loaded = mutated := by
  simp only [writeBack, writeColumn_current]

/-- The columns of the quota agree, and so do the ones no section writes. -/
structure SameQuota (user row : User) : Prop where
  id : user.id = row.id
  tier : user.tier = row.tier
  quotaDate : user.quotaDate = row.quotaDate
  minutesUsedToday : user.minutesUsedToday = row.minutesUsedToday

theorem SameQuota.remainingMinutes {user row : User} (h : SameQuota user row) (freeDaily : Int)
    (day : Day) : remainingMinutes user freeDaily day = remainingMinutes row freeDaily day := by
  simp only [Core.remainingMinutes, h.tier, h.quotaDate, h.minutesUsedToday]

theorem SameQuota.charge {user row : User} (h : SameQuota user row) (usage : Option Usage) :
    SameQuota (charge user usage) (charge row usage) := by
  cases usage with
  | none => exact h
  | some u =>
    refine ⟨by simp [h.id], by simp [h.tier], by simp [Sessions.charge], ?_⟩
    simp [Sessions.charge, recordUsage_minutesUsedToday, User.usedOn, h.quotaDate,
      h.minutesUsedToday]

/-- A charge made on current quota columns is written back as if it had been
made on the row. -/
theorem writeBack_charge {user row : User} (usage : Option Usage)
    (h : usage ≠ none → SameQuota user row) :
    writeBack user (charge user usage) row = charge row usage := by
  cases usage with
  | none => exact writeBack_self user row
  | some u =>
    obtain ⟨hid, htier, hdate, hused⟩ := h (by simp)
    cases user
    cases row
    simp only at hid htier hdate hused
    subst hid htier hdate hused
    simp only [charge, recordUsage]
    split <;> simp [writeBack, writeColumn_current]

/-- The lists of sessions a section leaves do not depend on the user object
beyond the columns that no section writes and those of the quota. -/
theorem end_writeBack {cfg : Settings} {user row : User} {sessions : List ConversationSession}
    {id : Nat} {now : Instant} {rows : User × List ConversationSession} (hid : user.id = row.id)
    (hquota : readsQuota cfg ⟨row, sessions⟩ (.endSession id now) = true → SameQuota user row)
    (hrun : endSession cfg id now user sessions = some rows) :
    endSession cfg id now row sessions = some (writeBack user rows.1 row, rows.2) := by
  simp only [endSession, readsQuota] at *
  cases hs : sessions[id]? with
  | none =>
    rw [hs] at hrun
    cases hrun
  | some session =>
    rw [hs] at hrun hquota
    simp only at hrun hquota ⊢
    rw [hid] at hrun
    split_ifs at hrun ⊢ with hlive
    obtain rfl := Option.some.inj hrun
    have husage : usageOf (residual cfg.turnMeterCap session now) now ≠ none →
        SameQuota user row := fun hne => hquota (decide_eq_true (by
      by_contra hle
      exact hne (if_neg hle)))
    simp only [closeUser, writeBack_charge _ husage]

theorem start_writeBack {cfg : Settings} {user row : User} {sessions : List ConversationSession}
    {t : StartClock} {missionOwned : Bool} {rows : User × List ConversationSession}
    (hid : user.id = row.id)
    (hquota : readsQuota cfg ⟨row, sessions⟩ (.start t missionOwned) = true → SameQuota user row)
    (hrun : (start cfg t missionOwned user sessions).committed = some rows) :
    (start cfg t missionOwned row sessions).committed =
      some (writeBack user rows.1 row, rows.2) := by
  simp only [readsQuota, Bool.or_eq_true, decide_eq_true_eq] at hquota
  simp only [start] at hrun ⊢
  rw [hid] at hrun
  split_ifs at hrun with hcheck
  have hrow : ¬remainingMinutes row cfg.freeDaily (date t.checked) ≤ 0 := fun hle =>
    hcheck (((hquota (.inr hle)).remainingMinutes _ _).trans_le hle)
  rw [if_neg hrow]
  cases hactive : getActiveForUser sessions row.id with
  | none =>
    rw [hactive] at hrun
    simp only [openSession, hid] at hrun ⊢
    cases missionOwned
    · cases hrun
    · obtain rfl := Option.some.inj hrun
      simp [writeBack_self]
  | some i =>
    obtain ⟨active, hs, -⟩ := getActiveForUser_spec hactive
    rw [hactive] at hrun
    simp only [hs] at hrun ⊢
    by_cases hstale : isStale active.lastActivityAt t.now cfg.inactivityTimeout
    · -- a reap charges the object in memory
      have hsame : SameQuota user row := hquota (.inl (by simp [reaped, hactive, hs, hstale]))
      have hcharge := writeBack_charge (usageOf (residual cfg.turnMeterCap active t.now) t.now)
        fun _ => hsame
      have hafter := (hsame.charge (usageOf (residual cfg.turnMeterCap active t.now)
        t.now)).remainingMinutes cfg.freeDaily (date t.now)
      simp only [hstale, if_true, closeUser, hafter, openSession, charge_id, hid] at hrun ⊢
      split_ifs at hrun ⊢ with hspent howned
      · obtain rfl := Option.some.inj hrun
        simp only [hcharge]
      · obtain rfl := Option.some.inj hrun
        simp only [hcharge]
    · rw [if_neg hstale] at hrun
      cases hrun

theorem openSession_user {t : StartClock} {missionOwned : Bool} {user : User}
    {sessions : List ConversationSession} {rows : User × List ConversationSession}
    (h : (openSession t missionOwned user sessions).committed = some rows) : rows.1 = user := by
  simp only [openSession] at h
  split_ifs at h
  obtain rfl := Option.some.inj h
  rfl

/-- A start changes the user by at most one charge. -/
theorem start_user {cfg : Settings} {t : StartClock} {missionOwned : Bool} {user : User}
    {sessions : List ConversationSession} {rows : User × List ConversationSession}
    (h : (start cfg t missionOwned user sessions).committed = some rows) :
    ∃ usage, rows.1 = charge user usage := by
  simp only [start] at h
  split_ifs at h
  split at h
  · exact ⟨none, openSession_user h⟩
  · split at h
    · exact ⟨none, openSession_user h⟩
    · split_ifs at h
      · obtain rfl := Option.some.inj h
        exact ⟨_, rfl⟩
      · exact ⟨_, openSession_user h⟩

/-- **One section.** A section that commits leaves the rows it would leave had it
read the row under the lock, unless it read quota columns that were not current. -/
theorem section_writeBack {cfg : Settings} {user row : User}
    {sessions : List ConversationSession} {sec : Section}
    {rows : User × List ConversationSession} (hid : user.id = row.id)
    (hturn : ∀ id minutes now, sec = .recordTurnActivity id minutes now → user = row)
    (hquota : readsQuota cfg ⟨row, sessions⟩ sec = true → SameQuota user row)
    (hrun : sec.run cfg user sessions = some rows) :
    sec.run cfg row sessions = some (writeBack user rows.1 row, rows.2) := by
  cases sec with
  | start t missionOwned => exact start_writeBack hid hquota hrun
  | endSession id now => exact end_writeBack hid hquota hrun
  | recordTurnActivity id minutes now =>
    obtain rfl := hturn id minutes now rfl
    rw [writeBack_current]
    exact hrun

/-! ## The invariant of the interleaved requests -/

/-- The columns no section writes. -/
def SameIdentity (user row : User) : Prop := user.id = row.id ∧ user.tier = row.tier

/-- What a request has in memory, against the row. -/
def PhaseOk (w : World ι) (i : ι) : Phase → Prop
  | .entered | .done => True
  | .loaded user => SameIdentity user w.db.user
  | .ready user _ => SameIdentity user w.db.user
  | .locked user sec => w.lock = some i ∧ SameIdentity user w.db.user ∧
      ∀ id minutes now, sec = .recordTurnActivity id minutes now → user = w.db.user

structure Inv (cfg : Settings) (db : Db) (w : World ι) : Prop where
  serial : w.db = serial cfg db w.log
  phase : ∀ i, PhaseOk w i (w.phase i)

/-- The other requests keep what they know: the row changes only under the lock. -/
structure Frame (w w' : World ι) (j : ι) : Prop where
  identity : SameIdentity w.db.user w'.db.user
  held : w.lock = some j → w'.lock = some j ∧ w'.db = w.db

omit [DecidableEq ι] in
theorem phaseOk_frame {w w' : World ι} {j : ι} {p : Phase} (hf : Frame w w' j)
    (h : PhaseOk w j p) : PhaseOk w' j p := by
  have htrans : ∀ user, SameIdentity user w.db.user → SameIdentity user w'.db.user :=
    fun user hu => ⟨hu.1.trans hf.identity.1, hu.2.trans hf.identity.2⟩
  cases p with
  | entered => trivial
  | done => trivial
  | loaded user => exact htrans user h
  | ready user sec => exact htrans user h
  | locked user sec =>
    obtain ⟨hl, hsame, hturn⟩ := h
    refine ⟨(hf.held hl).1, htrans user hsame, ?_⟩
    rw [(hf.held hl).2]
    exact hturn

/-- One request moved to `p`; every other request kept its frame. -/
theorem phase_update {w w' : World ι} {i : ι} {p : Phase} (h : ∀ j, PhaseOk w j (w.phase j))
    (hphase : w'.phase = Function.update w.phase i p) (hf : ∀ j, j ≠ i → Frame w w' j)
    (hp : PhaseOk w' i p) : ∀ j, PhaseOk w' j (w'.phase j) := by
  intro j
  rw [hphase]
  by_cases hj : j = i
  · subst hj
    rwa [Function.update_self]
  · rw [Function.update_of_ne hj]
    exact phaseOk_frame (hf j hj) (h j)

section preservation

variable {cfg : Settings} {db : Db} {w : World ι} {i : ι}

theorem inv_setPhase {p : Phase} (h : Inv cfg db w) (hp : PhaseOk w i p) :
    Inv cfg db (w.setPhase i p) where
  serial := h.serial
  phase := phase_update h.phase rfl (fun _ _ => ⟨⟨rfl, rfl⟩, fun hl => ⟨hl, rfl⟩⟩)
    (phaseOk_frame ⟨⟨rfl, rfl⟩, fun hl => ⟨hl, rfl⟩⟩ hp)

theorem inv_leave (h : Inv cfg db w) : Inv cfg db (w.leave i) where
  serial := h.serial
  phase := by
    refine phase_update h.phase rfl (fun j hj => ⟨⟨rfl, rfl⟩, fun hl => ⟨?_, rfl⟩⟩) trivial
    have hne : w.lock ≠ some i := by rw [hl]; simpa using hj
    simpa [World.leave, hne] using hl

theorem inv_lock {user : User} {sec : Section} (h : Inv cfg db w) (hfree : w.lock = none)
    (hp : PhaseOk w i (.ready user sec)) :
    Inv cfg db { w.setPhase i (.locked (lockedUser w.db user sec) sec) with lock := some i } where
  serial := h.serial
  phase := by
    refine phase_update h.phase rfl (fun j _ => ⟨⟨rfl, rfl⟩, fun hl => ?_⟩) ⟨rfl, ?_, ?_⟩
    · rw [hfree] at hl
      cases hl
    · cases sec with
      | recordTurnActivity id minutes now => exact ⟨rfl, rfl⟩
      | start t missionOwned => exact hp
      | endSession id now => exact hp
    · rintro id minutes now rfl
      rfl

theorem serial_append (cfg : Settings) (db : Db) (log : List Section) (sec : Section) :
    serial cfg db (log ++ [sec]) =
      (sec.run cfg (serial cfg db log).user (serial cfg db log).sessions).elim
        (serial cfg db log) fun rows => ⟨rows.1, rows.2⟩ := by
  simp only [serial, List.foldl_append, List.foldl_cons, List.foldl_nil]

theorem section_identity {user : User} {sessions : List ConversationSession} {sec : Section}
    {rows : User × List ConversationSession} (hrun : sec.run cfg user sessions = some rows) :
    SameIdentity rows.1 user := by
  cases sec with
  | start t missionOwned =>
    obtain ⟨usage, hu⟩ := start_user hrun
    rw [hu]
    exact ⟨charge_id .., charge_tier ..⟩
  | endSession id now =>
    simp only [Section.run, endSession] at hrun
    split at hrun
    · cases hrun
    · split_ifs at hrun
      obtain rfl := Option.some.inj hrun
      exact ⟨closeUser_id .., closeUser_tier ..⟩
  | recordTurnActivity id minutes now =>
    simp only [Section.run, recordTurnActivity] at hrun
    split at hrun
    · cases hrun
    · split_ifs at hrun
      obtain rfl := Option.some.inj hrun
      exact ⟨meterUser_id .., meterUser_tier ..⟩

theorem inv_commit {user : User} {sec : Section} {rows : User × List ConversationSession}
    (h : Inv cfg db w) (hp : PhaseOk w i (.locked user sec))
    (hquota : readsQuota cfg w.db sec = true → user.quotaDate = w.db.user.quotaDate ∧
      user.minutesUsedToday = w.db.user.minutesUsedToday)
    (hrun : sec.run cfg user w.db.sessions = some rows) :
    Inv cfg db (w.commit i user sec rows) := by
  obtain ⟨hlock, ⟨hid, htier⟩, hturn⟩ := hp
  have hrow := section_writeBack hid hturn
    (fun hr => ⟨hid, htier, (hquota hr).1, (hquota hr).2⟩) hrun
  refine ⟨?_, phase_update h.phase rfl (fun j hj => ⟨?_, fun hl => ?_⟩) trivial⟩
  · change Db.mk _ _ = serial cfg db (w.log ++ [sec])
    rw [serial_append, ← h.serial, hrow]
    rfl
  · obtain ⟨hi, ht⟩ := section_identity hrow
    exact ⟨hi.symm, ht.symm⟩
  · -- the committing request holds the lock, so no other request does
    rw [hlock] at hl
    exact absurd (Option.some.inj hl).symm hj

end preservation

theorem inv_step {cfg : Settings} {kind : ι → Kind} {db : Db} (w : World ι) (a : Action ι)
    (w' : World ι) (h : Inv cfg db w) (hg : quotaCurrent cfg w a = true)
    (hstep : step cfg kind w a = some w') : Inv cfg db w' := by
  cases a with
  | load i =>
    simp only [step] at hstep
    split at hstep
    · obtain rfl := Option.some.inj hstep
      exact inv_setPhase h ⟨rfl, rfl⟩
    · cases hstep
  | read i t =>
    simp only [step] at hstep
    split at hstep
    · rename_i user hphase
      have hi := h.phase i
      rw [hphase] at hi
      split at hstep
      · obtain rfl := Option.some.inj hstep
        exact inv_leave h
      · obtain rfl := Option.some.inj hstep
        exact inv_setPhase h hi
    · cases hstep
  | lock i =>
    simp only [step] at hstep
    split at hstep
    · rename_i user sec hphase
      have hi := h.phase i
      rw [hphase] at hi
      split_ifs at hstep with hfree
      obtain rfl := Option.some.inj hstep
      exact inv_lock h hfree hi
    · cases hstep
  | finish i =>
    simp only [step] at hstep
    split at hstep
    · rename_i user sec hphase
      have hi := h.phase i
      rw [hphase] at hi
      simp only [quotaCurrent, hphase, decide_eq_true_eq] at hg
      split at hstep
      · obtain rfl := Option.some.inj hstep
        exact inv_leave h
      · rename_i rows hrun
        obtain rfl := Option.some.inj hstep
        exact inv_commit h hi hg hrun
    · cases hstep
  | abort i =>
    simp only [step] at hstep
    split at hstep
    · cases hstep
    · obtain rfl := Option.some.inj hstep
      exact inv_leave h

/-- **No metering update is lost while the quota columns read are current.** For
any number of requests of the user and every order of their steps, the user row
and the sessions equal the result of the committed sections run one after
another in commit order. -/
theorem requests_serial (cfg : Settings) (kind : ι → Kind) (db : Db) {as : List (Action ι)}
    {w : World ι} (hrun : run (step cfg kind) (.init db) as = some w)
    (hg : Along (step cfg kind) (fun w a _ => quotaCurrent cfg w a = true) (.init db) as) :
    w.db = serial cfg db w.log := by
  have hinit : Inv cfg db (World.init db : World ι) := ⟨rfl, fun _ => trivial⟩
  exact (run_invariant (fun w a w' hi hga hw => inv_step w a w' hi hga hw) hinit hg hrun).serial

/-- A turn on an open session and its end: the end loads the user once the turn
has committed. -/
def endAfterTurn : List (Action Bool) :=
  [.load false, .read false ⟨300000000, 300000000, 300000000, 300000000⟩, .lock false, .finish false,
    .load true, .read true ⟨420000000, 420000000, 420000000, 420000000⟩, .lock true, .finish true]

/-- A user with an open session, ten minutes free, no usage yet. -/
def oneSession : Db := ⟨⟨1, tierFree, none, 0, 0, 0, none⟩, [⟨1, 0, 0, none, none⟩]⟩

def turnAndEnd (i : Bool) : Kind := if i then .endSession 0 else .recordTurnActivity 0

theorem requests_serial_end_after_turn :
    ∃ w, run (step shipped turnAndEnd) (.init oneSession) endAfterTurn = some w ∧
      w.db.user.minutesUsedToday = 7 ∧ w.db = serial shipped oneSession w.log := by
  obtain ⟨w, hw, hd⟩ := exists_run_of_check (step shipped turnAndEnd) (.init oneSession)
    endAfterTurn (fun w => decide (w.db.user.minutesUsedToday = 7)) (by decide +kernel)
  exact ⟨w, hw, of_decide_eq_true hd,
    requests_serial shipped turnAndEnd oneSession hw (by decide +kernel)⟩

/-- The end loads the user before the turn commits. -/
def endAcrossTurn : List (Action Bool) :=
  [.load true, .load false, .read false ⟨300000000, 300000000, 300000000, 300000000⟩, .lock false,
    .finish false, .read true ⟨420000000, 420000000, 420000000, 420000000⟩, .lock true, .finish true]

/-- The end writes the two minutes of its residual over the five of the turn. -/
theorem end_overwrites_turn_minutes :
    ∃ w, run (step shipped turnAndEnd) (.init oneSession) endAcrossTurn = some w ∧
      w.db.user.minutesUsedToday = 2 ∧
      (serial shipped oneSession w.log).user.minutesUsedToday = 7 ∧
      w.db.user.minutesUsedToday ≠ (serial shipped oneSession w.log).user.minutesUsedToday := by
  obtain ⟨w, hw, hd⟩ := exists_run_of_check (step shipped turnAndEnd) (.init oneSession)
    endAcrossTurn (fun w => decide (w.db.user.minutesUsedToday = 2 ∧
      (serial shipped oneSession w.log).user.minutesUsedToday = 7)) (by decide +kernel)
  obtain ⟨hrow, hserial⟩ := of_decide_eq_true hd
  refine ⟨w, hw, hrow, hserial, ?_⟩
  rw [hrow, hserial]
  norm_num

end Apm.Sessions.UserRow
