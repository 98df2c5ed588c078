import Apm.Lib.Table
import Apm.Lib.UnitOfWork
import Apm.Sessions.Service

/-!
# Starting a session, statement by statement

`start` runs in one transaction under the lock of the user row: two checks of the quota, the
reaper, the check of the mission, the insert. It commits the new session, or the reap that has
exhausted the quota; every other exit leaves the database as it was. A commit that was applied may
still raise, when its answer is lost.
-/

namespace Apm.Sessions.Start

open Apm.Core Apm.Lib

set_option autoImplicit false

/-! ## The tables -/

/-- `uq_sessions_one_active_per_user` has the sessions that are not ended, by their user. -/
abbrev SessionTable := PartialTable ConversationSession.userId fun s => s.endedAt.isNone

def isActiveOf (userId : Int) : ConversationSession → Bool :=
  occupies ConversationSession.userId (fun s => s.endedAt.isNone) userId

/-- The rows of `users` and of `sessions`, these in the order of their ids. -/
structure Database where
  users : Table User.id
  sessions : SessionTable

namespace Database

/-- `get_active_for_user` -/
def getActive (db : Database) (userId : Int) : Option (Nat × ConversationSession) :=
  (getActiveForUser db.sessions.rows userId).bind fun i =>
    db.sessions.rows[i]?.map fun s => (i, s)

/-- `_close_session` on both rows. -/
def close (cap : ℚ) (now : Instant) (userId : Int) (i : Nat) (active : ConversationSession)
    (db : Database) : Database where
  users := db.users.update (fun u => u.id = userId) (fun u => closeUser cap active u now)
    fun _ => closeUser_id ..
  sessions := db.sessions.set i (closeSession cap active now) rfl

def insertSession (s : ConversationSession) (db : Database) : Option Database :=
  (db.sessions.insert s).map fun sessions => { db with sessions := sessions }

end Database

/-! ## `start` -/

inductive Raised where
  | userNotFound
  | refused (e : StartError)
  deriving DecidableEq, Repr

/-- For each statement whether the database answers it, and how it answers the commit. -/
structure Answers where
  lock : Bool
  active : Bool
  mission : Bool
  add : Bool
  refresh : Bool
  commit : CommitAnswer

/-- The database fails nowhere. -/
structure Answers.AllGiven (a : Answers) : Prop where
  lock : a.lock = true
  active : a.active = true
  mission : a.mission = true
  add : a.add = true
  refresh : a.refresh = true
  commit : a.commit = .done

abbrev StartWork := Work Database Raised

def refuse {α : Type} (e : StartError) : StartWork α := Work.raise (.code (.refused e))

def requireQuota (cfg : Settings) (user : User) (today : Day) : StartWork Unit :=
  if remainingMinutes user cfg.freeDaily today ≤ 0 then refuse .quotaExhausted else pure ()

/-- The block behind `get_active_for_user`. -/
def reapAbandoned (cfg : Settings) (t : StartClock) (a : Answers) (user : User) :
    Option (Nat × ConversationSession) → StartWork Unit
  | none => pure ()
  | some (i, active) =>
    if isStale active.lastActivityAt t.now cfg.inactivityTimeout then do
      Work.stage (Database.close cfg.turnMeterCap t.now user.id i active)
      let user := closeUser cfg.turnMeterCap active user t.now
      if remainingMinutes user cfg.freeDaily (date t.now) ≤ 0 then do
        -- the reap is committed before the refusal
        Work.commit a.commit
        refuse .quotaExhausted
    else refuse .activeSessionExists

/-- `_owns_mission`; `missions` is the repository, where there is one. -/
def ownsMission (missions : Option (Int → Int → Bool)) (a : Answers) (missionId userId : Int) :
    StartWork Bool :=
  match missions with
  | none => pure false
  | some getOwned => Work.read a.mission fun _ => getOwned missionId userId

def checkMission (missions : Option (Int → Int → Bool)) (a : Answers) (missionId : Option Int)
    (userId : Int) : StartWork Unit :=
  match missionId with
  | none => pure ()
  | some missionId => do
    let owned ← ownsMission missions a missionId userId
    if owned then pure () else refuse .missionNotFound

/-- `sessions.add`: the insert, and the refresh that reads the id. -/
def addSession (a : Answers) (session : ConversationSession) : StartWork Nat := do
  Work.tryWrite a.add (Database.insertSession session)
  Work.read a.refresh fun db => db.sessions.rows.length - 1

/-- The row of the new session. -/
def newSession (t : StartClock) (userId : Int) : ConversationSession :=
  ⟨userId, t.startedAt, t.lastActivityAt, none, none⟩

/-- The end of `start`, from the check of the mission on. -/
def create (t : StartClock) (missions : Option (Int → Int → Bool)) (a : Answers) (userId : Int)
    (missionId : Option Int) : StartWork Nat := do
  checkMission missions a missionId userId
  let session ← addSession a (newSession t userId)
  Work.commit a.commit
  pure session

/-- `start`, from the lock of the user row on. -/
def start (cfg : Settings) (t : StartClock) (missions : Option (Int → Int → Bool)) (a : Answers)
    (userId : Int) (missionId : Option Int) : StartWork Nat := do
  match ← Work.read a.lock fun db => db.users.get userId with
  | none => Work.raise (.code .userNotFound)
  | some user => do
    requireQuota cfg user (date t.checked)
    let active ← Work.read a.active fun db => db.getActive userId
    reapAbandoned cfg t a user active
    create t missions a userId missionId

/-! ## The tables after each statement -/

section tables

variable {db db' : Database} {userId : Int} {i : Nat} {active : ConversationSession}

theorem getActive_eq_some (h : db.getActive userId = some (i, active)) :
    getActiveForUser db.sessions.rows userId = some i ∧ db.sessions.rows[i]? = some active := by
  rw [Database.getActive, Option.bind_eq_some_iff] at h
  obtain ⟨j, hfound, hrow⟩ := h
  rw [Option.map_eq_some_iff] at hrow
  obtain ⟨s, hs, heq⟩ := hrow
  obtain ⟨rfl, rfl⟩ := Prod.mk.inj heq
  exact ⟨hfound, hs⟩

theorem getActive_some (h : db.getActive userId = some (i, active)) :
    db.sessions.rows[i]? = some active ∧ isActiveOf userId active = true := by
  obtain ⟨hfound, hrow⟩ := getActive_eq_some h
  obtain ⟨hlt, hp, -⟩ := List.findIdx?_eq_some_iff_getElem.mp hfound
  have hat := (List.getElem?_eq_getElem hlt).symm.trans hrow
  exact ⟨hrow, Option.some.inj hat ▸ hp⟩

theorem getActive_eq_none (h : db.getActive userId = none) :
    getActiveForUser db.sessions.rows userId = none := by
  cases hfound : getActiveForUser db.sessions.rows userId with
  | none => rfl
  | some j =>
    obtain ⟨hlt, -⟩ := List.findIdx?_eq_some_iff_getElem.mp hfound
    rw [Database.getActive, hfound, Option.bind_some, List.getElem?_eq_getElem hlt] at h
    cases h

theorem getActive_none (h : db.getActive userId = none) :
    ∀ s ∈ db.sessions.rows, isActiveOf userId s = false :=
  fun s hs => List.findIdx?_eq_none_iff.mp (getActive_eq_none h) s hs

theorem close_row_self (cap : ℚ) (now : Instant) (h : db.sessions.rows[i]? = some active) :
    (db.close cap now userId i active).sessions.rows[i]? = some (closeSession cap active now) := by
  obtain ⟨hlt, -⟩ := List.getElem?_eq_some_iff.mp h
  exact List.getElem?_set_self hlt

theorem close_row_other (cap : ℚ) (now : Instant) {j : Nat} (h : j ≠ i) :
    (db.close cap now userId i active).sessions.rows[j]? = db.sessions.rows[j]? :=
  List.getElem?_set_ne (Ne.symm h)

theorem length_close (cap : ℚ) (now : Instant) :
    (db.close cap now userId i active).sessions.rows.length = db.sessions.rows.length :=
  List.length_set

theorem close_user (cap : ℚ) (now : Instant) (id : Int) :
    (db.close cap now userId i active).users.get id = (db.users.get id).map fun u =>
      if decide (u.id = userId) then closeUser cap active u now else u := by
  have hid : ∀ u : User, (closeUser cap active u now).id = u.id := fun _ => closeUser_id ..
  show (db.users.update (fun u => u.id = userId) (fun u => closeUser cap active u now) hid).get id =
    _
  exact Table.get_update

theorem close_user_self (cap : ℚ) (now : Instant) {user : User}
    (h : db.users.get userId = some user) :
    (db.close cap now userId i active).users.get userId =
      some (closeUser cap active user now) := by
  have hid : user.id = userId := Table.key_of_get h
  rw [close_user, h, Option.map_some, if_pos (decide_eq_true hid)]

theorem close_user_other (cap : ℚ) (now : Instant) {id : Int} (h : id ≠ userId) :
    (db.close cap now userId i active).users.get id = db.users.get id := by
  rw [close_user]
  cases hget : db.users.get id with
  | none => rfl
  | some user =>
    have hid : user.id = id := Table.key_of_get hget
    rw [Option.map_some, if_neg (by rw [hid]; simpa using h)]

theorem insertSession_some {s : ConversationSession} (h : db.insertSession s = some db') :
    db'.users = db.users ∧ db'.sessions.rows = db.sessions.rows ++ [s] := by
  rw [Database.insertSession, Option.map_eq_some_iff] at h
  obtain ⟨sessions, hinsert, rfl⟩ := h
  exact ⟨rfl, PartialTable.rows_insert hinsert⟩

/-- The reap leaves the user without an active session. -/
theorem close_inactive (cap : ℚ) (now : Instant) (h : db.getActive userId = some (i, active)) :
    ∀ s ∈ (db.close cap now userId i active).sessions.rows, isActiveOf userId s = false := by
  obtain ⟨hrow, hactive⟩ := getActive_some h
  intro s hs
  obtain ⟨j, hj⟩ := List.mem_iff_getElem?.mp hs
  by_cases hne : j = i
  · rw [hne, close_row_self cap now hrow, Option.some_inj] at hj
    rw [← hj]
    exact Bool.and_false _
  · rw [close_row_other cap now hne] at hj
    rw [Bool.eq_false_iff]
    exact fun hother => hne (PartialTable.place_eq hj hrow hother hactive)

end tables

/-! ## What a start leaves -/

/-- The reaper has an abandoned session to close: the user passes the first check, and the active
session is stale. -/
structure Reapable (cfg : Settings) (t : StartClock) (userId : Int) (db : Database) (user : User)
    (i : Nat) (active : ConversationSession) : Prop where
  locked : db.users.get userId = some user
  allowed : 0 < remainingMinutes user cfg.freeDaily (date t.checked)
  found : db.getActive userId = some (i, active)
  stale : isStale active.lastActivityAt t.now cfg.inactivityTimeout = true

/-- The reap itself exhausts the quota. -/
structure ReapExhausts (cfg : Settings) (t : StartClock) (userId : Int) (db : Database)
    (user : User) (i : Nat) (active : ConversationSession) : Prop
    extends Reapable cfg t userId db user i active where
  exhausted :
    remainingMinutes (closeUser cfg.turnMeterCap active user t.now) cfg.freeDaily (date t.now) ≤ 0

/-- What a start that succeeds with session `id` makes of the database. -/
structure Started (cfg : Settings) (t : StartClock) (userId : Int) (db db' : Database) (id : Nat) :
    Prop where
  row : db'.sessions.rows[id]? = some (newSession t userId)
  fresh : db.sessions.rows[id]? = none
  onlyActive : ∀ (j : Nat) (s : ConversationSession), db'.sessions.rows[j]? = some s →
    isActiveOf userId s = true → j = id
  /-- the session that was active is ended and its residual billed, and there is quota left -/
  reaped : ∀ (j : Nat) (s : ConversationSession), db.sessions.rows[j]? = some s →
    isActiveOf userId s = true →
    isStale s.lastActivityAt t.now cfg.inactivityTimeout = true ∧
      db'.sessions.rows[j]? = some (closeSession cfg.turnMeterCap s t.now) ∧
      ∃ user, db.users.get userId = some user ∧
        db'.users.get userId = some (closeUser cfg.turnMeterCap s user t.now) ∧
        0 < remainingMinutes (closeUser cfg.turnMeterCap s user t.now) cfg.freeDaily (date t.now)
  kept : ∀ (j : Nat) (s : ConversationSession), db.sessions.rows[j]? = some s →
    isActiveOf userId s = false → db'.sessions.rows[j]? = some s
  /-- without an active session nothing is billed -/
  unbilled : (∀ s ∈ db.sessions.rows, isActiveOf userId s = false) → db'.users = db.users
  others : ∀ other, other ≠ userId → db'.users.get other = db.users.get other
  quota : ∃ user, db.users.get userId = some user ∧
    0 < remainingMinutes user cfg.freeDaily (date t.checked)

/-- The reap that has exhausted the quota, and nothing else. -/
def ReapCommitted (cfg : Settings) (t : StartClock) (userId : Int) (db db' : Database) : Prop :=
  ∃ user i active, ReapExhausts cfg t userId db user i active ∧
    db' = db.close cfg.turnMeterCap t.now userId i active

/-- What a start that is refused makes of the database: nothing, unless the reap has exhausted the
quota. Then it is the reap. -/
def Refused (cfg : Settings) (t : StartClock) (userId : Int) (db : Database) (e : Raised)
    (db' : Database) : Prop :=
  (db' = db ∧ ∀ user i active, ¬ ReapExhausts cfg t userId db user i active) ∨
    e = .refused .quotaExhausted ∧ ReapCommitted cfg t userId db db'

/-- Why a start is refused; `owned` is what the check of the mission says. -/
def Reason (cfg : Settings) (t : StartClock) (owned : Bool) (userId : Int) (db : Database) :
    Raised → Prop
  | .userNotFound => db.users.get userId = none
  | .refused .quotaExhausted => ∃ user, db.users.get userId = some user ∧
      (remainingMinutes user cfg.freeDaily (date t.checked) ≤ 0 ∨
        ∃ i active, ReapExhausts cfg t userId db user i active)
  | .refused .activeSessionExists => ∃ i active, db.getActive userId = some (i, active) ∧
      isStale active.lastActivityAt t.now cfg.inactivityTimeout = false
  | .refused .missionNotFound => owned = false

section outcome

variable {cfg : Settings} {t : StartClock} {userId : Int} {db db' : Database} {user : User}
  {i : Nat} {active : ConversationSession}

/-- There is one session to reap. -/
theorem Reapable.eq {user' : User} {i' : Nat} {active' : ConversationSession}
    (h : Reapable cfg t userId db user i active) (h' : Reapable cfg t userId db user' i' active') :
    user' = user ∧ i' = i ∧ active' = active := by
  have hfound := Option.some.inj (h'.found.symm.trans h.found)
  exact ⟨Option.some.inj (h'.locked.symm.trans h.locked), congrArg Prod.fst hfound,
    congrArg Prod.snd hfound⟩

/-- Among rows that are not active the new one is the only active one. -/
theorem onlyActive_append {rows : List ConversationSession}
    (h : ∀ s ∈ rows, isActiveOf userId s = false) {new : ConversationSession} {j : Nat}
    {s : ConversationSession} (hj : (rows ++ [new])[j]? = some s)
    (hs : isActiveOf userId s = true) : j = rows.length := by
  by_contra hne
  have hlt : j < (rows ++ [new]).length := (List.getElem?_eq_some_iff.mp hj).1
  rw [List.length_append, List.length_singleton] at hlt
  rw [List.getElem?_append_left (by omega)] at hj
  rw [h s (List.mem_of_getElem? hj)] at hs
  cases hs

/-- A start without an active session. -/
theorem started_fresh (huser : db.users.get userId = some user)
    (hquota : 0 < remainingMinutes user cfg.freeDaily (date t.checked))
    (hnone : db.getActive userId = none)
    (hinsert : db.insertSession (newSession t userId) = some db') :
    Started cfg t userId db db' db.sessions.rows.length := by
  obtain ⟨husers, hrows⟩ := insertSession_some hinsert
  have hinactive := getActive_none hnone
  refine ⟨?_, List.getElem?_eq_none le_rfl, fun j s hj hs => ?_, fun j s hj hs => ?_,
    fun j s hj _ => ?_, fun _ => husers, fun other _ => by rw [husers], user, huser, hquota⟩
  · rw [hrows]
    exact List.getElem?_concat_length
  · rw [hrows] at hj
    exact onlyActive_append hinactive hj hs
  · rw [hinactive s (List.mem_of_getElem? hj)] at hs
    cases hs
  · rw [hrows, List.getElem?_append_left (List.getElem?_eq_some_iff.mp hj).1, hj]

/-- A start behind the reap of an abandoned session. -/
theorem started_reaped (hreap : Reapable cfg t userId db user i active)
    (hleft : 0 < remainingMinutes (closeUser cfg.turnMeterCap active user t.now) cfg.freeDaily
      (date t.now))
    (hinsert : (db.close cfg.turnMeterCap t.now userId i active).insertSession
      (newSession t userId) = some db') :
    Started cfg t userId db db' db.sessions.rows.length := by
  obtain ⟨husers, hrows⟩ := insertSession_some hinsert
  obtain ⟨hrow, hactive⟩ := getActive_some hreap.found
  have hinactive := close_inactive cfg.turnMeterCap t.now hreap.found
  have hlength : (db.close cfg.turnMeterCap t.now userId i active).sessions.rows.length =
      db.sessions.rows.length := length_close ..
  -- a row of the old table is where it was, behind the reap
  have hold : ∀ j, j < db.sessions.rows.length → db'.sessions.rows[j]? =
      (db.close cfg.turnMeterCap t.now userId i active).sessions.rows[j]? := fun j hj => by
    rw [hrows, List.getElem?_append_left (by rwa [hlength])]
  refine ⟨?_, List.getElem?_eq_none le_rfl, fun j s hj hs => ?_, fun j s hj hs => ?_,
    fun j s hj hs => ?_, fun hnone => ?_, fun other hother => ?_, user, hreap.locked, hreap.allowed⟩
  · rw [hrows, ← hlength]
    exact List.getElem?_concat_length
  · rw [hrows] at hj
    rw [← hlength]
    exact onlyActive_append hinactive hj hs
  · obtain rfl := PartialTable.place_eq hj hrow hs hactive
    obtain rfl := Option.some.inj (hrow.symm.trans hj)
    refine ⟨hreap.stale, ?_, user, hreap.locked, ?_, hleft⟩
    · rw [hold j (List.getElem?_eq_some_iff.mp hj).1]
      exact close_row_self _ _ hrow
    · rw [husers]
      exact close_user_self _ _ hreap.locked
  · have hne : j ≠ i := by
      rintro rfl
      rw [Option.some.inj (hrow.symm.trans hj), hs] at hactive
      cases hactive
    rw [hold j (List.getElem?_eq_some_iff.mp hj).1, close_row_other _ _ hne, hj]
  · rw [hnone active (List.mem_of_getElem? hrow)] at hactive
    cases hactive
  · rw [husers, close_user_other _ _ hother]

end outcome

/-! ## The exits of `start` -/

/-- Whether the check of the mission passes. -/
def missionOwned (missions : Option (Int → Int → Bool)) (missionId : Option Int) (userId : Int) :
    Bool :=
  match missionId, missions with
  | none, _ => true
  | some _, none => false
  | some missionId, some getOwned => getOwned missionId userId

/-- The user row and the tables with which a start passes the quota checks and the reaper. -/
inductive Cleared (cfg : Settings) (t : StartClock) (userId : Int) (db : Database) :
    User → Database → Prop where
  | idle {user : User} (huser : db.users.get userId = some user)
      (hquota : 0 < remainingMinutes user cfg.freeDaily (date t.checked))
      (hnone : db.getActive userId = none) : Cleared cfg t userId db user db
  | reaped {user : User} {i : Nat} {active : ConversationSession}
      (hreap : Reapable cfg t userId db user i active)
      (hleft : 0 < remainingMinutes (closeUser cfg.turnMeterCap active user t.now) cfg.freeDaily
        (date t.now)) :
      Cleared cfg t userId db (closeUser cfg.turnMeterCap active user t.now)
        (db.close cfg.turnMeterCap t.now userId i active)

/-- The index never refuses the insert of a start: the user is left without an active session. -/
theorem insertSession_of_cleared {cfg : Settings} {t : StartClock} {userId : Int}
    {db staged : Database} {user : User} (h : Cleared cfg t userId db user staged) :
    ∃ db', staged.insertSession (newSession t userId) = some db' := by
  have hinactive : ∀ s ∈ staged.sessions.rows, isActiveOf userId s = false := by
    cases h with
    | idle huser hquota hnone => exact getActive_none hnone
    | reaped hreap hleft => exact close_inactive _ _ hreap.found
  obtain ⟨sessions, hinsert⟩ := PartialTable.insert_of_absent (r := newSession t userId) hinactive
  exact ⟨_, Option.map_eq_some_iff.mpr ⟨sessions, hinsert, rfl⟩⟩

/-- What a start has staged when it reaches its commit, and how it ends behind it. -/
inductive Commits (cfg : Settings) (t : StartClock) (owned : Bool) (userId : Int) (db : Database) :
    Except (Fault Raised) Nat → Database → Prop where
  | created {user : User} {staged db' : Database} (h : Cleared cfg t userId db user staged)
      (howned : owned = true)
      (hinsert : staged.insertSession (newSession t userId) = some db') :
      Commits cfg t owned userId db (.ok staged.sessions.rows.length) db'
  | exhausted {user : User} {i : Nat} {active : ConversationSession}
      (h : ReapExhausts cfg t userId db user i active) :
      Commits cfg t owned userId db (.error (.code (.refused .quotaExhausted)))
        (db.close cfg.turnMeterCap t.now userId i active)

/-- How a start ends, and what it leaves committed. -/
inductive Exit (cfg : Settings) (t : StartClock) (a : Answers) (owned : Bool) (userId : Int)
    (db : Database) : Except (Fault Raised) Nat → Database → Prop where
  | fault (h : ¬ a.AllGiven) : Exit cfg t a owned userId db (.error .database) db
  | noUser (hnone : db.users.get userId = none) :
      Exit cfg t a owned userId db (.error (.code .userNotFound)) db
  | spent {user : User} (huser : db.users.get userId = some user)
      (hspent : remainingMinutes user cfg.freeDaily (date t.checked) ≤ 0) :
      Exit cfg t a owned userId db (.error (.code (.refused .quotaExhausted))) db
  | inProgress {user : User} {i : Nat} {active : ConversationSession}
      (huser : db.users.get userId = some user)
      (hquota : 0 < remainingMinutes user cfg.freeDaily (date t.checked))
      (hfound : db.getActive userId = some (i, active))
      (hrecent : isStale active.lastActivityAt t.now cfg.inactivityTimeout = false) :
      Exit cfg t a owned userId db (.error (.code (.refused .activeSessionExists))) db
  | noMission {user : User} {staged : Database} (h : Cleared cfg t userId db user staged)
      (howned : owned = false) :
      Exit cfg t a owned userId db (.error (.code (.refused .missionNotFound))) db
  | committed {r : Except (Fault Raised) Nat} {db' : Database}
      (h : Commits cfg t owned userId db r db') (hdone : a.commit = .done) :
      Exit cfg t a owned userId db r db'
  /-- the commit was applied, and its answer was lost -/
  | lost {r : Except (Fault Raised) Nat} {db' : Database} (h : Commits cfg t owned userId db r db')
      (hlost : a.commit = .failed true) : Exit cfg t a owned userId db (.error .database) db'

section exits

variable (cfg : Settings) (t : StartClock) (missions : Option (Int → Int → Bool)) (a : Answers)
  (userId : Int) (missionId : Option Int)

/-- The check of the mission only reads. -/
theorem checkMission_post {w : Uow Database} (h : w.tx = .active) :
    Work.Post (fun _ w' => w' = w ∧ missionOwned missions missionId userId = true)
      (fun e w' => w'.committed = w.committed ∧ (e = .database ∧ a.mission = false ∨
        e = .code (.refused .missionNotFound) ∧ missionOwned missions missionId userId = false))
      (checkMission missions a missionId userId) w := by
  cases missionId with
  | none => exact .pure ⟨rfl, rfl⟩
  | some missionId =>
    refine .bind ?_
    cases missions with
    | none => exact .pure (.raise ⟨rfl, .inr ⟨rfl, rfl⟩⟩)
    | some getOwned =>
      show Work.Post _ _ (Work.read a.mission fun _ => getOwned missionId userId) w
      refine .read_answer h (fun hfailed => ⟨rfl, .inl ⟨rfl, hfailed⟩⟩) fun _ => ?_
      cases howned : getOwned missionId userId with
      | false => exact .raise ⟨rfl, .inr ⟨rfl, howned⟩⟩
      | true => exact .pure ⟨rfl, howned⟩

/-- The commit of a start leaves what was staged, or what was there. -/
theorem commit_exit {db : Database} {owned : Bool} {r : Except (Fault Raised) Nat}
    {w : Uow Database} (h : Commits cfg t owned userId db r w.staged) (htx : w.tx = .active)
    (hdb : w.committed = db) :
    Work.Post (fun _ w' => Exit cfg t a owned userId db r w'.committed)
      (fun e w' => Exit cfg t a owned userId db (.error e) w'.committed) (Work.commit a.commit)
      w := by
  refine .commit htx (fun applied hfailed => ?_) fun hdone => .committed h hdone
  cases applied with
  | false =>
    show Exit cfg t a owned userId db (.error .database) w.committed
    rw [hdb]
    exact .fault fun hall => by simp only [hall.commit, reduceCtorEq] at hfailed
  | true => exact .lost h hfailed

/-- Behind the reaper a start creates the session, or leaves the database alone. -/
theorem exit_of_cleared {db : Database} {user : User} {w : Uow Database}
    (hcleared : Cleared cfg t userId db user w.staged) (htx : w.tx = .active)
    (hdb : w.committed = db) :
    Work.Post
      (fun id w' => Exit cfg t a (missionOwned missions missionId userId) userId db (.ok id)
        w'.committed)
      (fun e w' => Exit cfg t a (missionOwned missions missionId userId) userId db (.error e)
        w'.committed)
      (create t missions a userId missionId) w := by
  refine .bind ((checkMission_post missions a userId missionId htx).mono ?_ ?_)
  · rintro - w ⟨rfl, howned⟩
    obtain ⟨db', hinsert⟩ := insertSession_of_cleared hcleared
    have hlength : w.staged.sessions.rows.length = db'.sessions.rows.length - 1 := by
      rw [(insertSession_some hinsert).2, List.length_append, List.length_singleton,
        Nat.add_sub_cancel]
    refine .bind (.bind (.tryWrite_answer htx ?_ fun hadd staged hstaged => ?_))
    · rintro (hfailed | hnone)
      · exact hdb ▸ .fault fun hall => by simp only [hall.add, reduceCtorEq] at hfailed
      · rw [hinsert] at hnone
        cases hnone
    obtain rfl := Option.some.inj (hinsert.symm.trans hstaged)
    refine .read_answer htx (fun hfailed => ?_) fun _ => ?_
    · exact hdb ▸ .fault fun hall => by simp only [hall.refresh, reduceCtorEq] at hfailed
    refine .bind (.mono (commit_exit cfg t a userId (.created hcleared howned hinsert) htx hdb)
      (fun _ w' h => .pure ?_) fun _ _ h => h)
    show Exit cfg t a _ userId db (.ok (db'.sessions.rows.length - 1)) w'.committed
    rwa [← hlength]
  · rintro e w' ⟨hw, ⟨rfl, hfailed⟩ | ⟨rfl, howned⟩⟩
    · rw [hw, hdb]
      exact .fault fun hall => by simp only [hall.mission, reduceCtorEq] at hfailed
    · rw [hw, hdb]
      exact .noMission hcleared howned

theorem start_post (db : Database) :
    Work.Post
      (fun id w => Exit cfg t a (missionOwned missions missionId userId) userId db (.ok id)
        w.committed)
      (fun e w => Exit cfg t a (missionOwned missions missionId userId) userId db (.error e)
        w.committed)
      (start cfg t missions a userId missionId) (Work.opened db) := by
  refine .bind (.read_answer rfl (fun hfailed => .fault fun hall => ?_) fun _ => ?_)
  · simp only [hall.lock, reduceCtorEq] at hfailed
  show Work.Post _ _ (match db.users.get userId with | none => _ | some user => _) _
  cases huser : db.users.get userId with
  | none => exact .raise (.noUser huser)
  | some user =>
    refine .bind ?_
    rw [requireQuota]
    split_ifs with hspent
    · exact .raise (.spent huser hspent)
    have hquota := not_le.mp hspent
    refine .pure (.bind (.read_answer rfl (fun hfailed => .fault fun hall => ?_) fun _ => ?_))
    · simp only [hall.active, reduceCtorEq] at hfailed
    show Work.Post _ _ (reapAbandoned cfg t a user (db.getActive userId) >>= _) _
    cases hactive : db.getActive userId with
    | none =>
      exact .bind (.pure (exit_of_cleared _ _ _ _ _ _ (.idle huser hquota hactive) rfl rfl))
    | some found =>
      obtain ⟨i, active⟩ := found
      obtain rfl : user.id = userId := Table.key_of_get huser
      refine .bind ?_
      rw [reapAbandoned]
      split_ifs with hstale
      · have hreap : Reapable cfg t user.id db user i active := ⟨huser, hquota, hactive, hstale⟩
        refine .bind (.stage ?_)
        show Work.Post _ _ (if _ then _ else _) _
        split_ifs with hexhausted
        · have hcommits : Commits cfg t (missionOwned missions missionId user.id) user.id db _ _ :=
            .exhausted ⟨hreap, hexhausted⟩
          exact .bind (.mono (commit_exit cfg t a user.id hcommits rfl rfl)
            (fun _ _ h => .raise h) fun _ _ h => h)
        · exact .pure (exit_of_cleared _ _ _ _ _ _ (.reaped hreap (not_le.mp hexhausted)) rfl rfl)
      · exact .raise (.inProgress huser hquota hactive (Bool.eq_false_iff.mpr hstale))

end exits

/-- The rows of the locked section, which has the rows in memory only, are those of the exit. -/
structure AgreesWith (userId : Int) (db db' : Database) (r : Except (Fault Raised) Nat)
    (user : User) (outcome : StartOutcome) : Prop where
  result : r = outcome.result.mapError fun e => .code (.refused e)
  sessions : db'.sessions.rows = (outcome.committed.map (·.2)).getD db.sessions.rows
  user : db'.users.get userId = some ((outcome.committed.map (·.1)).getD user)

/-- Where a start is cleared the locked section goes on to open the session. -/
theorem section_of_cleared {cfg : Settings} {t : StartClock} {owned : Bool} {userId : Int}
    {db staged : Database} {user : User} (h : Cleared cfg t userId db user staged) :
    ∃ loaded, db.users.get userId = some loaded ∧ staged.users.get userId = some user ∧
      Sessions.start cfg t owned loaded db.sessions.rows =
        openSession t owned user staged.sessions.rows := by
  cases h with
  | idle huser hquota hnone =>
    have hid := Table.key_of_get huser
    refine ⟨_, huser, huser, ?_⟩
    rw [Sessions.start, if_neg hquota.not_ge, hid, getActive_eq_none hnone]
  | reaped hreap hleft =>
    have hid := Table.key_of_get hreap.locked
    obtain ⟨hfound, hrow⟩ := getActive_eq_some hreap.found
    refine ⟨_, hreap.locked, close_user_self _ _ hreap.locked, ?_⟩
    rw [Sessions.start, if_neg hreap.allowed.not_ge, hid, hfound]
    simp only [hrow, hreap.stale, if_true, if_neg hleft.not_ge]
    rfl

theorem section_of_commits {cfg : Settings} {t : StartClock} {owned : Bool} {userId : Int}
    {db db' : Database} {r : Except (Fault Raised) Nat} (h : Commits cfg t owned userId db r db')
    {user : User} (huser : db.users.get userId = some user) :
    AgreesWith userId db db' r user (Sessions.start cfg t owned user db.sessions.rows) := by
  cases h with
  | created hcleared howned hinsert =>
    obtain ⟨loaded, hloaded, hstaged, hsection⟩ := section_of_cleared hcleared
    obtain rfl := Option.some.inj (huser.symm.trans hloaded)
    obtain ⟨husers, hrows⟩ := insertSession_some hinsert
    rw [hsection, howned]
    refine ⟨rfl, ?_, by rw [husers, hstaged]; rfl⟩
    rw [hrows, newSession, ← Table.key_of_get hstaged]
    rfl
  | exhausted hreap =>
    obtain rfl := Option.some.inj (huser.symm.trans hreap.locked)
    obtain ⟨hplace, hrow⟩ := getActive_eq_some hreap.found
    rw [Sessions.start, if_neg hreap.allowed.not_ge, Table.key_of_get huser, hplace]
    simp only [hrow, hreap.stale, if_true, if_pos hreap.exhausted]
    exact ⟨rfl, rfl, close_user_self _ _ huser⟩

/-- Unless a statement fails, a start with a user row is the locked section on its rows. -/
theorem section_of_exit {cfg : Settings} {t : StartClock} {a : Answers} {owned : Bool}
    {userId : Int} {db db' : Database} {r : Except (Fault Raised) Nat}
    (h : Exit cfg t a owned userId db r db') (hfault : r ≠ .error .database) {user : User}
    (huser : db.users.get userId = some user) :
    AgreesWith userId db db' r user (Sessions.start cfg t owned user db.sessions.rows) := by
  have hid := Table.key_of_get huser
  cases h with
  | fault => exact absurd rfl hfault
  | noUser hnone =>
    rw [huser] at hnone
    cases hnone
  | spent hother hspent =>
    obtain rfl := Option.some.inj (huser.symm.trans hother)
    rw [Sessions.start, if_pos hspent]
    exact ⟨rfl, rfl, huser⟩
  | inProgress hother hquota hfound hrecent =>
    obtain rfl := Option.some.inj (huser.symm.trans hother)
    obtain ⟨hplace, hrow⟩ := getActive_eq_some hfound
    rw [Sessions.start, if_neg hquota.not_ge, hid, hplace]
    simp only [hrow, hrecent, Bool.false_eq_true, if_false]
    exact ⟨rfl, rfl, huser⟩
  | noMission hcleared howned =>
    obtain ⟨loaded, hloaded, -, hsection⟩ := section_of_cleared hcleared
    obtain rfl := Option.some.inj (huser.symm.trans hloaded)
    rw [hsection, howned]
    exact ⟨rfl, rfl, huser⟩
  | committed hcommits => exact section_of_commits hcommits huser
  | lost => exact absurd rfl hfault

/-- So the program refines the section that the modules on interleavings run under the lock. -/
theorem start_section {cfg : Settings} {t : StartClock} {missions : Option (Int → Int → Bool)}
    {a : Answers} {userId : Int} {missionId : Option Int} {db : Database}
    {r : Except (Fault Raised) Nat} {w : Uow Database}
    (h : start cfg t missions a userId missionId (Work.opened db) = (r, w))
    (hfault : r ≠ .error .database) {user : User} (huser : db.users.get userId = some user) :
    AgreesWith userId db w.committed r user
      (Sessions.start cfg t (missionOwned missions missionId userId) user db.sessions.rows) := by
  have hpost := start_post cfg t missions a userId missionId db
  cases r with
  | ok id => exact section_of_exit (hpost.of_ok h) hfault huser
  | error e => exact section_of_exit (hpost.of_error h) hfault huser

theorem started_of_commits {cfg : Settings} {t : StartClock} {owned : Bool} {userId : Int}
    {db db' : Database} {id : Nat} (h : Commits cfg t owned userId db (.ok id) db') :
    Started cfg t userId db db' id := by
  obtain ⟨hcleared, -, hinsert⟩ := h
  cases hcleared with
  | idle huser hquota hnone => exact started_fresh huser hquota hnone hinsert
  | reaped hreap hleft =>
    rw [length_close]
    exact started_reaped hreap hleft hinsert

section refusals

variable {cfg : Settings} {t : StartClock} {a : Answers} {owned : Bool} {userId : Int}
  {db db' : Database}

theorem refused_of_exit {e : Raised} (h : Exit cfg t a owned userId db (.error (.code e)) db') :
    Refused cfg t userId db e db' := by
  cases h with
  | noUser hnone =>
    refine .inl ⟨rfl, fun user i active hreap => ?_⟩
    rw [hreap.locked] at hnone
    cases hnone
  | spent huser hspent =>
    refine .inl ⟨rfl, fun user i active hreap => ?_⟩
    rw [← Option.some.inj (hreap.locked.symm.trans huser)] at hspent
    exact hreap.allowed.not_ge hspent
  | inProgress huser hquota hfound hrecent =>
    refine .inl ⟨rfl, fun user i active hreap => ?_⟩
    obtain ⟨-, rfl⟩ := Prod.mk.inj (Option.some.inj (hfound.symm.trans hreap.found))
    rw [hreap.stale] at hrecent
    cases hrecent
  | noMission hcleared howned =>
    refine .inl ⟨rfl, fun user i active hreap => ?_⟩
    cases hcleared with
    | idle huser hquota hnone =>
      rw [hreap.found] at hnone
      cases hnone
    | reaped hother hleft =>
      obtain ⟨rfl, rfl, rfl⟩ := hother.eq hreap.toReapable
      exact hleft.not_ge hreap.exhausted
  | committed hcommits =>
    obtain _ | hexhausts := hcommits
    exact .inr ⟨rfl, _, _, _, hexhausts, rfl⟩

theorem reason_of_exit {e : Raised} (h : Exit cfg t a owned userId db (.error (.code e)) db') :
    Reason cfg t owned userId db e := by
  cases h with
  | noUser hnone => exact hnone
  | spent huser hspent => exact ⟨_, huser, .inl hspent⟩
  | inProgress huser hquota hfound hrecent => exact ⟨_, _, hfound, hrecent⟩
  | noMission hcleared howned => exact howned
  | committed hcommits =>
    obtain _ | hexhausts := hcommits
    exact ⟨_, hexhausts.locked, .inr ⟨_, _, hexhausts⟩⟩

/-- A start that raises because the database failed. -/
theorem broken_of_exit (h : Exit cfg t a owned userId db (.error .database) db') :
    (db' = db ∧ ¬ a.AllGiven) ∨ a.commit = .failed true ∧
      ((∃ id, Started cfg t userId db db' id) ∨ ReapCommitted cfg t userId db db') := by
  cases h with
  | fault hfailed => exact .inl ⟨rfl, hfailed⟩
  | committed hcommits => cases hcommits
  | lost hcommits hlost =>
    refine .inr ⟨hlost, ?_⟩
    cases hcommits with
    | created hcleared howned hinsert =>
      exact .inl ⟨_, started_of_commits (.created hcleared howned hinsert)⟩
    | exhausted hexhausts => exact .inr ⟨_, _, _, hexhausts, rfl⟩

end refusals

/-- **A start succeeds with one active session, or is refused and leaves the database alone.** The
exception is the reap that exhausts the quota: it is committed, and the start is refused. Behind a
commit that was applied and whose answer is lost the start has failed, and what it staged stands. -/
theorem start_outcome (cfg : Settings) (t : StartClock) (missions : Option (Int → Int → Bool))
    (a : Answers) (userId : Int) (missionId : Option Int) (db : Database) :
    (∀ id w, start cfg t missions a userId missionId (Work.opened db) = (.ok id, w) →
      Started cfg t userId db w.committed id) ∧
    (∀ e w, start cfg t missions a userId missionId (Work.opened db) = (.error (.code e), w) →
      Refused cfg t userId db e w.committed ∧
        Reason cfg t (missionOwned missions missionId userId) userId db e) ∧
    ∀ w, start cfg t missions a userId missionId (Work.opened db) = (.error .database, w) →
      (w.committed = db ∧ ¬ a.AllGiven) ∨ a.commit = .failed true ∧
        ((∃ id, Started cfg t userId db w.committed id) ∨
          ReapCommitted cfg t userId db w.committed) := by
  have hpost := start_post cfg t missions a userId missionId db
  refine ⟨fun id w h => ?_, fun e w h => ?_, fun w h => broken_of_exit (hpost.of_error h)⟩
  · obtain _ | _ | _ | _ | _ | ⟨hcommits, -⟩ := hpost.of_ok h
    exact started_of_commits hcommits
  · exact ⟨refused_of_exit (hpost.of_error h), reason_of_exit (hpost.of_error h)⟩

/-- A learner who has spent nothing and has no session. -/
def lonely : Database where
  users := ⟨[⟨1, tierFree, none, 0, 0, 0, none⟩], List.nodup_singleton _⟩
  sessions := ⟨[], fun _ => Nat.zero_le 1⟩

/-- The commit of the new session is applied and its answer lost: the start raises, the reaper has
closed nothing, and the session is there. -/
theorem lost_commit_leaves_session :
    let run := start shipped ⟨0, 0, 0, 0⟩ none ⟨true, true, true, true, true, .failed true⟩ 1 none
      (Work.opened lonely)
    run.1 = .error .database ∧ lonely.sessions.rows = [] ∧
      run.2.committed.sessions.rows = [newSession ⟨0, 0, 0, 0⟩ 1] ∧
      ∀ user i active, ¬ ReapExhausts shipped ⟨0, 0, 0, 0⟩ 1 lonely user i active := by
  refine ⟨by decide +kernel, rfl, by decide +kernel, fun user i active hreap => ?_⟩
  cases hreap.found

end Apm.Sessions.Start
