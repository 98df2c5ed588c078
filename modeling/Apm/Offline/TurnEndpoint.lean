import Apm.Idempotency.Repository
import Apm.Offline.OfflineTurnSync

/-!
# The turn endpoint for one learner at a time

`/turn` as a function of the rows it finds, with no other turn beside it and an LLM
that replies: the refusals before the handler, `run_once` over the key, the turn lock
of the session, `_prepare` and the save of the transcript. The database takes neither
a key that is too long nor a session id that is no INTEGER nor a transcript with a NUL;
its errors reach no handler but the last. What the endpoint leaves in the idempotency
table is stated once, and so is what it answers.
-/

namespace Apm.Offline

open Apm.Core Apm.Idempotency

set_option autoImplicit false

structure ConversationSession where
  userId : Int
  ended : Bool
  deriving DecidableEq, Repr

structure Server where
  table : Table
  sessions : Int → Option ConversationSession

structure Setup where
  /-- the signed-in learner -/
  userId : Int
  /-- `complete` -/
  llm : PendingTurn → String

/-- What refuses a request before the endpoint handles the turn. -/
inductive Gate where
  | payloadTooLarge
  | authentication
  | rateLimited
  deriving DecidableEq, Repr

def Gate.exception : Gate → ApiException
  | .payloadTooLarge => errorResponse .payloadTooLarge "Request body too large"
  | .authentication => errorResponse .authentication "Not authenticated"
  | .rateLimited => errorResponse .rateLimited "Too many attempts, please retry later"

/-- `TurnIn`: `Field(min_length=1, max_length=2000)`. -/
def validText (text : String) : Bool := 1 ≤ text.length && text.length ≤ 2000

/-- The exception of `_prepare`, if it raises. -/
def prepare (S : Setup) (w : Server) (t : PendingTurn) : Option ApiException :=
  match w.sessions t.sessionId with
  | none => some (errorResponse .notFound "Session not found")
  | some session =>
    if session.userId ≠ S.userId then some (errorResponse .notFound "Session not found")
    else if session.ended then some (errorResponse .conflict "Session already ended")
    else none

/-- What `_unhandled_exception_handler` answers: the driver's refusals reach SQLAlchemy as
neither a `DataError` nor an `IntegrityError`. -/
def internalError : ApiException := errorResponse .unhandled "Internal server error"

/-- The value of an `INTEGER` column. -/
def validId (id : Int) : Bool := -2 ^ 31 ≤ id && id < 2 ^ 31

/-- `String(80)`, the column of the key. -/
def validKey (key : String) : Bool := key.length ≤ 80

/-- JSONB refuses a text with U+0000. -/
def storable (text : String) : Bool := text.toList.all fun c => c ≠ Char.ofNat 0

/-- `ConversationTurnService.take_turn`: the reply, or the exception. -/
def turnResult (S : Setup) (w : Server) (t : PendingTurn) : Answer :=
  if validId t.sessionId then
    match prepare S w t with
    | some e => .error e
    | none =>
      -- the save of the transcript, with the text and the reply appended to it
      if storable t.text && storable (S.llm t) then .ok (S.llm t) else .error internalError
  else .error internalError

def Setup.keyRef (S : Setup) (t : PendingTurn) : Ref := (S.userId, t.idempotencyKey)

def Setup.lockRef (S : Setup) (t : PendingTurn) : Ref := (S.userId, turnLockKey t.sessionId)

/-- `_process`: the turn under its lock. -/
def process (S : Setup) (w : Server) (now : Instant) (t : PendingTurn) : Answer × Table :=
  match claim w.table (S.lockRef t) (now - staleClaim) now with
  | none =>
    (.error (errorResponse .conflict "A turn is already in progress for this session"), w.table)
  | some table =>
    (turnResult S w t, release table (S.lockRef t))

/-- `run_once`. -/
def runOnce (S : Setup) (w : Server) (now : Instant) (t : PendingTurn) : Answer × Table :=
  if t.idempotencyKey = "" then process S w now t
  else
    match (lookup w.table (S.keyRef t)).2 with
    | some response => (.ok response, w.table)
    | none =>
      if validKey t.idempotencyKey then
        match claim w.table (S.keyRef t) (now - staleClaim) now with
        | none => (.error (errorResponse .conflict
            "This request is already being processed; retry shortly"), w.table)
        | some table =>
          match process S { w with table := table } now t with
          | (.ok reply, table) => (.ok reply, complete table (S.keyRef t) reply)
          | (.error e, table) => (.error e, release table (S.keyRef t))
      else (.error internalError, w.table)

/-- `take_turn`. -/
def takeTurn (S : Setup) (w : Server) (gate : Option Gate) (now : Instant) (t : PendingTurn) :
    Answer × Server :=
  match gate with
  | some g => (.error g.exception, w)
  | none =>
    if validText t.text then
      match runOnce S w now t with
      | (answer, table) => (answer, { w with table := table })
    else (.error (errorResponse .requestValidation "text"), w)

/-- The turn is completed under its key. -/
def Completed (S : Setup) (w : Server) (t : PendingTurn) : Prop :=
  t.idempotencyKey ≠ "" ∧ ∃ response, (lookup w.table (S.keyRef t)).2 = some response

/-- The session of the turn is the learner's. -/
def Owned (S : Setup) (w : Server) (t : PendingTurn) (ended : Bool) : Prop :=
  ∃ session, w.sessions t.sessionId = some session ∧ session.userId = S.userId ∧
    session.ended = ended

/-- What keeps a turn refused: its session is the learner's and has ended, or the database
takes neither the id of the session nor the transcript with the turn. -/
inductive Held (S : Setup) (w : Server) (t : PendingTurn) : Prop where
  | sessionId (h : validId t.sessionId = false)
  | ended (h : Owned S w t true)
  | transcript (h : Owned S w t false) (hrefused : (storable t.text && storable (S.llm t)) = false)

/-- The turn is refused for as long as its session stays as it is, and no reply is cached
for it. -/
structure Blocked (S : Setup) (w : Server) (t : PendingTurn) : Prop where
  valid : validText t.text = true
  held : validKey t.idempotencyKey = false ∨ Held S w t
  fresh : ¬Completed S w t

/-- The keys of the turns and those of the turn locks do not meet: a client's keys are
not in the namespace of the locks, and no reply is cached under a lock. -/
structure Namespaced (S : Setup) (table : Table) (t : PendingTurn) : Prop where
  key : ∀ sessionId, t.idempotencyKey ≠ turnLockKey sessionId
  lock : ∀ sessionId row, table (S.userId, turnLockKey sessionId) = some row → row.response = none

/-- What an attempt leaves in the table: completed rows stay, a pending row was there
before, and a new completed row is that of the key. -/
structure Tidy (table table' : Table) (key : Ref) : Prop where
  completed : ∀ r row, table r = some row → row.response ≠ none → table' r = some row
  pending : ∀ r row, table' r = some row → row.response = none → table r = some row
  others : ∀ r row, r ≠ key → table' r = some row → table r = some row

theorem Tidy.refl (table : Table) (key : Ref) : Tidy table table key :=
  ⟨fun _ _ h _ => h, fun _ _ h _ => h, fun _ _ _ h => h⟩

/-- A claim that is released again. -/
theorem tidy_release {table claimed : Table} {r : Ref} {staleBefore now : Instant} (key : Ref)
    (hclaim : claim table r staleBefore now = some claimed) :
    Tidy table (release claimed r) key := by
  obtain ⟨rfl, hold⟩ := claim_eq_some hclaim
  have hself : release (Function.update table r (some ⟨none, now⟩)) r r = none := release_self ..
  have hother : ∀ r', r' ≠ r →
      release (Function.update table r (some ⟨none, now⟩)) r r' = table r' := fun r' hne => by
    rw [release_other _ hne, Function.update_of_ne hne]
  have hback : ∀ r' row, release (Function.update table r (some ⟨none, now⟩)) r r' = some row →
      table r' = some row := fun r' row hrow => by
    by_cases hr : r' = r
    · rw [hr, hself] at hrow
      cases hrow
    · rwa [hother r' hr] at hrow
  refine ⟨fun r' row hrow hdone => ?_, fun r' row hrow _ => hback r' row hrow,
    fun r' row _ hrow => hback r' row hrow⟩
  by_cases hr : r' = r
  · subst hr
    rcases hold with habsent | ⟨t, ht, -⟩
    · rw [habsent] at hrow
      cases hrow
    · rw [ht] at hrow
      cases hrow
      exact absurd rfl hdone
  · rw [hother r' hr]
    exact hrow

section endpoint

variable {S : Setup} {w : Server} {now : Instant} {t : PendingTurn}

/-- What keeps a turn refused is a matter of the sessions only. -/
theorem Held.sessions {w' : Server} (h : Held S w t) (hsame : w'.sessions = w.sessions) :
    Held S w' t := by
  have howned : ∀ ended, Owned S w t ended → Owned S w' t ended := fun ended => by
    rw [Owned, Owned, hsame]
    exact id
  cases h with
  | sessionId h => exact .sessionId h
  | ended h => exact .ended (howned _ h)
  | transcript h hrefused => exact .transcript (howned _ h) hrefused

theorem Held.table (h : Held S w t) (table : Table) : Held S { w with table := table } t :=
  h.sessions rfl

theorem process_tidy (key : Ref) : Tidy w.table (process S w now t).2 key := by
  unfold process
  split
  · exact .refl _ _
  · rename_i claimed hclaim
    exact tidy_release key hclaim

/-- The turn touches the row of its lock only. -/
theorem process_other {r : Ref} (h : r ≠ S.lockRef t) : (process S w now t).2 r = w.table r := by
  unfold process
  split
  · rfl
  · rename_i claimed hclaim
    obtain ⟨rfl, -⟩ := claim_eq_some hclaim
    exact (release_other _ h).trans (Function.update_of_ne h ..)

/-- A claim of the key that is completed or released after the turn. -/
theorem tidy_finalised {table claimed after table' : Table} {key : Ref} {staleBefore : Instant}
    (hclaim : claim table key staleBefore now = some claimed) (htidy : Tidy claimed after key)
    (hother : ∀ r, r ≠ key → table' r = after r)
    (hself : ∀ row, table' key = some row → row.response ≠ none) : Tidy table table' key := by
  obtain ⟨rfl, hold⟩ := claim_eq_some hclaim
  refine ⟨fun r row hrow hdone => ?_, fun r row hrow hpending => ?_, fun r row hr hrow => ?_⟩
  · by_cases hr : r = key
    · subst hr
      rcases hold with habsent | ⟨u, hu, -⟩
      · rw [habsent] at hrow
        cases hrow
      · rw [hu] at hrow
        cases hrow
        exact absurd rfl hdone
    · rw [hother r hr]
      exact htidy.completed r row (by rwa [Function.update_of_ne hr]) hdone
  · by_cases hr : r = key
    · subst hr
      exact absurd hpending (hself row hrow)
    · rw [hother r hr] at hrow
      have hclaimed := htidy.pending r row hrow hpending
      rwa [Function.update_of_ne hr] at hclaimed
  · rw [hother r hr] at hrow
    have hclaimed := htidy.others r row hr hrow
    rwa [Function.update_of_ne hr] at hclaimed

theorem runOnce_tidy (hn : Namespaced S w.table t) :
    Tidy w.table (runOnce S w now t).2 (S.keyRef t) := by
  unfold runOnce
  split
  · exact process_tidy _
  · split
    · exact .refl _ _
    · split
      swap
      · exact .refl _ _
      split
      · exact .refl _ _
      · rename_i claimed hclaim
        have hkey : S.keyRef t ≠ S.lockRef t := fun he => hn.key _ (congrArg Prod.snd he)
        have htidy : Tidy (Server.table { w with table := claimed })
            (process S { w with table := claimed } now t).2 (S.keyRef t) := process_tidy _
        have hpending : (process S { w with table := claimed } now t).2 (S.keyRef t) =
            some ⟨none, now⟩ := by
          rw [process_other hkey]
          obtain ⟨rfl, -⟩ := claim_eq_some hclaim
          exact Function.update_self ..
        split
        · rename_i reply table hprocess
          rw [hprocess] at htidy hpending
          refine tidy_finalised hclaim htidy (fun r hr => complete_other _ _ hr) fun row hrow => ?_
          replace hpending : table (S.keyRef t) = some ⟨none, now⟩ := hpending
          replace hrow : complete table (S.keyRef t) reply (S.keyRef t) = some row := hrow
          rw [complete_self, hpending] at hrow
          cases hrow
          exact nofun
        · rename_i e table hprocess
          rw [hprocess] at htidy
          refine tidy_finalised hclaim htidy (fun r hr => release_other _ hr) fun row hrow => ?_
          replace hrow : release table (S.keyRef t) (S.keyRef t) = some row := hrow
          rw [release_self] at hrow
          cases hrow

theorem takeTurn_tidy (hn : Namespaced S w.table t) (gate : Option Gate) (now : Instant) :
    Tidy w.table (takeTurn S w gate now t).2.table (S.keyRef t) ∧
      (takeTurn S w gate now t).2.sessions = w.sessions := by
  unfold takeTurn
  split
  · exact ⟨.refl _ _, rfl⟩
  · split
    · exact ⟨runOnce_tidy hn, rfl⟩
    · exact ⟨.refl _ _, rfl⟩

/-- The pending rows of the turn are those of requests that were given up. -/
def Late (S : Setup) (table : Table) (now : Instant) (t : PendingTurn) : Prop :=
  ∀ r, r = S.keyRef t ∨ r = S.lockRef t → ∀ row, table r = some row → row.response = none →
    row.createdAt < now - staleClaim

theorem claim_of_stale (now : Instant) {table : Table} {r : Ref} {staleBefore : Instant}
    (h : ∀ row, table r = some row → row.response = none ∧ row.createdAt < staleBefore) :
    ∃ table', claim table r staleBefore now = some table' := by
  unfold claim
  split
  · exact ⟨_, rfl⟩
  · rename_i row hrow
    obtain ⟨hpending, hstale⟩ := h row hrow
    rw [if_pos (by rw [IdempotencyKey.reclaimable, hpending]; simpa using hstale)]
    exact ⟨_, rfl⟩

/-- `_prepare` raises a conflict for an ended session of the learner only. -/
theorem prepare_kept {e : ApiException} (h : prepare S w t = some e) (hkept : retryLater e = true) :
    Owned S w t true := by
  unfold prepare at h
  split at h
  · cases h
    cases hkept
  · rename_i session hsession
    split at h
    · cases h
      cases hkept
    · rename_i howner
      split at h
      · rename_i hended
        exact ⟨session, hsession, not_not.mp howner, hended⟩
      · cases h

theorem prepare_ended (h : Owned S w t true) :
    prepare S w t = some (errorResponse .conflict "Session already ended") := by
  obtain ⟨session, hsession, howner, hended⟩ := h
  rw [prepare, hsession]
  simp only [howner, hended, ne_eq, not_true_eq_false, if_false, if_true]

theorem prepare_eq_none_iff : prepare S w t = none ↔ Owned S w t false := by
  constructor
  · intro h
    unfold prepare at h
    split at h
    · cases h
    · rename_i session hsession
      split_ifs at h with howner hended
      exact ⟨session, hsession, not_not.mp howner, Bool.eq_false_iff.mpr hended⟩
  · rintro ⟨session, hsession, howner, hended⟩
    rw [prepare, hsession]
    simp only [howner, hended, ne_eq, not_true_eq_false, Bool.false_eq_true, if_false]

/-- The service raises what keeps a turn queued exactly for a turn that is held. -/
theorem turnResult_kept_iff :
    (∃ e, turnResult S w t = .error e ∧ retryLater e = true) ↔ Held S w t := by
  constructor
  · rintro ⟨e, h, hkept⟩
    unfold turnResult at h
    split at h
    · split at h
      · rename_i hprepare
        cases h
        exact .ended (prepare_kept hprepare hkept)
      · rename_i hprepare
        split at h
        · cases h
        · rename_i hrefused
          exact .transcript (prepare_eq_none_iff.mp hprepare) (Bool.eq_false_iff.mpr hrefused)
    · rename_i hid
      exact .sessionId (Bool.eq_false_iff.mpr hid)
  · intro h
    unfold turnResult
    by_cases hid : validId t.sessionId = true
    · rw [if_pos hid]
      cases h with
      | sessionId h => exact absurd hid (Bool.eq_false_iff.mp h)
      | ended h =>
        rw [prepare_ended h]
        exact ⟨_, rfl, rfl⟩
      | transcript h hrefused =>
        rw [prepare_eq_none_iff.mpr h, hrefused]
        exact ⟨_, rfl, rfl⟩
    · rw [if_neg hid]
      exact ⟨_, rfl, rfl⟩

/-- Once the turn lock is free, a kept answer is that of a turn that is held. -/
theorem process_kept (hlock : ∀ row, w.table (S.lockRef t) = some row → row.response = none ∧
      row.createdAt < now - staleClaim) {e : ApiException}
    (h : (process S w now t).1 = .error e) (hkept : retryLater e = true) : Held S w t := by
  obtain ⟨claimed, hclaim⟩ := claim_of_stale now hlock
  unfold process at h
  rw [hclaim] at h
  exact turnResult_kept_iff.mp ⟨e, h, hkept⟩

/-- A turn that is held is answered so that it is kept, whether or not its lock is free. -/
theorem process_held (h : Held S w t) (now : Instant) :
    ∃ e, (process S w now t).1 = .error e ∧ retryLater e = true := by
  unfold process
  split
  · exact ⟨_, rfl, rfl⟩
  · exact turnResult_kept_iff.mpr h

/-- **What a late attempt answers**: a turn that is not blocked does not stay queued. -/
theorem takeTurn_late (hn : Namespaced S w.table t) (hlate : Late S w.table now t)
    (hb : ¬Blocked S w t) {gate : Option Gate} {e : ApiException}
    (h : (takeTurn S w gate now t).1 = .error e) : retryLater e = false := by
  by_contra hkept
  rw [Bool.not_eq_false] at hkept
  unfold takeTurn at h
  split at h
  · rename_i g
    cases h
    cases g <;> cases hkept
  split at h
  · rename_i hvalid
    have hlock : ∀ row, w.table (S.lockRef t) = some row → row.response = none ∧
        row.createdAt < now - staleClaim := fun row hrow =>
      ⟨hn.lock _ row hrow, hlate _ (.inr rfl) row hrow (hn.lock _ row hrow)⟩
    replace h : (runOnce S w now t).1 = .error e := h
    unfold runOnce at h
    split at h
    · rename_i hempty
      exact hb ⟨hvalid, .inr (process_kept hlock h hkept), fun hc => hc.1 hempty⟩
    · split at h
      · cases h
      · rename_i hfresh
        have hnot : ¬Completed S w t := fun ⟨_, response, hresponse⟩ => by
          rw [hfresh] at hresponse
          cases hresponse
        split at h
        swap
        · rename_i hlong
          exact hb ⟨hvalid, .inl (Bool.eq_false_iff.mpr hlong), hnot⟩
        have hkey : S.lockRef t ≠ S.keyRef t := fun he => hn.key _ (congrArg Prod.snd he).symm
        have hstale : ∀ row, w.table (S.keyRef t) = some row → row.response = none ∧
            row.createdAt < now - staleClaim := fun row hrow => by
          have hpending : row.response = none := by
            simpa only [lookup, hrow] using hfresh
          exact ⟨hpending, hlate _ (.inl rfl) row hrow hpending⟩
        obtain ⟨claimed, hclaim⟩ := claim_of_stale now hstale
        rw [hclaim] at h
        dsimp only at h
        split at h
        · cases h
        · rename_i e' table hprocess
          cases h
          have hlock' : ∀ row, claimed (S.lockRef t) = some row → row.response = none ∧
              row.createdAt < now - staleClaim := fun row hrow => by
            obtain ⟨rfl, -⟩ := claim_eq_some hclaim
            rw [Function.update_of_ne hkey] at hrow
            exact hlock row hrow
          have hheld := process_kept (w := { w with table := claimed }) hlock'
            (congrArg Prod.fst hprocess) hkept
          exact hb ⟨hvalid, .inr (hheld.table _), hnot⟩
  · cases h
    cases hkept

/-- **What an attempt at a blocked turn answers**: an error that keeps it, at any time. -/
theorem takeTurn_blocked (hb : Blocked S w t) (now : Instant) :
    ∃ e, (takeTurn S w none now t).1 = .error e ∧ retryLater e = true := by
  unfold takeTurn
  dsimp only
  rw [if_pos hb.valid]
  show ∃ e, (runOnce S w now t).1 = .error e ∧ retryLater e = true
  unfold runOnce
  split
  · rename_i hempty
    rcases hb.held with hlong | hheld
    · rw [hempty] at hlong
      cases hlong
    · exact process_held hheld now
  · rename_i hkey
    split
    · rename_i response hresponse
      exact absurd ⟨hkey, response, hresponse⟩ hb.fresh
    · split
      · rename_i hshort
        have hheld : Held S w t := hb.held.resolve_left (by rw [hshort]; exact Bool.noConfusion)
        split
        · exact ⟨_, rfl, rfl⟩
        · rename_i claimed hclaim
          obtain ⟨e, he, hkept⟩ := process_held (hheld.table claimed) now
          split
          · rename_i reply table hreply
            rw [hreply] at he
            cases he
          · rename_i e' table he'
            rw [he'] at he
            exact ⟨e, he, hkept⟩
      · exact ⟨_, rfl, rfl⟩

/-- An attempt that fails completes nothing under its key. -/
theorem runOnce_error {e : ApiException} (h : (runOnce S w now t).1 = .error e)
    (hkey : t.idempotencyKey ≠ "") {row : IdempotencyKey}
    (hrow : (runOnce S w now t).2 (S.keyRef t) = some row) : w.table (S.keyRef t) = some row := by
  unfold runOnce at h hrow
  rw [if_neg hkey] at h hrow
  split at h
  · cases h
  · rename_i hfresh
    rw [hfresh] at hrow
    dsimp only at hrow
    split at h
    swap
    · rename_i hlong
      rwa [if_neg hlong] at hrow
    rename_i hshort
    rw [if_pos hshort] at hrow
    split at h
    · rename_i hclaim
      rw [hclaim] at hrow
      exact hrow
    · rename_i claimed hclaim
      rw [hclaim] at hrow
      dsimp only at h hrow
      split at h
      · cases h
      · rename_i e' table hprocess
        rw [hprocess] at hrow
        replace hrow : release table (S.keyRef t) (S.keyRef t) = some row := hrow
        rw [release_self] at hrow
        cases hrow

/-- A blocked turn stays blocked, whatever is attempted: its own attempts fail, and those
of other keys leave its row alone. -/
theorem takeTurn_stays_blocked (hb : Blocked S w t) {p : PendingTurn}
    (hn : Namespaced S w.table p) (hp : p = t ∨ p.idempotencyKey ≠ t.idempotencyKey)
    (now : Instant) :
    Blocked S (takeTurn S w none now p).2 t := by
  obtain ⟨htidy, hsessions⟩ := takeTurn_tidy hn none now
  have hheld := hb.held.imp_right (·.sessions hsessions)
  refine ⟨hb.valid, hheld, fun ⟨hkey, response, hresponse⟩ => ?_⟩
  refine hb.fresh ⟨hkey, response, ?_⟩
  cases hrow : (takeTurn S w none now p).2.table (S.keyRef t) with
  | none =>
    rw [lookup, hrow] at hresponse
    cases hresponse
  | some row =>
    rw [lookup, hrow] at hresponse
    have hbefore : w.table (S.keyRef t) = some row := by
      rcases hp with rfl | hother
      · obtain ⟨e, he, -⟩ := takeTurn_blocked hb now
        have hvalid : takeTurn S w none now p = ((runOnce S w now p).1,
            { w with table := (runOnce S w now p).2 }) := by
          rw [takeTurn]
          dsimp only
          rw [if_pos hb.valid]
        rw [hvalid] at he hrow
        exact runOnce_error he hkey hrow
      · exact htidy.others _ row (fun he => hother (congrArg Prod.snd he).symm) hrow
    rw [lookup, hbefore]
    exact hresponse

end endpoint

end Apm.Offline
