import Apm.Lib.UnitOfWork
import Apm.Sessions.Service
import Mathlib.Data.List.Infix

/-!
# The terminal write of a turn

`persist_turn` stages the transcript without a commit and leaves the commit to
the metering that runs next on the same database session. The unit of work below
carries the transcript column; what metering writes to the user and the session
is modelled with the session service. The answers of the database to each
statement are arguments.
-/

namespace Apm.Conversation

open Apm.Core Apm.Lib Apm.Sessions

set_option autoImplicit false

def roleUser : String := "user"
def roleAssistant : String := "assistant"

structure Message where
  role : String
  content : String
  deriving DecidableEq, Repr

/-- The `turns` column of a transcript row, or no row. -/
abbrev Turns := Option (List Message)

/-- An exception that no statement raised. -/
inductive CodeError where
  | typeError
  | other
  deriving DecidableEq, Repr

abbrev TurnWork := Work Turns CodeError

/-- What the database answers to one call of `record_turn_activity`. -/
structure MeterAnswers where
  get : Except (Fault CodeError) (Option ConversationSession)
  lock : Except (Fault CodeError) (Option User)
  /-- a row that has vanished raises without a failed statement -/
  refresh : Except (Fault CodeError) ConversationSession
  commit : CommitAnswer

/-- The statements and the exits of `record_turn_activity`. -/
def recordTurnActivity (userId : Int) (a : MeterAnswers) : TurnWork Unit := do
  let session ← Work.execute a.get
  match session with
  | none => pure ()
  | some session =>
    if session.userId ≠ userId ∨ session.endedAt ≠ none then pure ()
    else do
      let _ ← Work.execute a.lock
      let refreshed ← Work.execute a.refresh
      if refreshed.endedAt ≠ none then pure ()
      else Work.commit a.commit

structure PersistAnswers where
  save : Except (Fault CodeError) Unit
  /-- `scope.meter`: the answers to the call, and to the call repeated without `now` -/
  meter : Option (MeterAnswers × MeterAnswers)
  /-- the answer to the commit of `persist_turn` itself -/
  commit : CommitAnswer

/-- The turns `persist_turn` saves: the oldest messages leave past the cap. -/
def appendTurn (cap : Int) (turns : List Message) (text reply : String) : List Message :=
  let turns := turns ++ [⟨roleUser, text⟩, ⟨roleAssistant, reply⟩]
  if 0 < cap ∧ cap < turns.length then turns.drop (turns.length - cap.toNat) else turns

def persistTurn (cap userId : Int) (turns : List Message) (text reply : String)
    (a : PersistAnswers) : TurnWork (List Message) := do
  let turns := appendTurn cap turns text reply
  Work.write a.save fun _ => some turns
  match a.meter with
  | none => Work.commit a.commit
  | some (call, withoutNow) =>
    Work.handle
      (Work.handle (recordTurnActivity userId call) fun e =>
        match e with
        | .code .typeError => recordTurnActivity userId withoutNow
        | e => Work.raise e)
      fun _ => Work.commit a.commit
  pure turns

/-! ## How metering ends -/

inductive MeterEnd where
  /-- it returned without a commit -/
  | returned
  | reachedCommit
  | raised (e : Fault CodeError)
  deriving DecidableEq

/-- The end of a call on a healthy transaction: the session is missing, foreign
or ended at one of the two reads, or a statement raises, or the commit is next. -/
def MeterAnswers.ending (userId : Int) (a : MeterAnswers) : MeterEnd :=
  match a.get with
  | .error e => .raised e
  | .ok none => .returned
  | .ok (some session) =>
    if session.userId ≠ userId ∨ session.endedAt ≠ none then .returned
    else
      match a.lock with
      | .error e => .raised e
      | .ok _ =>
        match a.refresh with
        | .error e => .raised e
        | .ok refreshed => if refreshed.endedAt ≠ none then .returned else .reachedCommit

/-- What the end of the call makes of the open transaction. -/
def MeterEnd.apply (answer : CommitAnswer) : MeterEnd → TurnWork Unit
  | .returned => pure ()
  | .reachedCommit => Work.commit answer
  | .raised e => Work.execute (.error e)

theorem recordTurnActivity_apply (userId : Int) (a : MeterAnswers) {db : Uow Turns}
    (h : db.tx = .active) :
    recordTurnActivity userId a db = (a.ending userId).apply a.commit db := by
  have raises : ∀ {α β : Type} (e : Fault CodeError) (f : α → TurnWork β),
      (Work.execute (.error e) >>= f) db = (Work.execute (.error e) : TurnWork β) db := by
    intro α β e f
    cases e with
    | database =>
      rw [Work.execute_database h, Work.bind_error _ _ _ _ _ (Work.execute_database h)]
    | code e =>
      rw [Work.execute_code h, Work.bind_error _ _ _ _ _ (Work.execute_code h e)]
  have answers : ∀ {α β : Type} (x : α) (f : α → TurnWork β),
      (Work.execute (.ok x) >>= f) db = f x db :=
    fun x f => Work.bind_ok _ _ _ _ _ (Work.execute_ok h x)
  simp only [recordTurnActivity, MeterAnswers.ending]
  cases hget : a.get with
  | error e => exact raises e _
  | ok session =>
    rw [answers]
    cases session with
    | none => rfl
    | some session =>
      simp only
      split_ifs with howned
      · rfl
      · cases hlock : a.lock with
        | error e => exact raises e _
        | ok user =>
          rw [answers]
          cases hrefresh : a.refresh with
          | error e => exact raises e _
          | ok refreshed =>
            rw [answers]
            simp only
            split_ifs <;> rfl

/-- The call that decides: the repeated one after a `TypeError`. -/
def lastCall (userId : Int) (calls : MeterAnswers × MeterAnswers) : MeterAnswers :=
  if calls.1.ending userId = .raised (.code .typeError) then calls.2 else calls.1

theorem meter_apply (userId : Int) (call withoutNow : MeterAnswers) {db : Uow Turns}
    (h : db.tx = .active) :
    Work.handle (recordTurnActivity userId call) (fun e =>
      match e with
      | .code .typeError => recordTurnActivity userId withoutNow
      | e => Work.raise e) db =
    ((lastCall userId (call, withoutNow)).ending userId).apply
      (lastCall userId (call, withoutNow)).commit db := by
  have hcall := recordTurnActivity_apply userId call h
  simp only [lastCall]
  cases hend : call.ending userId with
  | returned =>
    rw [hend] at hcall
    rw [if_neg (by simp), hend]
    exact Work.handle_ok _ _ _ _ _ hcall
  | reachedCommit =>
    rw [hend] at hcall
    rw [if_neg (by simp), hend]
    cases hc : call.commit with
    | done =>
      rw [hc] at hcall
      rw [Work.handle_ok _ _ _ _ _ (hcall.trans (Work.commit_done h))]
      exact (Work.commit_done h).symm
    | failed applied =>
      rw [hc] at hcall
      rw [Work.handle_error _ _ _ _ _ (hcall.trans (Work.commit_failed h applied))]
      exact (Work.commit_failed h applied).symm
  | raised e =>
    rw [hend] at hcall
    cases e with
    | database =>
      rw [if_neg (by simp), hend, Work.handle_error _ _ _ _ _ (hcall.trans (Work.execute_database h))]
      exact (Work.execute_database h).symm
    | code e =>
      rw [Work.handle_error _ _ _ _ _ (hcall.trans (Work.execute_code h e))]
      cases e with
      | typeError =>
        rw [if_pos rfl]
        exact recordTurnActivity_apply userId withoutNow h
      | other =>
        rw [if_neg (by simp), hend]
        exact (Work.execute_code h CodeError.other).symm

/-- Whether the staged turns are committed when `persist_turn` returns. -/
inductive Fate where
  | raises
  | commits
  | drops
  deriving DecidableEq

def Fate.ofCommit : CommitAnswer → Fate
  | .done => .commits
  | .failed _ => .raises

/-- The fate of the staged turns, from the answers alone. Metering that returns
early leaves no commit behind; a failed statement of metering turns the last
commit into a rollback. -/
def PersistAnswers.fate (userId : Int) (a : PersistAnswers) : Fate :=
  match a.save, a.meter with
  | .error _, _ => .raises
  | .ok _, none => .ofCommit a.commit
  | .ok _, some calls =>
    match (lastCall userId calls).ending userId with
    | .returned => .drops
    | .reachedCommit => .ofCommit (lastCall userId calls).commit
    | .raised .database => .drops
    | .raised (.code _) => .ofCommit a.commit

/-- What `persist_turn` returns and leaves, for each fate of the staged turns. -/
def Fate.Outcome (stored : Turns) (turns : List Message)
    (r : Except (Fault CodeError) (List Message) × Uow Turns) : Fate → Prop
  | .raises => ∃ e db, r = (.error e, db)
  | .commits => ∃ db, r = (.ok turns, db) ∧ db.committed = some turns
  | .drops => ∃ db, r = (.ok turns, db) ∧ db.committed = stored

/-- The commit of a healthy transaction decides the fate of its caller. -/
theorem outcome_commit {stored : Turns} {turns : List Message} {db : Uow Turns}
    (h : db.tx = .active) (hstaged : db.staged = some turns) (answer : CommitAnswer) :
    (Fate.ofCommit answer).Outcome stored turns
      ((Work.commit answer >>= fun _ => pure turns : TurnWork (List Message)) db) := by
  cases answer with
  | done =>
    rw [Work.bind_ok _ _ _ _ _ (Work.commit_done h)]
    exact ⟨_, rfl, hstaged⟩
  | failed applied =>
    rw [Work.bind_error _ _ _ _ _ (Work.commit_failed h applied)]
    exact ⟨_, _, rfl⟩

/-- The outer `try` of `persist_turn`, on a healthy transaction. -/
theorem outcome_meter {stored : Turns} {turns : List Message} {db : Uow Turns}
    (h : db.tx = .active) (hstored : db.committed = stored) (hstaged : db.staged = some turns)
    (meter : TurnWork Unit) (ending : MeterEnd) (callCommit last : CommitAnswer)
    (hmeter : meter db = ending.apply callCommit db) :
    (match ending with
      | .returned => Fate.drops
      | .reachedCommit => .ofCommit callCommit
      | .raised .database => .drops
      | .raised (.code _) => .ofCommit last).Outcome stored turns
      ((Work.handle meter (fun _ => Work.commit last) >>= fun _ => pure turns :
        TurnWork (List Message)) db) := by
  cases ending with
  | returned =>
    rw [Work.bind_ok _ _ _ _ _ (Work.handle_ok _ _ _ _ _ hmeter)]
    exact ⟨_, rfl, hstored⟩
  | reachedCommit =>
    cases callCommit with
    | done =>
      have hdone := hmeter.trans (Work.commit_done h)
      rw [Work.bind_ok _ _ _ _ _ (Work.handle_ok _ _ _ _ _ hdone)]
      exact ⟨_, rfl, hstaged⟩
    | failed applied =>
      have hfailed := hmeter.trans (Work.commit_failed h applied)
      have hlast := (Work.handle_error meter (fun _ => Work.commit last) _ _ _ hfailed).trans
        (Work.commit_inactive rfl last)
      rw [Work.bind_error _ _ _ _ _ hlast]
      exact ⟨_, _, rfl⟩
  | raised e =>
    cases e with
    | database =>
      have haborted := hmeter.trans (Work.execute_database h)
      have hlast := (Work.handle_error meter (fun _ => Work.commit last) _ _ _ haborted).trans
        (Work.commit_aborted rfl last)
      rw [Work.bind_ok _ _ _ _ _ hlast]
      exact ⟨_, rfl, hstored⟩
    | code e =>
      have hraised := hmeter.trans (Work.execute_code h e)
      have hlast := Work.handle_error meter (fun _ => Work.commit last) _ _ _ hraised
      cases last with
      | done =>
        rw [Work.bind_ok _ _ _ _ _ (hlast.trans (Work.commit_done h))]
        exact ⟨_, rfl, hstaged⟩
      | failed applied =>
        rw [Work.bind_error _ _ _ _ _ (hlast.trans (Work.commit_failed h applied))]
        exact ⟨_, _, rfl⟩

theorem persistTurn_outcome (cap userId : Int) (turns : List Message) (text reply : String)
    (a : PersistAnswers) (stored : Turns) :
    (a.fate userId).Outcome stored (appendTurn cap turns text reply)
      (persistTurn cap userId turns text reply a (Work.opened stored)) := by
  set saved := appendTurn cap turns text reply with hsaved
  have hopened : (Work.opened stored).tx = .active := rfl
  simp only [persistTurn, PersistAnswers.fate, ← hsaved]
  cases hsave : a.save with
  | error e =>
    obtain ⟨db, hdb⟩ := Work.write_error (σ := Turns) hopened e fun _ => some saved
    exact ⟨e, db, Work.bind_error _ _ _ _ _ hdb⟩
  | ok u =>
    rw [Work.bind_ok _ _ _ _ _ (Work.write_ok hopened fun _ => some saved)]
    cases hmeter : a.meter with
    | none => exact outcome_commit rfl rfl a.commit
    | some calls =>
      exact outcome_meter rfl rfl rfl _ _ _ a.commit (meter_apply userId calls.1 calls.2 rfl)

/-! ## The end as the caller sees it -/

/-- How `persist_turn` ends: it returns with the turns committed, it raises or is
cancelled behind a commit that was applied and whose answer was lost, it returns
with the turns discarded, or it raises and nothing was committed. -/
inductive PersistEnd where
  | committed
  | lost (cancelled : Bool)
  | discarded
  | raised
  deriving DecidableEq

/-- What the caller gets and what the table has, for each end. Behind a cancellation the caller
gets nothing. -/
def PersistEnd.Outcome (stored : Turns) (saved : List Message)
    (r : Except (Fault CodeError) (List Message)) (committed : Turns) : PersistEnd → Prop
  | .committed => r = .ok saved ∧ committed = some saved
  | .lost cancelled => (cancelled = false → ∃ e, r = .error e) ∧ committed = some saved
  | .discarded => r = .ok saved ∧ committed = stored
  | .raised => (∃ e, r = .error e) ∧ committed = stored

/-- The column has the turns from before, or the turns to save, in the table and in the open
transaction. -/
structure Either (stored saved : Turns) (db : Uow Turns) : Prop where
  committed : db.committed = stored ∨ db.committed = saved
  staged : db.staged = stored ∨ db.staged = saved

section ends

variable {stored saved : Turns}

theorem keeps_execute {α : Type} (answer : Except (Fault CodeError) α) :
    Work.Keeps (Either stored saved) (Work.execute answer) :=
  .execute answer fun _ h => ⟨h.committed, h.staged⟩

theorem keeps_commit (answer : CommitAnswer) :
    Work.Keeps (Either stored saved) (Work.commit answer : TurnWork Unit) :=
  .commit answer (fun _ _ h => ⟨h.staged, h.staged⟩) (fun _ _ h => ⟨h.committed, h.committed⟩)
    fun _ _ h => ⟨h.committed, h.staged⟩

theorem keeps_recordTurnActivity (userId : Int) (a : MeterAnswers) :
    Work.Keeps (Either stored saved) (recordTurnActivity userId a) := by
  refine .bind (keeps_execute a.get) fun session => ?_
  cases session with
  | none => exact .pure ()
  | some session =>
    show Work.Keeps _ (if _ then _ else _)
    split_ifs
    · exact .pure ()
    refine .bind (keeps_execute a.lock) fun _ => .bind (keeps_execute a.refresh) fun refreshed => ?_
    split_ifs
    · exact .pure ()
    · exact keeps_commit a.commit

/-- Whatever the answers, `persist_turn` commits the turns it saves, or nothing. -/
theorem keeps_persistTurn (cap userId : Int) (turns : List Message) (text reply : String)
    (a : PersistAnswers) :
    Work.Keeps (Either stored (some (appendTurn cap turns text reply)))
      (persistTurn cap userId turns text reply a) := by
  have hsave : Work.Keeps (Either stored (some (appendTurn cap turns text reply)))
      (Work.write a.save fun _ => some (appendTurn cap turns text reply) : TurnWork Unit) :=
    .bind (keeps_execute a.save) fun _ db h => ⟨h.committed, .inr rfl⟩
  refine .bind hsave fun _ => ?_
  cases a.meter with
  | none => exact .bind (keeps_commit a.commit) fun _ => .pure _
  | some calls =>
    refine .bind (.handle (.handle (keeps_recordTurnActivity userId calls.1) fun e => ?_)
      fun _ => keeps_commit a.commit) fun _ => .pure _
    cases e with
    | database => exact .raise _
    | code e =>
      cases e with
      | typeError => exact keeps_recordTurnActivity userId calls.2
      | other => exact .raise _

/-- Every run of `persist_turn` ends as a request sees it end. -/
theorem persistTurn_end (cap userId : Int) (turns : List Message) (text reply : String)
    (a : PersistAnswers) (stored : Turns) :
    ∃ e : PersistEnd, e.Outcome stored (appendTurn cap turns text reply)
      (persistTurn cap userId turns text reply a (Work.opened stored)).1
      (persistTurn cap userId turns text reply a (Work.opened stored)).2.committed := by
  have hout := persistTurn_outcome cap userId turns text reply a stored
  cases hfate : a.fate userId with
  | raises =>
    have hopened : Either stored (appendTurn cap turns text reply) (Work.opened stored) :=
      ⟨.inl rfl, .inl rfl⟩
    have hkept := (keeps_persistTurn cap userId turns text reply a).snd hopened
    rw [hfate] at hout
    obtain ⟨e, db, hrun⟩ := hout
    rw [hrun] at hkept ⊢
    rcases hkept.committed with hstored | hsaved
    · exact ⟨.raised, ⟨e, rfl⟩, hstored⟩
    · exact ⟨.lost false, fun _ => ⟨e, rfl⟩, hsaved⟩
  | commits =>
    rw [hfate] at hout
    obtain ⟨db, hrun, hdb⟩ := hout
    rw [hrun]
    exact ⟨.committed, rfl, hdb⟩
  | drops =>
    rw [hfate] at hout
    obtain ⟨db, hrun, hdb⟩ := hout
    rw [hrun]
    exact ⟨.discarded, rfl, hdb⟩

end ends

/-! ## The pair at the end of the transcript -/

/-- The learner's text and the reply, as `persist_turn` appends them. -/
def exchange (text reply : String) : List Message := [⟨roleUser, text⟩, ⟨roleAssistant, reply⟩]

/-- The stored transcript ends with this text and this reply. -/
def EndsWith (stored : Turns) (text reply : String) : Prop :=
  match stored with
  | none => False
  | some turns => exchange text reply <:+ turns

instance (stored : Turns) (text reply : String) : Decidable (EndsWith stored text reply) :=
  match stored with
  | none => inferInstanceAs (Decidable False)
  | some turns => inferInstanceAs (Decidable (_ <:+ turns))

/-- Every cap but one message keeps the new exchange whole. -/
theorem exchange_suffix_appendTurn (cap : Int) (turns : List Message) (text reply : String) :
    exchange text reply <:+ appendTurn cap turns text reply ↔ cap ≠ 1 := by
  have hlen : (turns ++ exchange text reply).length = turns.length + 2 := by simp [exchange]
  change _ <:+ (if 0 < cap ∧ cap < ((turns ++ exchange text reply).length : Int) then
    (turns ++ exchange text reply).drop ((turns ++ exchange text reply).length - cap.toNat)
    else turns ++ exchange text reply) ↔ _
  rw [hlen]
  by_cases hcap : 0 < cap ∧ cap < ((turns.length + 2 : Nat) : Int)
  · rw [if_pos hcap]
    by_cases hone : cap = 1
    · subst hone
      refine iff_of_false (fun hs => ?_) (by simp)
      have hle := hs.length_le
      simp only [exchange, List.length_cons, List.length_nil, List.length_drop,
        List.length_append] at hle
      omega
    · refine iff_of_true ?_ hone
      have hdrop : turns.length + 2 - cap.toNat ≤ turns.length := by omega
      rw [List.drop_append_of_le_length hdrop]
      exact List.suffix_append _ _
  · rw [if_neg hcap]
    refine iff_of_true (List.suffix_append _ _) ?_
    rintro rfl
    exact hcap ⟨by decide, by omega⟩

/-- An acknowledged `persist_turn` leaves the exchange committed: the staged turns
are committed and the cap keeps both messages, or they are dropped and the stored
transcript ended with the same exchange before. -/
def keepsExchange (cap userId : Int) (a : PersistAnswers) (stored : Turns) (text reply : String) :
    Prop :=
  match a.fate userId with
  | .raises => True
  | .commits => cap ≠ 1
  | .drops => EndsWith stored text reply

theorem persistTurn_keeps_iff (cap userId : Int) (turns : List Message) (text reply : String)
    (a : PersistAnswers) (stored : Turns) :
    (∀ saved db, persistTurn cap userId turns text reply a (Work.opened stored) = (.ok saved, db) →
      EndsWith db.committed text reply) ↔ keepsExchange cap userId a stored text reply := by
  have hout := persistTurn_outcome cap userId turns text reply a stored
  unfold keepsExchange
  cases hfate : a.fate userId with
  | raises =>
    rw [hfate] at hout
    obtain ⟨e, db, hrun⟩ := hout
    refine iff_of_true (fun saved db' h => ?_) trivial
    rw [hrun] at h
    cases h
  | commits =>
    rw [hfate] at hout
    obtain ⟨db, hrun, hdb⟩ := hout
    simp only [hrun, Prod.mk.injEq, and_imp]
    rw [← exchange_suffix_appendTurn cap turns text reply]
    constructor
    · intro h
      have := h _ _ rfl rfl
      rwa [hdb] at this
    · rintro h saved _ - rfl
      rw [hdb]
      exact h
  | drops =>
    rw [hfate] at hout
    obtain ⟨db, hrun, hdb⟩ := hout
    simp only [hrun, Prod.mk.injEq, and_imp]
    constructor
    · intro h
      have := h _ _ rfl rfl
      rwa [hdb] at this
    · rintro h saved _ - rfl
      rwa [hdb]

end Apm.Conversation
