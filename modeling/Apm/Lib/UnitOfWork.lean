import Mathlib.Logic.Basic

/-!
# A unit of work over one database transaction

A program reads and stages writes in an open transaction and decides when to
commit it. Two things can stand between a commit call and the commit. A
statement that failed has aborted the transaction on the server, and `COMMIT` of
an aborted transaction answers without an error and discards what was staged. A
commit that failed leaves the client session unusable: the next commit raises.
What was staged and not committed is gone when the session is closed.

The answers of the database are arguments of the operations; the state, the
errors of the program and the results are arbitrary types.
-/

namespace Apm.Lib

set_option autoImplicit false

/-- An exception: raised by a statement, or by the code between statements. -/
inductive Fault (ε : Type) where
  | database
  | code (e : ε)
  deriving DecidableEq, Repr

inductive Tx where
  | active
  /-- a statement failed: the server only waits for the end of the transaction -/
  | aborted
  /-- a commit failed: the client session refuses to commit again -/
  | inactive
  deriving DecidableEq, Repr

structure Uow (σ : Type) where
  committed : σ
  /-- what the open transaction would commit -/
  staged : σ
  tx : Tx
  deriving Repr

/-- How the database answers a commit of a healthy transaction. A failure may
have reached the server before the answer was lost. -/
inductive CommitAnswer where
  | done
  | failed (applied : Bool)
  deriving DecidableEq, Repr

/-- A program over the unit of work: it returns or raises, and leaves a state
either way. -/
def Work (σ ε α : Type) := Uow σ → Except (Fault ε) α × Uow σ

namespace Work

variable {σ ε α β : Type}

instance : Monad (Work σ ε) where
  pure a := fun db => (.ok a, db)
  bind x f := fun db =>
    match x db with
    | (.ok a, db') => f a db'
    | (.error e, db') => (.error e, db')

def raise (e : Fault ε) : Work σ ε α := fun db => (.error e, db)

/-- `try x except handler`. -/
def handle (x : Work σ ε α) (handler : Fault ε → Work σ ε α) : Work σ ε α := fun db =>
  match x db with
  | (.ok a, db') => (.ok a, db')
  | (.error e, db') => handler e db'

/-- A statement, with the answer it gets in a healthy transaction. -/
def execute (answer : Except (Fault ε) α) : Work σ ε α := fun db =>
  if db.tx = .active then
    match answer with
    | .ok a => (.ok a, db)
    | .error .database => (.error .database, { db with tx := .aborted })
    | .error (.code e) => (.error (.code e), db)
  else (.error .database, db)

/-- A statement that stages a write. -/
def write (answer : Except (Fault ε) Unit) (f : σ → σ) : Work σ ε Unit := do
  execute answer
  fun db => (.ok (), { db with staged := f db.staged })

def commit (answer : CommitAnswer) : Work σ ε Unit := fun db =>
  match db.tx with
  | .active =>
    match answer with
    | .done => (.ok (), { db with committed := db.staged })
    | .failed applied => (.error .database,
        { db with committed := if applied then db.staged else db.committed, tx := .inactive })
  -- the server rolls back and answers as if it had committed
  | .aborted => (.ok (), ⟨db.committed, db.committed, .active⟩)
  | .inactive => (.error .database, db)

/-- A fresh session on the committed state. -/
def opened (committed : σ) : Uow σ := ⟨committed, committed, .active⟩

/-- A rollback ends the transaction in any state, and the next statement opens a fresh one. -/
def rollback : Work σ ε Unit := fun db => (.ok (), opened db.committed)

section run

variable (x : Work σ ε α) (f : α → Work σ ε β) (h : Fault ε → Work σ ε α) (db db' : Uow σ)
  (a : α) (e : Fault ε)

theorem bind_ok (hx : x db = (.ok a, db')) : (x >>= f) db = f a db' := by
  change (match x db with | (.ok a, db') => f a db' | (.error e, db') => (.error e, db')) = _
  rw [hx]

theorem bind_error (hx : x db = (.error e, db')) : (x >>= f) db = (.error e, db') := by
  change (match x db with | (.ok a, db') => f a db' | (.error e, db') => (.error e, db')) = _
  rw [hx]

theorem handle_ok (hx : x db = (.ok a, db')) : handle x h db = (.ok a, db') := by
  simp only [handle, hx]

theorem handle_error (hx : x db = (.error e, db')) : handle x h db = h e db' := by
  simp only [handle, hx]

end run

section statements

variable {db : Uow σ}

theorem execute_ok (h : db.tx = .active) (a : α) :
    execute (σ := σ) (ε := ε) (.ok a) db = (.ok a, db) := by
  simp only [execute, h, if_true]

theorem execute_database (h : db.tx = .active) :
    (execute (.error .database) : Work σ ε α) db =
      (.error .database, { db with tx := .aborted }) := by
  simp only [execute, h, if_true]

/-- Outside a healthy transaction no statement runs. -/
theorem execute_broken (h : db.tx ≠ .active) (answer : Except (Fault ε) α) :
    execute answer db = (.error .database, db) := by
  simp only [execute, if_neg h]

theorem execute_code (h : db.tx = .active) (e : ε) :
    (execute (.error (.code e)) : Work σ ε α) db = (.error (.code e), db) := by
  simp only [execute, h, if_true]

theorem write_ok (h : db.tx = .active) (f : σ → σ) :
    (write (.ok ()) f : Work σ ε Unit) db = (.ok (), { db with staged := f db.staged }) :=
  bind_ok _ _ _ _ _ (execute_ok h ())

theorem write_error (h : db.tx = .active) (e : Fault ε) (f : σ → σ) :
    ∃ db', (write (.error e) f : Work σ ε Unit) db = (.error e, db') := by
  cases e with
  | database => exact ⟨_, bind_error _ _ _ _ _ (execute_database h)⟩
  | code e => exact ⟨_, bind_error _ _ _ _ _ (execute_code h e)⟩

theorem commit_done (h : db.tx = .active) :
    (commit .done : Work σ ε Unit) db = (.ok (), { db with committed := db.staged }) := by
  simp only [commit, h]

theorem commit_failed (h : db.tx = .active) (applied : Bool) :
    (commit (.failed applied) : Work σ ε Unit) db = (.error .database,
      { db with committed := if applied then db.staged else db.committed, tx := .inactive }) := by
  simp only [commit, h]

/-- The commit of an aborted transaction discards what was staged, without an error. -/
theorem commit_aborted (h : db.tx = .aborted) (answer : CommitAnswer) :
    (commit answer : Work σ ε Unit) db = (.ok (), ⟨db.committed, db.committed, .active⟩) := by
  simp only [commit, h]

theorem commit_inactive (h : db.tx = .inactive) (answer : CommitAnswer) :
    (commit answer : Work σ ε Unit) db = (.error .database, db) := by
  simp only [commit, h]

end statements

/-! ## Statements on what is staged -/

/-- A statement that reads, if the database answers it. -/
def read (answered : Bool) (f : σ → α) : Work σ ε α := do
  execute (if answered then .ok () else .error .database)
  fun db => (.ok (f db.staged), db)

/-- A change of loaded objects, to be written with the next statement. -/
def stage (f : σ → σ) : Work σ ε Unit := fun db => (.ok (), { db with staged := f db.staged })

/-- A statement that stages a write, unless a constraint refuses it. -/
def tryWrite (answered : Bool) (f : σ → Option σ) : Work σ ε Unit := do
  execute (if answered then .ok () else .error .database)
  fun db =>
    match f db.staged with
    | some staged => (.ok (), { db with staged := staged })
    | none => (.error .database, { db with tx := .aborted })

/-! ## What holds when a program ends -/

/-- What holds where the program returns, and where it raises. -/
def Post (ok : α → Uow σ → Prop) (raised : Fault ε → Uow σ → Prop) (x : Work σ ε α)
    (db : Uow σ) : Prop :=
  match x db with
  | (.ok a, db') => ok a db'
  | (.error e, db') => raised e db'

section post

variable {ok : α → Uow σ → Prop} {raised : Fault ε → Uow σ → Prop} {db : Uow σ}

theorem Post.of_ok {x : Work σ ε α} (h : Post ok raised x db) {a : α} {db' : Uow σ}
    (hx : x db = (.ok a, db')) : ok a db' := by
  rw [Post, hx] at h
  exact h

theorem Post.of_error {x : Work σ ε α} (h : Post ok raised x db) {e : Fault ε} {db' : Uow σ}
    (hx : x db = (.error e, db')) : raised e db' := by
  rw [Post, hx] at h
  exact h

theorem Post.mono {ok' : α → Uow σ → Prop} {raised' : Fault ε → Uow σ → Prop} {x : Work σ ε α}
    (h : Post ok raised x db) (hok : ∀ a db', ok a db' → ok' a db')
    (hraised : ∀ e db', raised e db' → raised' e db') : Post ok' raised' x db := by
  cases hx : x db with
  | mk r db' =>
    cases r with
    | ok a =>
      have ha := hok a db' (h.of_ok hx)
      rwa [Post, hx]
    | error e =>
      have he := hraised e db' (h.of_error hx)
      rwa [Post, hx]

theorem Post.pure {a : α} (h : ok a db) : Post ok raised (Pure.pure a : Work σ ε α) db := h

theorem Post.raise {e : Fault ε} (h : raised e db) : Post ok raised (raise e : Work σ ε α) db := h

theorem Post.bind {x : Work σ ε β} {f : β → Work σ ε α}
    (h : Post (fun b => Post ok raised (f b)) raised x db) : Post ok raised (x >>= f) db := by
  cases hx : x db with
  | mk r db' =>
    cases r with
    | ok b =>
      have hb : Post ok raised (f b) db' := h.of_ok hx
      rwa [Post, bind_ok _ _ _ _ _ hx]
    | error e =>
      have he : raised e db' := h.of_error hx
      rwa [Post, bind_error _ _ _ _ _ hx]

theorem Post.handle {x : Work σ ε α} {h : Fault ε → Work σ ε α}
    (hx : Post ok (fun e => Post ok raised (h e)) x db) : Post ok raised (handle x h) db := by
  cases hr : x db with
  | mk r db' =>
    cases r with
    | ok a =>
      have ha : ok a db' := hx.of_ok hr
      rwa [Post, handle_ok _ _ _ _ _ hr]
    | error e =>
      have he : Post ok raised (h e) db' := hx.of_error hr
      rwa [Post, handle_error _ _ _ _ _ hr]

theorem Post.rollback {ok : Unit → Uow σ → Prop} (h : ok () (opened db.committed)) :
    Post ok raised rollback db := h

/-- A statement in a healthy transaction, by its answer. -/
theorem Post.execute_answer {answered : Bool} {ok : Unit → Uow σ → Prop} (h : db.tx = .active)
    (hfail : answered = false → raised .database { db with tx := .aborted })
    (hok : answered = true → ok () db) :
    Post ok raised (execute (if answered then .ok () else .error .database)) db := by
  cases answered with
  | false =>
    rw [if_neg Bool.false_ne_true, Post, execute_database h]
    exact hfail rfl
  | true =>
    rw [if_pos rfl, Post, execute_ok h]
    exact hok rfl

theorem Post.execute {answered : Bool} {ok : Unit → Uow σ → Prop} (h : db.tx = .active)
    (hfail : raised .database { db with tx := .aborted }) (hok : ok () db) :
    Post ok raised (execute (if answered then .ok () else .error .database)) db :=
  .execute_answer h (fun _ => hfail) fun _ => hok

/-- A statement in a transaction that is not healthy. -/
theorem Post.execute_broken {answer : Except (Fault ε) α} (h : db.tx ≠ .active)
    (hfail : raised .database db) : Post ok raised (Work.execute answer) db := by
  rw [Post, Work.execute_broken h]
  exact hfail

theorem Post.read {answered : Bool} {f : σ → α} (h : db.tx = .active)
    (hfail : raised .database { db with tx := .aborted }) (hok : ok (f db.staged) db) :
    Post ok raised (read answered f) db :=
  .bind (.execute h hfail hok)

theorem Post.read_answer {answered : Bool} {f : σ → α} (h : db.tx = .active)
    (hfail : answered = false → raised .database { db with tx := .aborted })
    (hok : answered = true → ok (f db.staged) db) : Post ok raised (Work.read answered f) db :=
  .bind (.execute_answer h hfail hok)

theorem Post.read_broken {answered : Bool} {f : σ → α} (h : db.tx ≠ .active)
    (hfail : raised .database db) : Post ok raised (Work.read answered f) db :=
  .bind (.execute_broken h hfail)

theorem Post.stage {f : σ → σ} {ok : Unit → Uow σ → Prop}
    (h : ok () { db with staged := f db.staged }) : Post ok raised (stage f) db := h

/-- A write in a healthy transaction, by its answer and what the constraint says. -/
theorem Post.tryWrite_answer {answered : Bool} {f : σ → Option σ} {ok : Unit → Uow σ → Prop}
    (h : db.tx = .active)
    (hfail : answered = false ∨ f db.staged = none →
      raised .database { db with tx := .aborted })
    (hok : answered = true → ∀ staged, f db.staged = some staged →
      ok () { db with staged := staged }) :
    Post ok raised (tryWrite answered f) db := by
  refine .bind (.execute_answer h (fun ha => hfail (.inl ha)) fun ha => ?_)
  cases hf : f db.staged with
  | none =>
    simp only [Post, hf]
    exact hfail (.inr hf)
  | some staged =>
    simp only [Post, hf]
    exact hok ha staged hf

theorem Post.tryWrite {answered : Bool} {f : σ → Option σ} {ok : Unit → Uow σ → Prop}
    (h : db.tx = .active) (hfail : raised .database { db with tx := .aborted })
    (hok : ∀ staged, f db.staged = some staged → ok () { db with staged := staged }) :
    Post ok raised (tryWrite answered f) db :=
  .tryWrite_answer h (fun _ => hfail) fun _ => hok

theorem Post.tryWrite_broken {answered : Bool} {f : σ → Option σ} {ok : Unit → Uow σ → Prop}
    (h : db.tx ≠ .active) (hfail : raised .database db) :
    Post ok raised (Work.tryWrite answered f) db :=
  .bind (.execute_broken h hfail)

theorem Post.commit {answer : CommitAnswer} {ok : Unit → Uow σ → Prop} (h : db.tx = .active)
    (hfail : ∀ applied, answer = .failed applied → raised .database
      { db with committed := if applied then db.staged else db.committed, tx := .inactive })
    (hok : answer = .done → ok () { db with committed := db.staged }) :
    Post ok raised (commit answer) db := by
  cases answer with
  | done =>
    rw [Post, commit_done h]
    exact hok rfl
  | failed applied =>
    rw [Post, commit_failed h]
    exact hfail applied rfl

end post

/-! ## What a program keeps -/

/-- The program keeps `I`, whether it returns or raises. -/
def Keeps (I : Uow σ → Prop) (x : Work σ ε α) : Prop :=
  ∀ db, I db → Post (fun _ => I) (fun _ => I) x db

section keeps

variable {I : Uow σ → Prop}

theorem Keeps.snd {x : Work σ ε α} (h : Keeps I x) {db : Uow σ} (hdb : I db) : I (x db).2 := by
  have hpost := h db hdb
  rw [Post] at hpost
  split at hpost <;> rename_i hx <;> rw [hx] <;> exact hpost

theorem Keeps.pure (a : α) : Keeps I (Pure.pure a : Work σ ε α) := fun _ hdb => .pure hdb

theorem Keeps.raise (e : Fault ε) : Keeps I (Work.raise e : Work σ ε α) := fun _ hdb => .raise hdb

theorem Keeps.bind {x : Work σ ε β} {f : β → Work σ ε α} (hx : Keeps I x)
    (hf : ∀ b, Keeps I (f b)) : Keeps I (x >>= f) := fun db hdb =>
  .bind ((hx db hdb).mono (fun b _ hb => hf b _ hb) fun _ _ he => he)

theorem Keeps.handle {x : Work σ ε α} {h : Fault ε → Work σ ε α} (hx : Keeps I x)
    (hh : ∀ e, Keeps I (h e)) : Keeps I (Work.handle x h) := fun db hdb =>
  .handle ((hx db hdb).mono (fun _ _ ha => ha) fun e _ he => hh e _ he)

/-- A statement may abort the transaction. -/
theorem Keeps.execute (answer : Except (Fault ε) α)
    (h : ∀ db, I db → I { db with tx := .aborted }) : Keeps I (Work.execute answer) := by
  intro db hdb
  by_cases htx : db.tx = .active
  · cases answer with
    | ok a =>
      rw [Post, execute_ok htx]
      exact hdb
    | error e =>
      cases e with
      | database =>
        rw [Post, execute_database htx]
        exact h db hdb
      | code e =>
        rw [Post, execute_code htx]
        exact hdb
  · exact .execute_broken htx hdb

/-- A commit makes what is staged the committed state, or discards it. -/
theorem Keeps.commit (answer : CommitAnswer)
    (hdone : ∀ db tx, I db → I { db with committed := db.staged, tx := tx })
    (hdropped : ∀ db tx, I db → I ⟨db.committed, db.committed, tx⟩)
    (htx : ∀ db tx, I db → I { db with tx := tx }) : Keeps I (Work.commit answer : Work σ ε Unit) := by
  intro db hdb
  cases hactive : db.tx with
  | active =>
    refine .commit hactive (fun applied _ => ?_) fun _ => hdone db db.tx hdb
    cases applied with
    | false => exact htx db .inactive hdb
    | true => exact hdone db .inactive hdb
  | aborted =>
    rw [Post, commit_aborted hactive]
    exact hdropped db .active hdb
  | inactive =>
    rw [Post, commit_inactive hactive]
    exact hdb

end keeps

end Work

/-! ## Columns of a loaded object -/

/-- A column of the `UPDATE`: written only when it changed since it was loaded. -/
def writeColumn {α : Type} [DecidableEq α] (loaded mutated row : α) : α :=
  if mutated = loaded then row else mutated

@[simp] theorem writeColumn_self {α : Type} [DecidableEq α] (loaded row : α) :
    writeColumn loaded loaded row = row := if_pos rfl

/-- A column that was current when it changed gets its new value. -/
theorem writeColumn_current {α : Type} [DecidableEq α] (loaded mutated : α) :
    writeColumn loaded mutated loaded = mutated := by
  by_cases h : mutated = loaded
  · rw [h, writeColumn_self]
  · exact if_neg h

end Apm.Lib
