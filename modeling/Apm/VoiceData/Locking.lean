import Apm.Lib.Run
import Apm.Lib.RowLocks

/-!
# The row locks of one learner's operations

Turn persists, session starts, session ends and purges of one learner, each as the
row locks its transaction takes, statement by statement. A statement that needs a
lock waits until no other transaction holds a conflicting one. Every transaction may
roll back at any time: for an early return, an exception or a closed connection.
-/

namespace Apm.VoiceData.Locking

open Apm.Lib

set_option autoImplicit false

inductive Row where
  | user
  | session (id : Nat)
  | transcript (sessionId : Nat)
  deriving DecidableEq, Repr

abbrev Lock := RowLock Row

instance : LawfulBEq Lock := inferInstance

/-- `SELECT ... FROM users ... FOR UPDATE`. -/
def userLock : Lock := ⟨.user, .update⟩

/-- The committed rows of the learner. -/
structure Rows where
  sessions : List Nat
  transcripts : List Nat
  deriving DecidableEq, Repr

inductive Operation where
  /-- `persist_turn`: the upsert of the transcript, then `record_turn_activity` -/
  | persist (sessionId : Nat)
  /-- `start`, with the stale session it reaps and the id of the new one -/
  | start (stale : Option Nat) (id : Nat)
  /-- `end` -/
  | endSession (sessionId : Nat)
  | purge
  deriving DecidableEq, Repr

/-- A `DELETE` of the purge. The cascade runs when the sessions have been deleted. -/
inductive Delete where
  | transcripts
  | sessions
  | cascade
  deriving DecidableEq, Repr

/-- The rows a `DELETE` selects beside those the purge has deleted before. -/
def Delete.locks (rows : Rows) (taken : List Lock) : Delete → List Lock
  | .transcripts | .cascade =>
    (rows.transcripts.map fun s => ⟨.transcript s, .update⟩).filter (· ∉ taken)
  | .sessions => (rows.sessions.map fun s => ⟨.session s, .update⟩).filter (· ∉ taken)

/-- Where a transaction stands, with the statement it runs next. -/
inductive Phase where
  | upsert (s : Nat)
  /-- after the lock of the transcript: an update of it, or an insert -/
  | upserted (s : Nat)
  /-- the foreign key check of an inserted transcript -/
  | foreignKey (s : Nat)
  /-- a persist before `users.lock` -/
  | meter (s : Nat) (inserted : Bool)
  /-- a persist before the `UPDATE` of the session -/
  | touch (s : Nat) (inserted : Bool)
  | metered (s : Nat) (inserted : Bool)
  | end_ (s : Nat)
  | close (s : Nat)
  | closed (s : Nat)
  | start (stale : Option Nat) (id : Nat)
  | reap (stale : Nat) (id : Nat)
  | insert (reaped : Option Nat) (id : Nat)
  | purge
  /-- a purge with the rows it has to lock, those it has locked and the statements after -/
  | delete (todo taken : List Lock) (later : List Delete)
  | done
  deriving DecidableEq, Repr

def Operation.begin : Operation → Phase
  | .persist s => .upsert s
  | .start stale id => .start stale id
  | .endSession s => .end_ s
  | .purge => .purge

def transcriptLock (s : Nat) : Lock := ⟨.transcript s, .update⟩

/-- The lock of an `UPDATE` of a session. -/
def sessionLock (s : Nat) : Lock := ⟨.session s, .noKeyUpdate⟩

def foreignKeyLock (s : Nat) : Lock := ⟨.session s, .keyShare⟩

namespace Phase

/-- The locks of an upsert. -/
def upsertLocks (s : Nat) (inserted : Bool) : List Lock :=
  if inserted then [foreignKeyLock s, transcriptLock s] else [transcriptLock s]

/-- The locks that a transaction has taken. -/
def locks : Phase → List Lock
  | .upsert _ | .end_ _ | .start .. | .purge | .done => []
  | .upserted s | .foreignKey s => [transcriptLock s]
  | .meter s inserted => upsertLocks s inserted
  | .touch s inserted => userLock :: upsertLocks s inserted
  | .metered s inserted => sessionLock s :: userLock :: upsertLocks s inserted
  | .close _ | .reap .. | .insert none _ => [userLock]
  | .closed s | .insert (some s) _ => [sessionLock s, userLock]
  | .delete _ taken _ => taken ++ [userLock]

/-- The lock the next statement takes. -/
def request : Phase → Option Lock
  | .upsert s => some (transcriptLock s)
  | .foreignKey s => some (foreignKeyLock s)
  | .meter .. | .end_ _ | .start .. | .purge => some userLock
  | .touch s _ | .close s | .reap s _ => some (sessionLock s)
  | .delete todo _ _ => todo.head?
  | .upserted _ | .metered .. | .closed _ | .insert .. | .done => none

/-- The phase after the requested lock. -/
def granted : Phase → Phase
  | .upsert s => .upserted s
  | .foreignKey s => .meter s true
  | .meter s inserted => .touch s inserted
  | .touch s inserted => .metered s inserted
  | .end_ s => .close s
  | .close s => .closed s
  | .start none id => .insert none id
  | .start (some s) id => .reap s id
  | .reap s id => .insert (some s) id
  | .purge => .delete [] [] [.transcripts, .sessions, .cascade]
  | .delete (l :: todo) taken later => .delete todo (l :: taken) later
  | p => p

/-- The next statement fails: its session is gone. -/
def fails (rows : Rows) : Phase → Bool
  | .foreignKey s | .touch s _ | .close s | .reap s _ => s ∉ rows.sessions
  | _ => false

/-- A step without a lock. -/
def proceed (rows : Rows) : Phase → Option Phase
  | .upserted s => some (if s ∈ rows.transcripts then .meter s false else .foreignKey s)
  | .delete [] taken (d :: later) => some (.delete (d.locks rows taken) taken later)
  | _ => none

/-- The rows after a commit. A persist whose metering failed commits before its end. -/
def commit (rows : Rows) : Phase → Option Rows
  | .meter s _ | .touch s _ | .metered s _ =>
    some { rows with transcripts := if s ∈ rows.transcripts then rows.transcripts else
      rows.transcripts ++ [s] }
  | .closed _ => some rows
  | .insert _ id => some { rows with sessions := rows.sessions ++ [id] }
  | .delete [] taken [] => some
    { sessions := rows.sessions.filter fun s => ⟨.session s, .update⟩ ∉ taken
      transcripts := rows.transcripts.filter fun s => ⟨.transcript s, .update⟩ ∉ taken }
  | _ => none

end Phase

structure World (ι : Type) where
  rows : Rows
  table : LockTable ι Row
  phase : ι → Phase

inductive Action (ι : Type) where
  /-- the next statement of a transaction -/
  | advance (i : ι)
  | commit (i : ι)
  | rollback (i : ι)
  deriving DecidableEq

variable {ι : Type} [DecidableEq ι]

def World.setPhase (w : World ι) (i : ι) (p : Phase) : World ι :=
  { w with phase := Function.update w.phase i p }

/-- The end of a transaction releases its locks. -/
def World.finish (w : World ι) (i : ι) : World ι :=
  { w.setPhase i .done with table := w.table.release i }

def step (w : World ι) : Action ι → Option (World ι)
  | .advance i =>
    if (w.phase i).fails w.rows then none
    else
      match (w.phase i).request with
      | some l => (w.table.acquire i l).map fun table =>
          { w.setPhase i (w.phase i).granted with table := table }
      | none => ((w.phase i).proceed w.rows).map (w.setPhase i)
  | .commit i => ((w.phase i).commit w.rows).map fun rows => { w.finish i with rows := rows }
  | .rollback i => if w.phase i = .done then none else some (w.finish i)

/-- The lock each transaction waits for or is about to take. -/
def World.request (w : World ι) (i : ι) : Option Lock := (w.phase i).request

def World.init (rows : Rows) (operation : ι → Operation) : World ι where
  rows := rows
  table := .empty
  phase := fun i => (operation i).begin

end Apm.VoiceData.Locking
