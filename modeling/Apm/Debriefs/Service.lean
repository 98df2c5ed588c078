import Apm.Conversation.Persist
import Apm.Debriefs.Cefr
import Apm.Lib.UnitOfWork
import Mathlib.Logic.Function.Basic

/-!
# Debrief generation across worker processes

Every call of `generate` for one session runs in a worker process. It waits for
the lock of its process, then for the advisory lock of the session, and looks for
a stored debrief. Without one it hands its connection back, which ends the
transaction and frees the advisory lock, and asks the LLM. Then it loads the user
and the profile again, stages the new level and memory, and saves: a flush, a
second look for the debrief, and a commit that inserts or overwrites the row.

A flush locks the rows it writes until the transaction ends. Each lock, read and
write is one step, and the steps of any number of calls interleave. What was
saved and enriched, and by which call, is recorded in commit order; no operation
of the source reads it.
-/

namespace Apm.Debriefs

open Apm.Lib
open Apm.Conversation (Turns)

set_option autoImplicit false

structure DebriefError where
  original : String
  correction : String
  rule : String
  errorType : String
  explanation : String
  examples : List String
  alternatives : List String
  deriving DecidableEq, Repr

structure VocabularyWord where
  word : String
  phonetic : String
  translation : String
  exampleSentence : String
  deriving DecidableEq, Repr

/-- What the LLM made of a session. -/
structure DebriefResult where
  cefrEstimate : String
  summary : String
  errors : List DebriefError
  words : List VocabularyWord
  deriving DecidableEq, Repr

/-- A row of `debriefs`. -/
structure Debrief where
  cefrEstimate : String
  summary : String
  errors : List DebriefError
  deriving DecidableEq, Repr

/-- `_MAX_RECURRING_FOCUS`. -/
def maxRecurringFocus : Nat := 3

/-- `str.isspace` of one character. -/
def isSpace (c : Char) : Bool :=
  (9 ≤ c.toNat && c.toNat ≤ 13) || (28 ≤ c.toNat && c.toNat ≤ 32) || c.toNat = 0x85 ||
    c.toNat = 0xa0 || c.toNat = 0x1680 || (0x2000 ≤ c.toNat && c.toNat ≤ 0x200a) ||
    c.toNat = 0x2028 || c.toNat = 0x2029 || c.toNat = 0x202f || c.toNat = 0x205f ||
    c.toNat = 0x3000

/-- `str.strip`. -/
def strip (s : String) : String :=
  String.ofList (((s.toList.dropWhile isSpace).reverse.dropWhile isSpace).reverse)

/-- `_stage_memory` on a loaded profile: the memory summary it is left with. -/
def stageMemory (stripPersistentInstructions : String → String) (memorySummary summary : String)
    (errors : List DebriefError) : String :=
  let errorTypes := (errors.map DebriefError.errorType).filter (· ≠ "")
  let details := stripPersistentInstructions summary
  let details :=
    if errorTypes = [] then details
    else
      let focus := ", ".intercalate (errorTypes.take maxRecurringFocus)
      strip s!"{details} Recurring focus: {focus}."
  if details = "" then memorySummary else stripPersistentInstructions details

/-- A save: the result it comes from, none for a session without a conversation,
and the columns as the call loaded them. -/
structure Save where
  result : Option DebriefResult
  level : String
  /-- the memory summary of the profile, if there is one -/
  memory : Option String
  deriving DecidableEq, Repr

/-- `user.cefr_level` when the save flushes. -/
def Save.newLevel (save : Save) : String :=
  match save.result with
  | none => save.level
  | some result => nextCefrLevel save.level result.cefrEstimate

/-- `profile.memory_summary` when the save flushes. -/
def Save.newMemory (stripPersistentInstructions : String → String) (save : Save) : Option String :=
  match save.result with
  | none => save.memory
  | some result => save.memory.map fun memory =>
      stageMemory stripPersistentInstructions memory result.summary result.errors

/-- The row the save writes. -/
def Save.debrief (save : Save) : Debrief :=
  match save.result with
  | none => ⟨save.level, "Pas encore de conversation à analyser.", []⟩
  | some result => ⟨result.cefrEstimate, result.summary, result.errors⟩

/-- The `UPDATE` of a loaded row: it writes the columns that changed. -/
def Debrief.overwrite (loaded mutated row : Debrief) : Debrief where
  cefrEstimate := writeColumn loaded.cefrEstimate mutated.cefrEstimate row.cefrEstimate
  summary := writeColumn loaded.summary mutated.summary row.summary
  errors := writeColumn loaded.errors mutated.errors row.errors

inductive Phase where
  | entered
  /-- with the level `get_current_user` loaded -/
  | waiting (level : String)
  | locking (level : String)
  | check (level : String)
  | read (level : String)
  | boundary
  | analyze
  | reloadUser (result : DebriefResult)
  | reloadProfile (result : DebriefResult) (level : String)
  | flushUser (save : Save)
  | flushProfile (save : Save)
  | select (save : Save)
  | commit (save : Save) (existing : Option Debrief)
  /-- after the rollback of a unique violation -/
  | recover (save : Save)
  | refresh (save : Save)
  | enrich (result : DebriefResult) (debrief : Debrief)
  /-- it returned the stored debrief; its transaction is still open -/
  | close (debrief : Debrief)
  /-- it returned a debrief or raised -/
  | done (answer : Option Debrief)
  deriving DecidableEq, Repr

structure Setup (ι : Type) where
  /-- the worker process of a call -/
  process : ι → Nat
  userId : ι → Int
  /-- the owner of the session, if it exists -/
  owner : Option Int
  transcript : Turns
  /-- `strip_persistent_instructions` -/
  stripPersistentInstructions : String → String
  /-- whether an attribute that a rollback expired is loaded again when it is read
  outside of a statement, or the read raises -/
  lazyLoads : Bool

/-- The learner has spoken. -/
def Setup.spoken {ι : Type} (S : Setup ι) : Bool :=
  match S.transcript with
  | some (_ :: _) => true
  | _ => false

structure World (ι : Type) where
  /-- `users.cefr_level` -/
  level : String
  /-- `learner_profiles.memory_summary`, if the learner has a profile -/
  memorySummary : Option String
  debrief : Option Debrief
  generationLocks : Nat → Option ι
  advisoryLock : Option ι
  userRow : Option ι
  profileRow : Option ι
  phase : ι → Phase
  saves : List (ι × Debrief)
  enriched : List (ι × DebriefResult)

inductive Action (ι : Type) where
  /-- the next lock, statement or commit of the call -/
  | advance (i : ι)
  /-- the LLM returns a result, or the analysis raises -/
  | analyze (i : ι) (result : Option DebriefResult)
  deriving DecidableEq

/-- The call that takes the step. -/
def Action.call {ι : Type} : Action ι → ι
  | .advance i => i
  | .analyze i _ => i

variable {ι : Type} [DecidableEq ι]

def World.setPhase (w : World ι) (i : ι) (p : Phase) : World ι :=
  { w with phase := Function.update w.phase i p }

/-- The transaction of the call ends and frees what it locked. -/
def World.endTransaction (w : World ι) (i : ι) : World ι :=
  { w with
    advisoryLock := if w.advisoryLock = some i then none else w.advisoryLock
    userRow := if w.userRow = some i then none else w.userRow
    profileRow := if w.profileRow = some i then none else w.profileRow }

/-- The call leaves the lock of its process. -/
def World.unlock (S : Setup ι) (w : World ι) (i : ι) : World ι :=
  { w with generationLocks := Function.update w.generationLocks (S.process i) none }

/-- The call ends. -/
def World.finish (S : Setup ι) (w : World ι) (i : ι) (answer : Option Debrief) : World ι :=
  ((w.unlock S i).endTransaction i).setPhase i (.done answer)

/-- The commit of a save: the debrief, the level and the memory in one. -/
def World.store (S : Setup ι) (w : World ι) (i : ι) (save : Save) (row : Debrief) : World ι :=
  { w with
    level := writeColumn save.level save.newLevel w.level
    memorySummary :=
      writeColumn save.memory (save.newMemory S.stripPersistentInstructions) w.memorySummary
    debrief := some row
    saves := w.saves ++ [(i, save.debrief)] }

/-- The next step of a call, from its phase. -/
def advance (S : Setup ι) (w : World ι) (i : ι) : Phase → Option (World ι)
  | .entered =>
    if S.owner = some (S.userId i) then some (w.setPhase i (.waiting w.level))
    else some (w.setPhase i (.done none))
  | .waiting level =>
    if w.generationLocks (S.process i) = none then
      some ({ w with generationLocks :=
        Function.update w.generationLocks (S.process i) (some i) }.setPhase i (.locking level))
    else none
  | .locking level =>
    if w.advisoryLock = none then
      some ({ w with advisoryLock := some i }.setPhase i (.check level))
    else none
  | .check level =>
    match w.debrief with
    | some debrief => some ((w.unlock S i).setPhase i (.close debrief))
    | none => some (w.setPhase i (.read level))
  | .read level =>
    if S.spoken then some (w.setPhase i .boundary)
    else some (w.setPhase i (.select ⟨none, level, none⟩))
  | .boundary => some ((w.endTransaction i).setPhase i .analyze)
  | .analyze => none
  | .reloadUser result => some (w.setPhase i (.reloadProfile result w.level))
  | .reloadProfile result level =>
    some (w.setPhase i (.flushUser ⟨some result, level, w.memorySummary⟩))
  | .flushUser save =>
    if save.newLevel = save.level then some (w.setPhase i (.flushProfile save))
    else if w.userRow = none then
      some ({ w with userRow := some i }.setPhase i (.flushProfile save))
    else none
  | .flushProfile save =>
    if save.newMemory S.stripPersistentInstructions = save.memory then
      some (w.setPhase i (.select save))
    else if w.profileRow = none then
      some ({ w with profileRow := some i }.setPhase i (.select save))
    else none
  | .select save => some (w.setPhase i (.commit save w.debrief))
  | .commit save none =>
    match w.debrief with
    | none => some (((w.store S i save save.debrief).endTransaction i).setPhase i (.refresh save))
    -- the unique violation: what was staged is rolled back
    | some _ => some ((w.endTransaction i).setPhase i (.recover save))
  | .commit save (some loaded) =>
    match w.debrief with
    | none => some (w.finish S i none)
    | some row => some (((w.store S i save (loaded.overwrite save.debrief row)).endTransaction
        i).setPhase i (.refresh save))
  | .recover save =>
    match w.debrief, save.result with
    | none, _ => some (w.finish S i none)
    | some debrief, none => some (w.finish S i (some debrief))
    -- `user.id` is read on a user that the rollback expired
    | some debrief, some result =>
      if S.lazyLoads then some (w.setPhase i (.enrich result debrief))
      else some (w.finish S i none)
  | .refresh save =>
    match w.debrief, save.result with
    | none, _ => some (w.finish S i none)
    | some debrief, none => some (w.finish S i (some debrief))
    | some debrief, some result => some (w.setPhase i (.enrich result debrief))
  | .enrich result debrief =>
    some { w.finish S i (some debrief) with enriched := w.enriched ++ [(i, result)] }
  | .close debrief => some ((w.endTransaction i).setPhase i (.done (some debrief)))
  | .done _ => none

def step (S : Setup ι) (w : World ι) : Action ι → Option (World ι)
  | .advance i => advance S w i (w.phase i)
  | .analyze i result =>
    match w.phase i with
    | .analyze =>
      match result with
      | some result => some (w.setPhase i (.reloadUser result))
      | none => some (w.finish S i none)
    | _ => none

/-- No call has begun, and the session has no debrief. -/
def World.init (level : String) (memorySummary : Option String) : World ι where
  level := level
  memorySummary := memorySummary
  debrief := none
  generationLocks := fun _ => none
  advisoryLock := none
  userRow := none
  profileRow := none
  phase := fun _ => .entered
  saves := []
  enriched := []

end Apm.Debriefs
