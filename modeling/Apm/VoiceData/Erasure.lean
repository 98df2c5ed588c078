import Apm.Lib.Run
import Apm.VoiceData.Purge

/-!
# A purge beside requests in flight

Turns, session ends and debrief generations of the learner run beside one purge.
Each reads committed rows, asks an LLM without a transaction, and writes back.
The writes of one transaction are taken at its commit: the locks they hold until
then make the purge wait. A write waits for a row the purge has locked, a child of
a deleted session violates its foreign key, and an insert that refers to the user
waits while the purge holds the user row.

A debrief is stored before its enrichment, and the enrichment writes in
transactions of its own: vocabulary, which refers to the session, review items and
analytics events, which refer to the user only.
-/

namespace Apm.VoiceData

open Apm.Core Apm.Lib Apm.Review Apm.Debriefs
open Apm.Conversation (Message appendTurn)

set_option autoImplicit false

structure Setup where
  transcriptMaxMessages : Int
  /-- `strip_persistent_instructions` -/
  stripPersistentInstructions : String → String
  /-- `str.lower` -/
  lower : String → String
  /-- whether an attribute that a rollback expired is loaded again when it is read -/
  lazyLoads : Bool

inductive Request where
  | turn (sessionId : Nat) (text : String)
  | endSession (sessionId : Nat)
  | generate (sessionId : Nat)
  deriving DecidableEq, Repr

inductive Phase where
  | entered (request : Request)
  /-- a turn that waits for the reply of the LLM -/
  | reply (sessionId : Nat) (turns : List Message) (text : String)
  | persist (sessionId : Nat) (turns : List Message)
  /-- an end before the lock of the user row -/
  | close (sessionId : Nat)
  | check (sessionId : Nat) (level : String)
  | read (sessionId : Nat) (level : String)
  /-- a generation that waits for the LLM -/
  | analyze (sessionId : Nat)
  | reload (sessionId : Nat) (result : DebriefResult)
  | select (sessionId : Nat) (save : Save)
  | commit (sessionId : Nat) (save : Save) (existing : Option Debrief)
  /-- after the rollback of a violated constraint -/
  | recover (sessionId : Nat) (save : Save)
  | refresh (sessionId : Nat) (save : Save)
  /-- the enrichment: the words still to capture -/
  | capture (sessionId : Nat) (result : DebriefResult) (words : List VocabularyWord)
  | track (sessionId : Nat) (result : DebriefResult)
  | schedule (sessionId : Nat) (result : DebriefResult) (tracked : List ReviewItem)
  | count (sessionId : Nat) (result : DebriefResult)
  | complete (sessionId : Nat) (result : DebriefResult) (prior : Option Nat)
  | activate
  | ended
  deriving DecidableEq, Repr

structure World (ι : Type) where
  rows : Rows
  purge : PurgePhase
  phase : ι → Phase

inductive Action (ι : Type) where
  /-- the next statement of the purge -/
  | purge
  | rollbackPurge
  /-- the next statement of a request, with the clock it may read -/
  | advance (i : ι) (now : Instant)
  /-- the LLM answers a turn, or fails -/
  | reply (i : ι) (reply : Option String)
  /-- the LLM answers a generation, or fails -/
  | analyze (i : ι) (result : Option DebriefResult)
  /-- the statement of a request raises, or its transaction is rolled back -/
  | raise (i : ι)
  deriving DecidableEq

/-- The upsert of a transcript. -/
def Rows.saveTranscript (rows : Rows) (sessionId : Nat) (turns : List Message)
    (h : sessionId ∈ rows.sessions.keys) : Rows :=
  { rows with
    transcripts := rows.transcripts.upsert ⟨sessionId, turns⟩
    transcriptSession := fun s hs => (Table.mem_keys_upsert.mp hs).elim
      (rows.transcriptSession s) fun he => he ▸ h }

/-- The insert of a debrief, or the `UPDATE` of one that was loaded. -/
def Rows.saveDebrief (rows : Rows) (sessionId : Nat) (debrief : Debrief)
    (h : sessionId ∈ rows.sessions.keys) : Rows :=
  { rows with
    debriefs := rows.debriefs.upsert ⟨sessionId, debrief⟩
    debriefSession := fun s hs => (Table.mem_keys_upsert.mp hs).elim
      (rows.debriefSession s) fun he => he ▸ h }

/-- What a save stages on the user and the profile. -/
def Rows.stageCore (S : Setup) (rows : Rows) (save : Save) : Rows :=
  { rows with
    cefrLevel := writeColumn save.level save.newLevel rows.cefrLevel
    memorySummary := writeColumn save.memory (save.newMemory S.stripPersistentInstructions)
      rows.memorySummary }

/-- The columns of `end` that no other operation here reads are left out. -/
def Rows.endSession (rows : Rows) (sessionId : Nat) (now : Instant) : Rows :=
  { rows with
    sessions := rows.sessions.update (fun r => r.id = sessionId)
      (fun r => { r with endedAt := some now }) fun _ => rfl
    transcriptSession := fun s hs => by
      rw [Table.keys_update]
      exact rows.transcriptSession s hs
    debriefSession := fun s hs => by
      rw [Table.keys_update]
      exact rows.debriefSession s hs }

def Rows.capture (rows : Rows) (entry : VocabularyEntry) : Rows :=
  { rows with vocabulary := rows.vocabulary.upsert entry }

def Rows.record (rows : Rows) (items : List ReviewItem) : Rows :=
  { rows with reviewItems := items.foldl Table.upsert rows.reviewItems }

def Rows.emit (rows : Rows) (event : AnalyticsEvent) : Rows :=
  { rows with analyticsEvents := rows.analyticsEvents ++ [event] }

/-- `errors_seen` of `_schedule_review`: the first correction of each type. -/
def errorsSeen (errors : List DebriefError) : List (String × String) :=
  errors.foldl (fun seen e =>
    if strip e.errorType = "" ∨ e.errorType ∈ seen.map Prod.fst then seen
    else seen ++ [(e.errorType, e.correction)]) []

/-- The rows `record_session` is going to write. -/
def scheduled (result : DebriefResult) (tracked : List ReviewItem) (now : Instant) :
    List ReviewItem :=
  recordSession (fun t => strip t = "") tracked (errorsSeen result.errors) now

/-- The columns `capture` writes for a word. -/
def vocabularyEntry (S : Setup) (sessionId : Nat) (w : VocabularyWord) : VocabularyEntry :=
  ⟨S.lower (strip w.word), some sessionId, strip w.phonetic, strip w.translation,
    strip w.exampleSentence⟩

/-- The enrichment of a stored debrief. An empty list of words captures nothing. -/
def enrich (sessionId : Nat) (save : Save) : Phase :=
  match save.result with
  | none => .ended
  | some result => .capture sessionId result result.words

/-- The next statement of a request. -/
def advance (S : Setup) (rows : Rows) (purge : PurgePhase) (now : Instant) :
    Phase → Option (Rows × Phase)
  | .entered (.turn s text) =>
    match rows.sessions.get s with
    | none => some (rows, .ended)
    | some session =>
      if session.endedAt ≠ none then some (rows, .ended)
      else some (rows, .reply s (((rows.transcripts.get s).map Transcript.turns).getD []) text)
  | .entered (.endSession s) =>
    match rows.sessions.get s with
    | none => some (rows, .ended)
    | some session =>
      if session.endedAt ≠ none then some (rows, .ended) else some (rows, .close s)
  | .entered (.generate s) =>
    if s ∈ rows.sessions.keys then some (rows, .check s rows.cefrLevel) else some (rows, .ended)
  | .persist s turns =>
    if s ∈ purge.staged.transcripts ∨ s ∈ purge.staged.sessions then none
    else if h : s ∈ rows.sessions.keys then some (rows.saveTranscript s turns h, .ended)
    else some (rows, .ended)
  | .close s =>
    if purge.holdsUser then none
    else
      match rows.sessions.get s with
      | none => some (rows, .ended)
      | some session =>
        if session.endedAt ≠ none then some (rows, .ended)
        else some (rows.endSession s now, .ended)
  | .check s level =>
    if s ∈ rows.debriefs.keys then some (rows, .ended) else some (rows, .read s level)
  | .read s level =>
    match (rows.transcripts.get s).map Transcript.turns with
    | some (_ :: _) => some (rows, .analyze s)
    | _ => some (rows, .select s ⟨none, level, none⟩)
  | .reload s result =>
    some (rows, .select s ⟨some result, rows.cefrLevel, rows.memorySummary⟩)
  | .select s save =>
    some (rows, .commit s save ((rows.debriefs.get s).map DebriefRow.debrief))
  | .commit s save none =>
    if s ∈ purge.staged.debriefs ∨ s ∈ purge.staged.sessions then none
    else if s ∈ rows.debriefs.keys then some (rows, .recover s save)
    else if h : s ∈ rows.sessions.keys then
      some ((rows.saveDebrief s save.debrief h).stageCore S save, .refresh s save)
    else some (rows, .recover s save)
  | .commit s save (some loaded) =>
    -- an unchanged debrief is not written
    if save.debrief = loaded then some (rows.stageCore S save, .refresh s save)
    else if s ∈ purge.staged.debriefs ∨ s ∈ purge.staged.sessions then none
    else
      match h : rows.debriefs.get s with
      | none => some (rows, .ended)
      | some row =>
        some ((rows.saveDebrief s (loaded.overwrite save.debrief row.debrief)
            (rows.debriefSession s (Table.mem_keys_iff.mpr ⟨row, h⟩))).stageCore S save,
          .refresh s save)
  | .recover s save =>
    if s ∈ rows.debriefs.keys ∧ S.lazyLoads then some (rows, enrich s save)
    else some (rows, .ended)
  | .refresh s save =>
    if s ∈ rows.debriefs.keys then some (rows, enrich s save) else some (rows, .ended)
  | .capture s result [] => some (rows, .track s result)
  | .capture s result (w :: words) =>
    let entry := vocabularyEntry S s w
    if entry.word = "" then some (rows, .capture s result words)
    else if (rows.vocabulary.get entry.word).any (·.sessionId = some s) then
      if entry.word ∈ purge.staged.vocabulary then none
      else some (rows.capture entry, .capture s result words)
    else if entry.word ∈ purge.staged.vocabulary ∨ s ∈ purge.staged.sessions then none
    else if entry.word ∉ rows.vocabulary.keys ∧ purge.holdsUser then none
    else if s ∈ rows.sessions.keys then some (rows.capture entry, .capture s result words)
    else some (rows, .track s result)
  | .track s result => some (rows, .schedule s result rows.reviewItems.rows)
  | .schedule s result tracked =>
    let items := scheduled result tracked now
    if items.any fun item => item.errorType ∈ purge.staged.reviewItems ||
        (item.errorType ∉ rows.reviewItems.keys && purge.holdsUser) then none
    else some (rows.record items, .count s result)
  | .count s result =>
    some (rows, .complete s result (some (rows.analyticsEvents.countP (· ≠ .activation))))
  | .complete s result prior =>
    if purge.holdsUser then none
    else
      some (rows.emit (.sessionCompleted s result.cefrEstimate result.errors.length),
        if prior = some 0 then .activate else .ended)
  | .activate =>
    if purge.holdsUser then none
    else if .activation ∈ rows.analyticsEvents then some (rows, .ended)
    else some (rows.emit .activation, .ended)
  | .reply .. | .analyze _ | .ended => none

/-- Where an exception leads: the steps of the enrichment are isolated. -/
def raised : Phase → Option Phase
  | .capture s result _ => some (.track s result)
  | .track s result | .schedule s result _ => some (.count s result)
  | .count s result => some (.complete s result none)
  | .ended => none
  | _ => some .ended

variable {ι : Type} [DecidableEq ι]

def World.setPhase (w : World ι) (i : ι) (p : Phase) : World ι :=
  { w with phase := Function.update w.phase i p }

def step (S : Setup) (w : World ι) : Action ι → Option (World ι)
  | .purge => (purge w.rows w.purge).map fun (rows, p) => { w with rows := rows, purge := p }
  | .rollbackPurge =>
    if w.purge = .committed then none else some { w with purge := .rolledBack }
  | .advance i now =>
    (advance S w.rows w.purge now (w.phase i)).map fun (rows, p) =>
      { w.setPhase i p with rows := rows }
  | .reply i reply =>
    match w.phase i, reply with
    | .reply s turns text, some reply =>
      some (w.setPhase i (.persist s (appendTurn S.transcriptMaxMessages turns text reply)))
    | .reply .., none => some (w.setPhase i .ended)
    | _, _ => none
  | .analyze i result =>
    match w.phase i, result with
    | .analyze s, some result => some (w.setPhase i (.reload s result))
    | .analyze _, none => some (w.setPhase i .ended)
    | _, _ => none
  | .raise i => (raised (w.phase i)).map fun p => w.setPhase i p

/-- The requests before they begin, over the rows they find. -/
def World.init (rows : Rows) (request : ι → Request) : World ι where
  rows := rows
  purge := .entered
  phase := fun i => .entered (request i)

end Apm.VoiceData
