import Apm.Debriefs.Service
import Apm.Lib.Table
import Apm.Review.Scheduler

/-!
# The erasure of a learner's voice data

The rows of one learner that derive from speech, with their foreign keys to the
sessions, and the purge over them. The purge locks the user row and then runs one
statement for each table; the rows a statement selects are fixed when it starts
and are gone for the others when the purge commits. Deleting a session deletes
its transcript and its debrief, and clears the session of a vocabulary entry.
-/

namespace Apm.VoiceData

open Apm.Core Apm.Lib Apm.Review Apm.Debriefs
open Apm.Conversation (Message)

set_option autoImplicit false

structure ConversationSession where
  id : Nat
  endedAt : Option Instant
  deriving DecidableEq, Repr

structure Transcript where
  sessionId : Nat
  turns : List Message
  deriving DecidableEq, Repr

structure DebriefRow where
  sessionId : Nat
  debrief : Debrief
  deriving DecidableEq, Repr

structure VocabularyEntry where
  word : String
  sessionId : Option Nat
  phonetic : String
  translation : String
  example_ : String
  deriving DecidableEq, Repr

/-- A row of `analytics_events`: its name and properties. -/
inductive AnalyticsEvent where
  | sessionCompleted (sessionId : Nat) (cefr : String) (errorCount : Nat)
  | activation
  deriving DecidableEq, Repr

/-- `_DEFAULT_CEFR`. -/
def defaultCefr : String := "A1"

/-- The rows of one learner. A transcript and a debrief belong to a session. -/
structure Rows where
  sessions : Table ConversationSession.id
  transcripts : Table Transcript.sessionId
  debriefs : Table DebriefRow.sessionId
  vocabulary : Table VocabularyEntry.word
  reviewItems : Table ReviewItem.errorType
  analyticsEvents : List AnalyticsEvent
  /-- `users.cefr_level` -/
  cefrLevel : String
  /-- `learner_profiles.memory_summary`, if the learner has a profile -/
  memorySummary : Option String
  transcriptSession : ∀ s ∈ transcripts.keys, s ∈ sessions.keys
  debriefSession : ∀ s ∈ debriefs.keys, s ∈ sessions.keys

/-- The statements of the purge after the lock of the user row, in their order. -/
inductive Statement where
  | transcripts
  | debriefs
  | vocabulary
  | reviewItems
  | sessions
  | analyticsEvents
  | memorySummary
  | userStats
  deriving DecidableEq, Repr

def Statement.next : Statement → Option Statement
  | .transcripts => some .debriefs
  | .debriefs => some .vocabulary
  | .vocabulary => some .reviewItems
  | .reviewItems => some .sessions
  | .sessions => some .analyticsEvents
  | .analyticsEvents => some .memorySummary
  | .memorySummary => some .userStats
  | .userStats => none

/-- The rows the purge has written and not committed. -/
structure Staged where
  transcripts : List Nat
  debriefs : List Nat
  vocabulary : List String
  reviewItems : List String
  sessions : List Nat
  /-- the first events of the table -/
  analyticsEvents : Nat
  memorySummary : Bool
  userStats : Bool
  deriving DecidableEq, Repr

def Staged.none : Staged := ⟨[], [], [], [], [], 0, false, false⟩

/-- The rows a statement selects when it starts, beside those staged before. -/
def Statement.select (rows : Rows) (staged : Staged) : Statement → Staged
  | .transcripts => { staged with transcripts := rows.transcripts.keys }
  | .debriefs => { staged with debriefs := rows.debriefs.keys }
  | .vocabulary => { staged with vocabulary := rows.vocabulary.keys }
  | .reviewItems => { staged with reviewItems := rows.reviewItems.keys }
  | .sessions => { staged with sessions := rows.sessions.keys }
  | .analyticsEvents => { staged with analyticsEvents := rows.analyticsEvents.length }
  | .memorySummary => { staged with memorySummary := rows.memorySummary.any (· ≠ "") }
  | .userStats => { staged with userStats := rows.cefrLevel ≠ defaultCefr }

/-- Deleting the rows that refer to a deleted one keeps the reference. -/
theorem mem_keys_of_cascade {κ ρ σ : Type} [DecidableEq κ] {key : ρ → κ} {key' : σ → κ}
    {t : Table key} {t' : Table key'} (h : ∀ k ∈ t.keys, k ∈ t'.keys) {staged gone : List κ} (k : κ)
    (hk : k ∈ (t.delete fun r => key r ∈ staged || key r ∈ gone).keys) :
    k ∈ (t'.delete fun r => key' r ∈ gone).keys := by
  obtain ⟨row, hrow⟩ := Table.mem_keys_iff.mp hk
  rw [Table.get_delete, Option.filter_eq_some_iff] at hrow
  obtain ⟨parent, hparent⟩ := Table.mem_keys_iff.mp (h k (Table.mem_keys_iff.mpr ⟨row, hrow.1⟩))
  refine Table.mem_keys_iff.mpr ⟨parent, ?_⟩
  rw [Table.get_delete, hparent, Option.filter_some, if_pos]
  have hout := hrow.2
  rw [Table.key_of_get hrow.1] at hout
  rw [Table.key_of_get hparent]
  simp only [Bool.not_or, Bool.and_eq_true] at hout
  exact hout.2

/-- The commit of the purge, with what the foreign keys do on a deleted session. -/
def Rows.erase (rows : Rows) (staged : Staged) : Rows where
  sessions := rows.sessions.delete fun r => r.id ∈ staged.sessions
  transcripts := rows.transcripts.delete fun r =>
    r.sessionId ∈ staged.transcripts || r.sessionId ∈ staged.sessions
  debriefs := rows.debriefs.delete fun r =>
    r.sessionId ∈ staged.debriefs || r.sessionId ∈ staged.sessions
  vocabulary := (rows.vocabulary.delete fun r => r.word ∈ staged.vocabulary).update
    (fun r => r.sessionId.any (· ∈ staged.sessions)) (fun r => { r with sessionId := none })
    fun _ => rfl
  reviewItems := rows.reviewItems.delete fun r => r.errorType ∈ staged.reviewItems
  analyticsEvents := rows.analyticsEvents.drop staged.analyticsEvents
  cefrLevel := if staged.userStats then defaultCefr else rows.cefrLevel
  memorySummary := if staged.memorySummary then rows.memorySummary.map fun _ => "" else
    rows.memorySummary
  transcriptSession := mem_keys_of_cascade rows.transcriptSession
  debriefSession := mem_keys_of_cascade rows.debriefSession

/-- Where the purge stands. A statement is started with a snapshot and ended later. -/
inductive PurgePhase where
  | entered
  | start (s : Statement) (staged : Staged)
  | finish (s : Statement) (staged found : Staged)
  | commit (staged : Staged)
  | committed
  | rolledBack
  deriving DecidableEq, Repr

namespace PurgePhase

/-- The purge holds the user row. -/
def holdsUser : PurgePhase → Bool
  | .start .. | .finish .. | .commit _ => true
  | _ => false

/-- The rows the purge has locked. -/
def staged : PurgePhase → Staged
  | .start _ staged | .finish _ staged _ | .commit staged => staged
  | _ => .none

end PurgePhase

/-- The next step of `purge`. -/
def purge (rows : Rows) : PurgePhase → Option (Rows × PurgePhase)
  | .entered => some (rows, .start .transcripts .none)
  | .start s staged => some (rows, .finish s staged (s.select rows staged))
  | .finish s _ found =>
    match s.next with
    | some s => some (rows, .start s found)
    | none => some (rows, .commit found)
  | .commit staged => some (rows.erase staged, .committed)
  | .committed | .rolledBack => none

/-- What an erasure leaves of the learner's speech. -/
structure Erased (rows : Rows) : Prop where
  sessions : rows.sessions.keys = []
  transcripts : rows.transcripts.keys = []
  debriefs : rows.debriefs.keys = []
  vocabulary : rows.vocabulary.keys = []
  reviewItems : rows.reviewItems.keys = []
  analyticsEvents : rows.analyticsEvents = []
  memorySummary : ∀ memory ∈ rows.memorySummary, memory = ""

/-- The selected rows of one table are all its rows. The transcripts and debriefs
that are committed meanwhile fall with their sessions. -/
def Covers (rows : Rows) (staged : Staged) : Statement → Prop
  | .transcripts | .debriefs | .userStats => True
  | .vocabulary => ∀ k ∈ rows.vocabulary.keys, k ∈ staged.vocabulary
  | .reviewItems => ∀ k ∈ rows.reviewItems.keys, k ∈ staged.reviewItems
  | .sessions => ∀ k ∈ rows.sessions.keys, k ∈ staged.sessions
  | .analyticsEvents => staged.analyticsEvents = rows.analyticsEvents.length
  | .memorySummary => staged.memorySummary = true ∨ ∀ memory ∈ rows.memorySummary, memory = ""

theorem delete_keys_eq_nil {κ ρ : Type} [DecidableEq κ] {key : ρ → κ} {t : Table key}
    {p : ρ → Bool} (h : ∀ k r, t.get k = some r → p r = true) : (t.delete p).keys = [] := by
  rw [List.eq_nil_iff_forall_not_mem]
  intro k hk
  obtain ⟨r, hr⟩ := Table.mem_keys_iff.mp hk
  rw [Table.get_delete, Option.filter_eq_some_iff] at hr
  rw [h k r hr.1] at hr
  cases hr.2

/-- A statement covers its own table when it starts, and leaves the others alone. -/
theorem covers_select (rows : Rows) (staged : Staged) (s : Statement) :
    Covers rows (s.select rows staged) s ∧
      ∀ s', s' ≠ s → Covers rows staged s' → Covers rows (s.select rows staged) s' := by
  constructor
  · cases s with
    | memorySummary =>
      cases hmemory : rows.memorySummary with
      | none => exact .inr fun memory hm => by rw [hmemory] at hm; cases hm
      | some memory =>
        by_cases hempty : memory = ""
        · refine .inr fun m hm => ?_
          rw [hmemory] at hm
          exact Option.some.inj hm ▸ hempty
        · left
          simp [Statement.select, hmemory, hempty]
    | analyticsEvents => rfl
    | transcripts | debriefs | userStats => trivial
    | _ => exact fun k hk => hk
  · intro s' hne hcovers
    cases s <;> cases s' <;> first | exact absurd rfl hne | exact hcovers

/-- **The commit of the purge** erases what its statements cover. -/
theorem erased_of_covers {rows : Rows} {staged : Staged} (h : ∀ s, Covers rows staged s) :
    Erased (rows.erase staged) where
  sessions := delete_keys_eq_nil fun k r hr => by
    have hk := h .sessions k (Table.mem_keys_iff.mpr ⟨r, hr⟩)
    rw [← Table.key_of_get hr] at hk
    exact decide_eq_true hk
  transcripts := delete_keys_eq_nil fun k r hr => by
    have hk := h .sessions k (rows.transcriptSession k (Table.mem_keys_iff.mpr ⟨r, hr⟩))
    rw [← Table.key_of_get hr] at hk
    simp only [hk, decide_true, Bool.or_true]
  debriefs := delete_keys_eq_nil fun k r hr => by
    have hk := h .sessions k (rows.debriefSession k (Table.mem_keys_iff.mpr ⟨r, hr⟩))
    rw [← Table.key_of_get hr] at hk
    simp only [hk, decide_true, Bool.or_true]
  vocabulary := by
    rw [Rows.erase, Table.keys_update]
    refine delete_keys_eq_nil fun k r hr => ?_
    have hk := h .vocabulary k (Table.mem_keys_iff.mpr ⟨r, hr⟩)
    rw [← Table.key_of_get hr] at hk
    exact decide_eq_true hk
  reviewItems := delete_keys_eq_nil fun k r hr => by
    have hk := h .reviewItems k (Table.mem_keys_iff.mpr ⟨r, hr⟩)
    rw [← Table.key_of_get hr] at hk
    exact decide_eq_true hk
  analyticsEvents := by
    rw [Rows.erase, show staged.analyticsEvents = _ from h .analyticsEvents]
    exact List.drop_length
  memorySummary := fun memory hm => by
    have hcovers : staged.memorySummary = true ∨ ∀ memory ∈ rows.memorySummary, memory = "" :=
      h .memorySummary
    simp only [Rows.erase, Option.mem_def] at hm
    rcases hcovers with hstaged | hempty
    · rw [if_pos hstaged] at hm
      obtain ⟨old, -, rfl⟩ := Option.map_eq_some_iff.mp hm
      rfl
    · split at hm
      · obtain ⟨old, -, rfl⟩ := Option.map_eq_some_iff.mp hm
        rfl
      · exact hempty memory hm

end Apm.VoiceData
