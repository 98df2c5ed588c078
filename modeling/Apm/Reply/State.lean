import Mathlib.Data.List.Basic

/-!
# The conversation on the screen

The state of the conversation view model, and the two writes of a reply to its turns. What a turn
says and what a correction is are arbitrary types.
-/

namespace Apm.Reply

set_option autoImplicit false

inductive ConversationStatus where
  | idle
  | listening
  | thinking
  | speaking
  deriving DecidableEq, Repr

/-- `kRoleUser`, `kRoleAssistant`. -/
inductive Role where
  | user
  | assistant
  deriving DecidableEq, Repr

structure ConversationTurn (γ κ : Type) where
  role : Role
  content : γ
  correction : Option κ
  deriving DecidableEq, Repr

structure ConversationState (γ κ : Type) where
  sessionId : Option Int
  turns : List (ConversationTurn γ κ)
  status : ConversationStatus
  error : Option String
  deriving DecidableEq, Repr

variable {γ κ : Type}

/-- The turns of `_setAssistantReply`: the reply grows in place. -/
def replyTurns (content : γ) (turns : List (ConversationTurn γ κ)) :
    List (ConversationTurn γ κ) :=
  match turns.getLast? with
  | some last =>
    if last.role = .assistant then turns.dropLast ++ [⟨.assistant, content, none⟩]
    else turns ++ [⟨.assistant, content, none⟩]
  | none => [⟨.assistant, content, none⟩]

/-- The loop of `_attachCorrection`, from the last turn back. -/
def correctFirst (correction : κ) : List (ConversationTurn γ κ) → List (ConversationTurn γ κ)
  | [] => []
  | t :: rest =>
    if t.role = .user then { t with correction := some correction } :: rest
    else t :: correctFirst correction rest

/-- The turns of `_attachCorrection`. -/
def correctTurns (correction : κ) (turns : List (ConversationTurn γ κ)) :
    List (ConversationTurn γ κ) :=
  (correctFirst correction turns.reverse).reverse

namespace ConversationState

/-- The state before a session. -/
def new : ConversationState γ κ := ⟨none, [], .idle, none⟩

def withStatus (status : ConversationStatus) (s : ConversationState γ κ) : ConversationState γ κ :=
  { s with status := status }

def listen (s : ConversationState γ κ) : ConversationState γ κ :=
  { s with status := .listening, error := none }

/-- The microphone could not be opened. -/
def micUnavailable (s : ConversationState γ κ) : ConversationState γ κ :=
  { s with error := some "Microphone is not available" }

/-- `copyWith` keeps the error where it is given none. -/
def fail (error : Option String) (s : ConversationState γ κ) : ConversationState γ κ :=
  { s with status := .idle, error := error.or s.error }

/-- A learner turn that is sent. -/
def say (content : γ) (s : ConversationState γ κ) : ConversationState γ κ :=
  { s with turns := s.turns ++ [⟨.user, content, none⟩], status := .thinking }

/-- `_setAssistantReply` -/
def setAssistantReply (content : γ) (s : ConversationState γ κ) : ConversationState γ κ :=
  { s with turns := replyTurns content s.turns, status := .speaking }

/-- `_attachCorrection` -/
def attachCorrection (correction : κ) (s : ConversationState γ κ) : ConversationState γ κ :=
  { s with turns := correctTurns correction s.turns }

end ConversationState

end Apm.Reply
