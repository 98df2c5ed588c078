import Apm.Lib.Lines
import Mathlib.Tactic.Common

/-!
# The frames of a streamed turn

`/turn/stream` sends one server-sent event for each sentence, audio clip and correction of
a turn, and a last one when the turn is done or has failed. The payload of a frame is a
JSON object on one line: `json.dumps` escapes every control character below U+0020 and
leaves all other characters as they are.
-/

namespace Apm.Streaming

open Apm.Lib

set_option autoImplicit false

/-- `TurnCorrection`. -/
structure TurnCorrection where
  original : String
  correction : String
  rule : String
  alternatives : List String
  deriving DecidableEq, Repr

/-- `ReplyChunk`, `AudioChunk` and `CorrectionReady` of the server: `ReplySentence`,
`AudioClip` and `CorrectionEvent` of the client. -/
inductive TurnEvent where
  | sentence (text : String)
  | audio (audioB64 mime : String)
  | correction (correction : TurnCorrection)
  deriving DecidableEq, Repr

/-- A member of a payload. -/
inductive Member where
  | text (value : String)
  | texts (values : List String)
  deriving DecidableEq, Repr

/-- The data of a frame: a dict of strings and lists of strings. -/
abbrev Payload := List (String × Member)

/-! ## `json.dumps` with `ensure_ascii=False` -/

/-- `ESCAPE_DCT`, and `\u` with four digits for the other control characters. -/
def escape (c : Char) : List Char :=
  if c = '"' then ['\\', '"']
  else if c = '\\' then ['\\', '\\']
  else if c = '\n' then ['\\', 'n']
  else if c = '\r' then ['\\', 'r']
  else if c = '\t' then ['\\', 't']
  else if c.toNat = 8 then ['\\', 'b']
  else if c.toNat = 12 then ['\\', 'f']
  else if c.toNat < 32 then
    ['\\', 'u', '0', '0', Nat.digitChar (c.toNat / 16), Nat.digitChar (c.toNat % 16)]
  else [c]

def dumpsText (value : String) : List Char := '"' :: (value.toList.flatMap escape ++ ['"'])

def dumpsMember : Member → List Char
  | .text value => dumpsText value
  | .texts values => '[' :: ([',', ' '].intercalate (values.map dumpsText) ++ [']'])

def dumps (data : Payload) : List Char :=
  '{' :: ([',', ' '].intercalate
    (data.map fun m => dumpsText m.1 ++ ':' :: ' ' :: dumpsMember m.2) ++ ['}'])

/-! ## The stream of the server -/

/-- The names of the frames. -/
inductive FrameName where
  | chunk
  | audio
  | correction
  | done
  | error
  deriving DecidableEq, Repr

def FrameName.text : FrameName → List Char
  | .chunk => ['c', 'h', 'u', 'n', 'k']
  | .audio => ['a', 'u', 'd', 'i', 'o']
  | .correction => ['c', 'o', 'r', 'r', 'e', 'c', 't', 'i', 'o', 'n']
  | .done => ['d', 'o', 'n', 'e']
  | .error => ['e', 'r', 'r', 'o', 'r']

/-- `event:` -/
def eventField : List Char := ['e', 'v', 'e', 'n', 't', ':']

/-- `data:` -/
def dataField : List Char := ['d', 'a', 't', 'a', ':']

def eventLine (event : FrameName) : List Char := eventField ++ ' ' :: event.text

def dataLine (data : Payload) : List Char := dataField ++ ' ' :: dumps data

/-- `_sse`. -/
def sse (event : FrameName) (data : Payload) : List Char :=
  eventLine event ++ '\n' :: (dataLine data ++ ['\n', '\n'])

def TurnEvent.name : TurnEvent → FrameName
  | .sentence _ => .chunk
  | .audio .. => .audio
  | .correction _ => .correction

def TurnEvent.data : TurnEvent → Payload
  | .sentence text => [("text", .text text)]
  | .audio audioB64 mime => [("audio", .text audioB64), ("mime", .text mime)]
  | .correction c => [("original", .text c.original), ("correction", .text c.correction),
      ("rule", .text c.rule), ("alternatives", .texts c.alternatives)]

def TurnEvent.frame (e : TurnEvent) : List Char := sse e.name e.data

def doneFrame : List Char := sse .done []

def errorFrame (message : String) : List Char := sse .error [("message", .text message)]

/-- How `stream_prepared` ends. -/
inductive StreamEnd where
  | completed
  | llmProviderError
  | failed
  deriving DecidableEq, Repr

/-- `event_stream`. -/
def eventStream (events : List TurnEvent) (ended : StreamEnd) : List Char :=
  events.flatMap TurnEvent.frame ++
    match ended with
    | .completed => doneFrame
    | .llmProviderError => errorFrame "LLM provider failed"
    | .failed => errorFrame "Turn failed"

/-- `_replay_completed`. -/
def replayCompleted (reply : String) : List Char :=
  (TurnEvent.sentence reply).frame ++ doneFrame

/-! ## One payload is one line -/

/-- No character of the text ends a line. -/
def Unbroken (text : List Char) : Prop := ∀ c ∈ text, isBreak c = false

instance (text : List Char) : Decidable (Unbroken text) :=
  List.decidableBAll (fun c => isBreak c = false) text

section unbroken

variable {text more : List Char} {c : Char}

theorem unbroken_nil : Unbroken [] := fun _ h => absurd h List.not_mem_nil

theorem Unbroken.cons (hc : isBreak c = false) (h : Unbroken text) : Unbroken (c :: text) :=
  List.forall_mem_cons.mpr ⟨hc, h⟩

theorem Unbroken.append (h : Unbroken text) (hmore : Unbroken more) : Unbroken (text ++ more) :=
  List.forall_mem_append.mpr ⟨h, hmore⟩

theorem Unbroken.initial (h : Unbroken more) (hp : text <+: more) : Unbroken text :=
  fun c hc => h c (hp.subset hc)

theorem unbroken_intercalate {separator : List Char} {parts : List (List Char)}
    (hsep : Unbroken separator) (h : ∀ part ∈ parts, Unbroken part) :
    Unbroken (separator.intercalate parts) := by
  induction parts with
  | nil => exact unbroken_nil
  | cons part rest ih =>
    have hrest := ih fun p hp => h p (List.mem_cons_of_mem _ hp)
    cases rest with
    | nil => simpa [List.intercalate] using h part List.mem_cons_self
    | cons next rest =>
      rw [List.intercalate_cons_cons]
      exact ((h part List.mem_cons_self).append hsep).append hrest

theorem digitChar_unbroken : ∀ n < 16, isBreak (Nat.digitChar n) = false := by decide

theorem escape_unbroken (c : Char) : Unbroken (escape c) := by
  unfold escape
  split_ifs with hquote hslash hline hreturn htab hback hform hcontrol
  · decide
  · decide
  · decide
  · decide
  · decide
  · decide
  · decide
  · have hhigh := digitChar_unbroken (c.toNat / 16) (by omega)
    have hlow := digitChar_unbroken (c.toNat % 16) (by omega)
    have hdigits := (unbroken_nil.cons hlow).cons hhigh
    exact (show Unbroken ['\\', 'u', '0', '0'] by decide).append hdigits
  · refine .cons ?_ unbroken_nil
    simp [isBreak, hline, hreturn]

theorem dumpsText_unbroken (value : String) : Unbroken (dumpsText value) := by
  refine Unbroken.cons rfl (Unbroken.append (fun d hd => ?_) (.cons rfl unbroken_nil))
  obtain ⟨c, -, hc⟩ := List.mem_flatMap.mp hd
  exact escape_unbroken c d hc

theorem dumpsMember_unbroken (m : Member) : Unbroken (dumpsMember m) := by
  cases m with
  | text value => exact dumpsText_unbroken value
  | texts values =>
    refine .cons rfl (.append (unbroken_intercalate (by decide) fun part hpart => ?_)
      (.cons rfl unbroken_nil))
    obtain ⟨value, -, rfl⟩ := List.mem_map.mp hpart
    exact dumpsText_unbroken value

/-- A payload never spans two lines, whatever its texts. -/
theorem dumps_unbroken (data : Payload) : Unbroken (dumps data) := by
  refine .cons rfl (.append (unbroken_intercalate (by decide) fun part hpart => ?_)
    (.cons rfl unbroken_nil))
  obtain ⟨m, -, rfl⟩ := List.mem_map.mp hpart
  exact (dumpsText_unbroken m.1).append (.cons rfl (.cons rfl (dumpsMember_unbroken m.2)))

end unbroken

end Apm.Streaming
