import Apm.Offline.OfflineTurnSync
import Apm.Streaming.Frames
import Mathlib.Data.Rat.Defs

/-!
# The client of a streamed turn

The client splits the response into lines, collects the lines of a frame and reads the
frames as events of the turn, until the frame that says that the turn is done. A payload
that cannot be read is skipped. `jsonDecode` is a parameter of this file: `none` is its
`FormatException`.
-/

namespace Apm.Streaming

open Apm.Lib
open Apm.Offline (ApiException)

set_option autoImplicit false

/-- What `jsonDecode` returns. -/
inductive Json where
  | null
  | bool (value : Bool)
  | number (value : ℚ)
  | string (value : String)
  | array (items : List Json)
  | object (members : List (String × Json))

def Member.toJson : Member → Json
  | .text value => .string value
  | .texts values => .array (values.map .string)

/-- The JSON value of a payload. -/
def jsonOf (data : Payload) : Json := .object (data.map fun m => (m.1, m.2.toJson))

/-- The characters that `String.trim` removes. -/
def isWhitespace (c : Char) : Bool :=
  decide (9 ≤ c.toNat ∧ c.toNat ≤ 13 ∨ 0x2000 ≤ c.toNat ∧ c.toNat ≤ 0x200A) ||
    [0x20, 0x85, 0xA0, 0x1680, 0x2028, 0x2029, 0x202F, 0x205F, 0x3000, 0xFEFF].contains c.toNat

structure SseEvent where
  event : List Char
  data : List Char
  deriving DecidableEq, Repr

/-- The buffered frame, if any. -/
def dispatch (event : Option (List Char)) (data : List (List Char)) : List SseEvent :=
  if data ≠ [] ∨ event ≠ none then
    [⟨event.getD ['m', 'e', 's', 's', 'a', 'g', 'e'], ['\n'].intercalate data⟩]
  else []

/-- The loop of `parseSse`, with the frame so far. -/
def parseSseFrom (event : Option (List Char)) (data : List (List Char)) :
    List (List Char) → List SseEvent
  | [] => dispatch event data
  | line :: rest =>
    if line = [] then dispatch event data ++ parseSseFrom none [] rest
    else if [':'] <+: line then parseSseFrom event data rest
    else if eventField <+: line then
      parseSseFrom (some (trim isWhitespace (line.drop eventField.length))) data rest
    else if dataField <+: line then
      parseSseFrom event (data ++ [trim isWhitespace (line.drop dataField.length)]) rest
    else parseSseFrom event data rest

def parseSse (lines : List (List Char)) : List SseEvent := parseSseFrom none [] lines

/-- `as String? ?? default`; a value of another type throws. -/
def asStringOr (default : String) : Option Json → Option String
  | none | some .null => some default
  | some (.string value) => some value
  | some _ => none

/-- `as List?`, each element `as String`. -/
def asStrings : Option Json → Option (List String)
  | none | some .null => some []
  | some (.array items) => items.mapM fun item =>
      match item with
      | .string value => some value
      | _ => none
  | some _ => none

/-- `TurnCorrection.fromJson`. -/
def TurnCorrection.fromJson (json : List (String × Json)) : Option TurnCorrection := do
  let original ← asStringOr "" (json.lookup "original")
  let correction ← asStringOr "" (json.lookup "correction")
  let rule ← asStringOr "" (json.lookup "rule")
  let alternatives ← asStrings (json.lookup "alternatives")
  pure ⟨original, correction, rule, alternatives⟩

section client

variable (jsonDecode : List Char → Option Json)

/-- The object in a payload, if the payload is one. -/
def decodeObject (data : List Char) : Option (List (String × Json)) :=
  if data = [] then none
  else
    match jsonDecode data with
    | some (.object members) => some members
    | _ => none

def sseChunkText (data : List Char) : Option String := do
  match (← decodeObject jsonDecode data).lookup "text" with
  | some (.string text) => pure text
  | _ => none

/-- `_parseAudio`. -/
def parseAudio (data : List Char) : Option TurnEvent := do
  let decoded ← decodeObject jsonDecode data
  match decoded.lookup "audio" with
  | some (.string b64) =>
    if b64 = "" then none
    else pure (.audio b64 (← asStringOr "audio/mpeg" (decoded.lookup "mime")))
  | _ => none

/-- `_parseCorrection`. -/
def parseCorrection (data : List Char) : Option TurnCorrection := do
  TurnCorrection.fromJson (← decodeObject jsonDecode data)

/-- The events that one frame yields. -/
def yields (e : SseEvent) : Option TurnEvent :=
  if e.event = FrameName.chunk.text then
    match sseChunkText jsonDecode e.data with
    | some text => if text = "" then none else some (.sentence text)
    | none => none
  else if e.event = FrameName.audio.text then parseAudio jsonDecode e.data
  else if e.event = FrameName.correction.text then
    (parseCorrection jsonDecode e.data).map .correction
  else none

/-- The exception of `streamTurn` at an `error` frame. -/
def replyFailed : ApiException :=
  ⟨502, "LlmProviderError", "The assistant could not reply"⟩

/-- `streamTurn` over the frames: the events it yields, and what it throws. -/
def streamTurn : List SseEvent → List TurnEvent × Option ApiException
  | [] => ([], none)
  | e :: rest =>
    if e.event = FrameName.done.text then ([], none)
    else if e.event = FrameName.error.text then ([], some replyFailed)
    else
      let (events, thrown) := streamTurn rest
      ((yields jsonDecode e).toList ++ events, thrown)

/-- What the client makes of a response. -/
def receive (text : List Char) : List TurnEvent × Option ApiException :=
  streamTurn jsonDecode (parseSse (lines text))

end client

end Apm.Streaming
