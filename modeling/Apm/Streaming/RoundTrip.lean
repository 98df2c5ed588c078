import Apm.Streaming.Client

/-!
# A streamed turn arrives

What the server sends for a turn the client reads back, event by event, and a response that
is cut anywhere yields the events before the cut and nothing else. Of `jsonDecode` this
uses that it reads the payloads of the turn and no proper prefix of one.
-/

namespace Apm.Streaming

open Apm.Lib
open Apm.Offline (ApiException)

set_option autoImplicit false

/-- Sentences and clips are not empty. -/
def TurnEvent.Sendable : TurnEvent → Prop
  | .sentence text => text ≠ ""
  | .audio audioB64 _ => audioB64 ≠ ""
  | .correction _ => True

instance (e : TurnEvent) : Decidable e.Sendable := by
  cases e <;> unfold TurnEvent.Sendable <;> infer_instance

/-! ## Lines of a frame -/

section parse

variable (event : Option (List Char)) (data : List (List Char)) (value : List Char)
  (rest : List (List Char))

theorem parse_eventField : parseSseFrom event data ((eventField ++ value) :: rest) =
    parseSseFrom (some (trim isWhitespace value)) data rest := by
  have hcomment : ¬[':'] <+: eventField ++ value := by simp [eventField]
  rw [parseSseFrom, if_neg (by simp [eventField]), if_neg hcomment,
    if_pos (List.prefix_append _ _), List.drop_left]

theorem parse_dataField : parseSseFrom event data ((dataField ++ value) :: rest) =
    parseSseFrom event (data ++ [trim isWhitespace value]) rest := by
  have hcomment : ¬[':'] <+: dataField ++ value := by simp [dataField]
  have hevent : ¬eventField <+: dataField ++ value := by simp [dataField, eventField]
  rw [parseSseFrom, if_neg (by simp [dataField]), if_neg hcomment, if_neg hevent,
    if_pos (List.prefix_append _ _), List.drop_left]

/-- A line without a field is passed over, also a comment. -/
theorem parse_other {line : List Char} (hline : line ≠ []) (hevent : ¬eventField <+: line)
    (hdata : ¬dataField <+: line) :
    parseSseFrom event data (line :: rest) = parseSseFrom event data rest := by
  rw [parseSseFrom, if_neg hline, if_neg hevent, if_neg hdata, ite_self]

/-- A field that is cut is none. -/
theorem parse_cut_field {cut field : List Char} (hfield : field = eventField ∨ field = dataField)
    (hcut : cut <+: field) (hnil : cut ≠ []) (hne : cut ≠ field) :
    parseSseFrom event data (cut :: rest) = parseSseFrom event data rest := by
  have hpart : ¬field <+: cut := fun h => hne (hcut.eq_of_length_le h.length_le)
  obtain rfl | rfl := hfield
  · refine parse_other event data rest hnil hpart fun h => ?_
    exact absurd (h.trans hcut) (by decide)
  · refine parse_other event data rest hnil (fun h => ?_) hpart
    exact absurd (h.trans hcut) (by decide)

theorem parse_blank : parseSseFrom event data ([] :: rest) =
    dispatch event data ++ parseSseFrom none [] rest := rfl

end parse

theorem trim_dumps (data : Payload) : trim isWhitespace (' ' :: dumps data) = dumps data := by
  rw [trim_cons_space rfl, dumps]
  exact trim_eq_self rfl rfl

theorem trim_name (event : FrameName) : trim isWhitespace (' ' :: event.text) = event.text := by
  cases event <;> decide

theorem eventLine_unbroken (event : FrameName) : Unbroken (eventLine event) := by
  cases event <;> decide

theorem dataLine_unbroken (data : Payload) : Unbroken (dataLine data) :=
  (show Unbroken dataField by decide).append ((dumps_unbroken data).cons rfl)

theorem lines_sse (event : FrameName) (data : Payload) (rest : List Char) :
    lines (sse event data ++ rest) = eventLine event :: dataLine data :: [] :: lines rest := by
  have hblank : lines ('\n' :: rest) = [] :: lines rest :=
    lines_append_newline unbroken_nil rest
  simp only [sse, List.append_assoc, List.cons_append, List.nil_append]
  rw [lines_append_newline (eventLine_unbroken event),
    lines_append_newline (dataLine_unbroken data), hblank]

/-- A whole frame is read as it was sent. -/
theorem parse_sse (event : FrameName) (data : Payload) (rest : List Char) :
    parseSse (lines (sse event data ++ rest)) =
      ⟨event.text, dumps data⟩ :: parseSse (lines rest) := by
  rw [lines_sse, parseSse, eventLine, parse_eventField, trim_name, dataLine, parse_dataField,
    trim_dumps, parse_blank]
  simp [dispatch, parseSse]

/-! ## A frame that is cut -/

/-- What is left of a trimmed text when its end is missing. -/
theorem trim_cut {c : Char} {text cut : List Char} (hc : isWhitespace c = false)
    (h : cut <+: ' ' :: c :: text) : trim isWhitespace cut <+: c :: text := by
  cases cut with
  | nil => exact List.nil_prefix
  | cons d cut =>
    obtain ⟨rfl, hcut⟩ := List.cons_prefix_cons.mp h
    rw [trim_cons_space rfl]
    cases cut with
    | nil => exact List.nil_prefix
    | cons d cut =>
      obtain ⟨rfl, -⟩ := List.cons_prefix_cons.mp hcut
      exact (trim_isPrefix hc).trans hcut

/-- The first line of a frame, cut. -/
theorem parse_eventLine_cut {event : FrameName} {cut : List Char} (h : cut <+: eventLine event) :
    parseSse (lines cut) = [] ∨ ∃ name, name <+: event.text ∧ parseSse (lines cut) = [⟨name, []⟩] := by
  rw [lines_unterminated ((eventLine_unbroken event).initial h)]
  split_ifs with hnil
  · exact .inl rfl
  obtain hfield | ⟨value, rfl, hvalue⟩ := prefix_append_cases h
  · by_cases hwhole : cut = eventField
    · subst hwhole
      exact .inr ⟨[], List.nil_prefix, parse_eventField none [] [] []⟩
    · exact .inl (parse_cut_field none [] [] (.inl rfl) hfield hnil hwhole)
  · refine .inr ⟨trim isWhitespace value, ?_, parse_eventField none [] value []⟩
    cases event <;> exact trim_cut rfl hvalue

/-- The second line of a frame, cut: what is left of its payload. -/
theorem parse_dataLine_cut (event : FrameName) {data : Payload} {cut : List Char}
    (h : cut <+: dataLine data) : ∃ left, left <+: dumps data ∧
      parseSseFrom (some event.text) [] (lines cut) = [⟨event.text, left⟩] := by
  rw [lines_unterminated ((dataLine_unbroken data).initial h)]
  split_ifs with hnil
  · exact ⟨[], List.nil_prefix, rfl⟩
  obtain hfield | ⟨value, rfl, hvalue⟩ := prefix_append_cases h
  · by_cases hwhole : cut = dataField
    · subst hwhole
      refine ⟨[], List.nil_prefix, ?_⟩
      exact parse_dataField (some event.text) [] [] []
    · refine ⟨[], List.nil_prefix, ?_⟩
      exact parse_cut_field (some event.text) [] [] (.inr rfl) hfield hnil hwhole
  · refine ⟨trim isWhitespace value, trim_cut rfl hvalue, ?_⟩
    have hparse := parse_dataField (some event.text) [] value []
    simpa [parseSseFrom, dispatch] using hparse

/-- A frame that is cut is read as nothing, or under a part of its name without a payload,
or under its name with a part of its payload. -/
theorem parse_cut {event : FrameName} {data : Payload} {cut : List Char} (h : cut <+: sse event data) :
    parseSse (lines cut) = [] ∨
      (∃ name, name <+: event.text ∧ parseSse (lines cut) = [⟨name, []⟩]) ∨
      ∃ left, left <+: dumps data ∧ parseSse (lines cut) = [⟨event.text, left⟩] := by
  have hfirst : ∀ rest, parseSse (lines (eventLine event ++ '\n' :: rest)) =
      parseSseFrom (some event.text) [] (lines rest) := fun rest => by
    rw [lines_append_newline (eventLine_unbroken event), parseSse, eventLine, parse_eventField,
      trim_name]
  obtain hline | ⟨rest, rfl, hrest⟩ := prefix_append_cases h
  · exact (parse_eventLine_cut hline).imp id .inl
  cases rest with
  | nil =>
    rw [List.append_nil]
    exact (parse_eventLine_cut List.prefix_rfl).imp id .inl
  | cons c rest =>
    obtain ⟨rfl, htail⟩ := List.cons_prefix_cons.mp hrest
    refine .inr (.inr ?_)
    rw [hfirst]
    obtain hline | ⟨blank, rfl, hblank⟩ := prefix_append_cases htail
    · exact parse_dataLine_cut event hline
    cases blank with
    | nil =>
      rw [List.append_nil]
      exact parse_dataLine_cut event List.prefix_rfl
    | cons c blank =>
      obtain ⟨rfl, hblank'⟩ := List.cons_prefix_cons.mp hblank
      refine ⟨dumps data, List.prefix_rfl, ?_⟩
      rw [lines_append_newline (dataLine_unbroken data), dataLine, parse_dataField, trim_dumps]
      obtain rfl | rfl : blank = [] ∨ blank = ['\n'] := by
        rcases List.prefix_cons_iff.mp hblank' with rfl | ⟨blank', rfl, hnil⟩
        · exact .inl rfl
        · exact .inr (by rw [List.prefix_nil.mp hnil])
      · simp [lines, linesFrom, parseSseFrom, dispatch]
      · simp [lines, linesFrom, parseSseFrom, dispatch]

/-! ## The events of a frame -/

section events

variable {jsonDecode : List Char → Option Json}

theorem asStrings_texts (values : List String) :
    asStrings (some (.array (values.map .string))) = some values := by
  simp only [asStrings]
  induction values with
  | nil => rfl
  | cons value rest ih => simp_all [List.mapM_cons]

theorem decodeObject_dumps {data : Payload} (h : jsonDecode (dumps data) = some (jsonOf data)) :
    decodeObject jsonDecode (dumps data) = some (data.map fun m => (m.1, m.2.toJson)) := by
  rw [decodeObject, if_neg (by simp [dumps]), h]
  rfl

theorem yields_chunk (data : List Char) : yields jsonDecode ⟨FrameName.chunk.text, data⟩ =
    match sseChunkText jsonDecode data with
    | some text => if text = "" then none else some (.sentence text)
    | none => none := if_pos rfl

theorem yields_audio (data : List Char) :
    yields jsonDecode ⟨FrameName.audio.text, data⟩ = parseAudio jsonDecode data := by
  have hchunk : FrameName.audio.text ≠ FrameName.chunk.text := by decide
  rw [yields, if_neg hchunk, if_pos rfl]

theorem yields_correction (data : List Char) : yields jsonDecode ⟨FrameName.correction.text, data⟩ =
    (parseCorrection jsonDecode data).map .correction := by
  have hchunk : FrameName.correction.text ≠ FrameName.chunk.text := by decide
  have haudio : FrameName.correction.text ≠ FrameName.audio.text := by decide
  rw [yields, if_neg hchunk, if_neg haudio, if_pos rfl]

/-- The payload of an event is read as that event. -/
theorem yields_event {e : TurnEvent} (hsend : e.Sendable)
    (hdecode : jsonDecode (dumps e.data) = some (jsonOf e.data)) :
    yields jsonDecode ⟨e.name.text, dumps e.data⟩ = some e := by
  have hobject := decodeObject_dumps hdecode
  cases e with
  | sentence text =>
    have htext : sseChunkText jsonDecode (dumps (TurnEvent.sentence text).data) = some text := by
      rw [sseChunkText, hobject]
      rfl
    have hne : text ≠ "" := hsend
    rw [TurnEvent.name, yields_chunk, htext]
    exact if_neg hne
  | audio audioB64 mime =>
    have hne : audioB64 ≠ "" := hsend
    have hclip : parseAudio jsonDecode (dumps (TurnEvent.audio audioB64 mime).data) =
        some (.audio audioB64 mime) := by
      rw [parseAudio, hobject]
      change (if audioB64 = "" then none else some (TurnEvent.audio audioB64 mime)) = _
      rw [if_neg hne]
    rw [TurnEvent.name, yields_audio, hclip]
  | correction c =>
    have hcorrection : parseCorrection jsonDecode (dumps (TurnEvent.correction c).data) = some c := by
      rw [parseCorrection, hobject]
      change (asStrings (some (.array (c.alternatives.map .string)))).bind
        (fun alternatives => some (TurnCorrection.mk c.original c.correction c.rule alternatives)) = _
      rw [asStrings_texts]
      rfl
    rw [TurnEvent.name, yields_correction, hcorrection]
    rfl

/-- A payload that cannot be read yields no event. -/
theorem yields_unread {event data : List Char} (h : data = [] ∨ jsonDecode data = none) :
    yields jsonDecode ⟨event, data⟩ = none := by
  have hobject : decodeObject jsonDecode data = none := by
    unfold decodeObject
    rcases h with rfl | h
    · rfl
    · rw [h]
      split <;> rfl
  have htext : sseChunkText jsonDecode data = none := by rw [sseChunkText, hobject]; rfl
  have hclip : parseAudio jsonDecode data = none := by rw [parseAudio, hobject]; rfl
  have hcorrection : parseCorrection jsonDecode data = none := by
    rw [parseCorrection, hobject]
    rfl
  simp [yields, htext, hclip, hcorrection]

end events

/-! ## The stream -/

section stream

variable {jsonDecode : List Char → Option Json}

/-- `jsonDecode` reads the payload of the event, and no proper prefix of it. -/
structure Decodes (jsonDecode : List Char → Option Json) (e : TurnEvent) : Prop where
  whole : jsonDecode (dumps e.data) = some (jsonOf e.data)
  cut : ∀ left, left <+: dumps e.data → left ≠ dumps e.data → jsonDecode left = none

theorem name_not_end (e : TurnEvent) {name : List Char} (h : name <+: e.name.text) :
    name ≠ FrameName.done.text ∧ name ≠ FrameName.error.text := by
  constructor <;> rintro rfl <;> cases e <;> simp [TurnEvent.name, FrameName.text] at h

theorem receive_frame {e : TurnEvent} (hsend : e.Sendable) (hdecode : Decodes jsonDecode e)
    (rest : List Char) : receive jsonDecode (e.frame ++ rest) =
      (e :: (receive jsonDecode rest).1, (receive jsonDecode rest).2) := by
  obtain ⟨hdone, herror⟩ := name_not_end e List.prefix_rfl
  rw [receive, TurnEvent.frame, parse_sse, streamTurn, if_neg hdone, if_neg herror,
    yields_event hsend hdecode.whole]
  rfl

theorem receive_done (rest : List Char) : receive jsonDecode (doneFrame ++ rest) = ([], none) := by
  rw [receive, doneFrame, parse_sse, streamTurn, if_pos rfl]

theorem receive_frame_cut {e : TurnEvent} (hsend : e.Sendable) (hdecode : Decodes jsonDecode e)
    {cut : List Char} (h : cut <+: e.frame) :
    receive jsonDecode cut = ([], none) ∨ receive jsonDecode cut = ([e], none) := by
  have hsingle : ∀ {name left : List Char}, name <+: e.name.text →
      streamTurn jsonDecode [⟨name, left⟩] = ((yields jsonDecode ⟨name, left⟩).toList, none) := by
    intro name left hname
    obtain ⟨hdone, herror⟩ := name_not_end e hname
    rw [streamTurn, if_neg hdone, if_neg herror]
    simp [streamTurn]
  obtain hparse | ⟨name, hname, hparse⟩ | ⟨left, hleft, hparse⟩ := parse_cut h
  · exact .inl (by rw [receive, hparse, streamTurn])
  · exact .inl (by rw [receive, hparse, hsingle hname, yields_unread (.inl rfl)]; rfl)
  · rw [receive, hparse, hsingle List.prefix_rfl]
    by_cases hwhole : left = dumps e.data
    · rw [hwhole, yields_event hsend hdecode.whole]
      exact .inr rfl
    · rw [yields_unread (.inr (hdecode.cut left hleft hwhole))]
      exact .inl rfl

theorem receive_done_cut {cut : List Char} (h : cut <+: doneFrame) :
    receive jsonDecode cut = ([], none) := by
  have hsilent : ∀ {name left : List Char}, name <+: FrameName.done.text →
      left = [] ∨ name = FrameName.done.text → streamTurn jsonDecode [⟨name, left⟩] = ([], none) := by
    intro name left hname hleft
    have herror : name ≠ FrameName.error.text := by
      rintro rfl
      exact absurd hname (by decide)
    rw [streamTurn]
    split_ifs with hdone
    · rfl
    · rw [yields_unread (.inl (hleft.resolve_right hdone))]
      rfl
  obtain hparse | ⟨name, hname, hparse⟩ | ⟨left, -, hparse⟩ := parse_cut h
  · rw [receive, hparse, streamTurn]
  · rw [receive, hparse, hsilent hname (.inl rfl)]
  · rw [receive, hparse, hsilent List.prefix_rfl (.inr rfl)]

variable {events : List TurnEvent}

/-- Behind the frames of some events the client goes on with the rest of the stream. -/
theorem receive_frames (hsend : ∀ e ∈ events, e.Sendable)
    (hdecode : ∀ e ∈ events, Decodes jsonDecode e) (rest : List Char) :
    receive jsonDecode (events.flatMap TurnEvent.frame ++ rest) =
      (events ++ (receive jsonDecode rest).1, (receive jsonDecode rest).2) := by
  induction events with
  | nil => rfl
  | cons e events ih =>
    have htail := ih (fun d hd => hsend d (List.mem_cons_of_mem _ hd))
      (fun d hd => hdecode d (List.mem_cons_of_mem _ hd))
    rw [List.flatMap_cons, List.append_assoc,
      receive_frame (hsend e List.mem_cons_self) (hdecode e List.mem_cons_self), htail]
    rfl

theorem receive_frames_cut (hsend : ∀ e ∈ events, e.Sendable)
    (hdecode : ∀ e ∈ events, Decodes jsonDecode e) {cut : List Char}
    (h : cut <+: events.flatMap TurnEvent.frame ++ doneFrame) :
    (receive jsonDecode cut).1 <+: events ∧ (receive jsonDecode cut).2 = none := by
  induction events generalizing cut with
  | nil =>
    rw [receive_done_cut h]
    exact ⟨List.nil_prefix, rfl⟩
  | cons e events ih =>
    have hhead := hsend e List.mem_cons_self
    have hreads := hdecode e List.mem_cons_self
    rw [List.flatMap_cons, List.append_assoc] at h
    obtain hframe | ⟨tail, rfl, htail⟩ := prefix_append_cases h
    · obtain hnothing | hfirst := receive_frame_cut hhead hreads hframe
      · rw [hnothing]
        exact ⟨List.nil_prefix, rfl⟩
      · rw [hfirst]
        exact ⟨List.cons_prefix_cons.mpr ⟨rfl, List.nil_prefix⟩, rfl⟩
    · obtain ⟨hinitial, hnone⟩ := ih (fun d hd => hsend d (List.mem_cons_of_mem _ hd))
        (fun d hd => hdecode d (List.mem_cons_of_mem _ hd)) htail
      rw [receive_frame hhead hreads]
      exact ⟨List.cons_prefix_cons.mpr ⟨rfl, hinitial⟩, hnone⟩

theorem receive_doneFrame : receive jsonDecode doneFrame = ([], none) := by
  have hdone : receive jsonDecode (doneFrame ++ []) = ([], none) := receive_done []
  rwa [List.append_nil] at hdone

/-- A turn that fails arrives up to its failure, and then throws. -/
theorem failed_stream_throws (hsend : ∀ e ∈ events, e.Sendable)
    (hdecode : ∀ e ∈ events, Decodes jsonDecode e) {ended : StreamEnd} (h : ended ≠ .completed) :
    receive jsonDecode (eventStream events ended) = (events, some replyFailed) := by
  have herror : ∀ message, receive jsonDecode (errorFrame message) = ([], some replyFailed) := by
    intro message
    have hparse := parse_sse .error [("message", .text message)] []
    have hnot : FrameName.error.text ≠ FrameName.done.text := by decide
    rw [List.append_nil] at hparse
    rw [receive, errorFrame, hparse, streamTurn, if_neg hnot, if_pos rfl]
  cases ended with
  | completed => exact absurd rfl h
  | llmProviderError | failed =>
    rw [eventStream, receive_frames hsend hdecode, herror, List.append_nil]

/-- A replayed reply arrives as one sentence. -/
theorem replayed_reply_arrives {reply : String} (hne : reply ≠ "")
    (hdecode : Decodes jsonDecode (.sentence reply)) :
    receive jsonDecode (replayCompleted reply) = ([.sentence reply], none) := by
  have hsend : (TurnEvent.sentence reply).Sendable := hne
  rw [replayCompleted, receive_frame hsend hdecode, receive_doneFrame]

/-- **A streamed turn arrives.** For every list of events, with sentences and clips that are
not empty: the client reads the whole stream as exactly these events, and the stream cut at
any character as a prefix of them, and throws nothing. -/
theorem stream_round_trip (jsonDecode : List Char → Option Json) (events : List TurnEvent)
    (hsend : ∀ e ∈ events, e.Sendable) (hdecode : ∀ e ∈ events, Decodes jsonDecode e) :
    receive jsonDecode (eventStream events .completed) = (events, none) ∧
      ∀ cut, cut <+: eventStream events .completed →
        (receive jsonDecode cut).1 <+: events ∧ (receive jsonDecode cut).2 = none := by
  refine ⟨?_, fun cut hcut => receive_frames_cut hsend hdecode hcut⟩
  rw [eventStream, receive_frames hsend hdecode, receive_doneFrame, List.append_nil]

end stream

/-- A sentence with quotes and line breaks of three kinds, its clip, and a correction. -/
def spokenTurn : List TurnEvent :=
  [.sentence "\"ça\"\r\n\u2028", .audio "SGk=" "audio/mpeg", .correction ⟨"goed", "went", "past", ["left"]⟩]

/-- What `jsonDecode` makes of the payloads of a turn and of their parts. -/
def decodeOf (events : List TurnEvent) (text : List Char) : Option Json :=
  (events.find? fun e => dumps e.data = text).map fun e => jsonOf e.data

theorem decodes_of_find {events : List TurnEvent} {e : TurnEvent}
    (hwhole : events.find? (fun d => dumps d.data = dumps e.data) = some e)
    (hcut : ∀ left ∈ (dumps e.data).inits, left ≠ dumps e.data →
      events.find? (fun d => dumps d.data = left) = none) : Decodes (decodeOf events) e where
  whole := by rw [decodeOf, hwhole]; rfl
  cut := fun left hleft hne => by
    rw [decodeOf, hcut left ((List.mem_inits left _).mpr hleft) hne]
    rfl

theorem stream_round_trip_spoken_turn :
    receive (decodeOf spokenTurn) (eventStream spokenTurn .completed) = (spokenTurn, none) ∧
      ∀ cut, cut <+: eventStream spokenTurn .completed →
        (receive (decodeOf spokenTurn) cut).1 <+: spokenTurn ∧
          (receive (decodeOf spokenTurn) cut).2 = none := by
  refine stream_round_trip (decodeOf spokenTurn) spokenTurn (by decide) ?_
  have hchecked : ∀ e ∈ spokenTurn,
      spokenTurn.find? (fun d => dumps d.data = dumps e.data) = some e ∧
        ∀ left ∈ (dumps e.data).inits, left ≠ dumps e.data →
          spokenTurn.find? (fun d => dumps d.data = left) = none := by
    decide +kernel
  exact fun e he => decodes_of_find (hchecked e he).1 (hchecked e he).2

end Apm.Streaming
