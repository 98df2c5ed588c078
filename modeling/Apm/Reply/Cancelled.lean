import Apm.Lib.Run
import Apm.Reply.State
import Mathlib.Data.Fintype.Basic
import Mathlib.Logic.Function.Basic

/-!
# A cancelled reply stays cancelled

Replies are streamed beside each other: a turn that was cancelled still reads its stream when the
next one begins. All of them share the flag that `cancel` sets. A call of `streamReplyAndSpeak`
clears it once its configuration is there, tests it beside its own liveness before and after every
event of the stream, and does not test it where the stream fails. Push-to-talk is live as long as
the screen is; the hands-free loop as long as it is wanted.

A turn goes on from its await when the environment says so. Which calls were cancelled, and what
was written, spoken and enqueued, is recorded; no method reads it.
-/

namespace Apm.Reply.Cancelled

open Apm.Lib

set_option autoImplicit false

structure TurnCorrection where
  original : String
  correction : String
  rule : String
  alternatives : List String
  deriving DecidableEq, Repr

inductive StreamEvent where
  | sentence (text : String)
  | audioClip (audioB64 mime : String)
  | correction (correction : TurnCorrection)
  deriving DecidableEq, Repr

/-- The two ways in: one response, or the hands-free loop. -/
inductive Mode where
  | pushToTalk
  | handsFree
  deriving DecidableEq, Repr

/-- The variables of a call of `streamReplyAndSpeak`. -/
structure Stream where
  serverTts : Bool
  buffer : String
  hasText : Bool
  deriving DecidableEq, Repr

/-- What a turn waits for. -/
inductive Phase where
  | before
  /-- the utterance -/
  | listening
  /-- the text of a recording -/
  | transcribing
  /-- the configuration, in `streamReplyAndSpeak` -/
  | config
  /-- the next event of the stream -/
  | streaming (stream : Stream)
  /-- the voice of the device -/
  | speaking (stream : Stream)
  /-- `recordFailedTurn` -/
  | recording
  /-- `streamReplyAndSpeak` has returned, or raised, to its caller -/
  | returned (carryOn : Bool)
  /-- the playback, in the loop -/
  | playing
  | ended
  deriving DecidableEq, Repr

/-- Where the utterance of a turn comes in. -/
def Mode.hearing : Mode → Phase
  | .pushToTalk => .transcribing
  | .handsFree => .listening

/-- The phases of `streamReplyAndSpeak`. -/
def Phase.replying : Phase → Bool
  | .config | .streaming _ | .speaking _ | .recording => true
  | _ => false

/-- The turn has begun and is not over. -/
def Phase.underWay : Phase → Bool
  | .before | .ended => false
  | _ => true

/-- The phases of the loop over the stream. -/
def Phase.streams : Phase → Bool
  | .streaming _ | .speaking _ => true
  | _ => false

structure World (ι : Type) where
  state : ConversationState String TurnCorrection
  mounted : Bool
  /-- `_cancelled` -/
  cancelled : Bool
  /-- `_conversing`, `_loopRunning`, and the turn the loop is in -/
  conversing : Bool
  loopRunning : Bool
  loopTurn : Option ι
  phase : ι → Phase
  /-- history: `cancel` was called during the reply -/
  wasCancelled : ι → Bool
  /-- history: the assignments to the state of the conversation -/
  writes : Nat
  spoken : List String
  clips : List (String × String)

inductive Action (ι : Type) where
  /-- the microphone is open for a turn -/
  | listen (i : ι)
  /-- the microphone cannot be opened for a turn -/
  | micUnavailable (i : ι)
  /-- the recording of a turn is cancelled, or finds no session -/
  | drop (i : ι)
  /-- the recording of a turn is over -/
  | transcribe (i : ι)
  /-- nothing to send, with the message for the learner -/
  | giveUp (i : ι) (error : Option String)
  | send (i : ι) (heard : String)
  | configured (i : ι) (serverTts : Bool)
  | configFailed (i : ι)
  | event (i : ι) (e : StreamEvent)
  | spoken (i : ι)
  | streamEnded (i : ι)
  /-- the stream fails, or the voice of the device does -/
  | failed (i : ι) (offline : Bool)
  | recorded (i : ι) (ok : Bool)
  /-- the caller goes on behind `streamReplyAndSpeak` -/
  | resume (i : ι)
  /-- the loop goes on behind the playback -/
  | played (i : ι)
  | cancel
  /-- the loop is no longer wanted -/
  | stop
  /-- the view model settles, with or without ending the session -/
  | settle (endSession : Bool)
  /-- a start of the view model ends, with a session or without one -/
  | activate (sessionId : Option Int) (turns : List (ConversationTurn String TurnCorrection))
    (error : Option String)
  | dispose
  deriving DecidableEq

variable {ι : Type} [DecidableEq ι]

namespace World

def setPhase (w : World ι) (i : ι) (p : Phase) : World ι :=
  { w with phase := Function.update w.phase i p }

/-- `_host.state = ...` -/
def write (w : World ι)
    (f : ConversationState String TurnCorrection → ConversationState String TurnCorrection) :
    World ι :=
  { w with state := f w.state, writes := w.writes + 1 }

/-- `isLive` of a turn. -/
def live (mode : ι → Mode) (w : World ι) (i : ι) : Bool :=
  match mode i with
  | .pushToTalk => w.mounted
  | .handsFree => w.conversing && w.mounted

/-- The `finally` of `stopAndRespond` and of `run`. -/
def finallyIdle (w : World ι) : World ι :=
  if w.mounted ∧ w.state.sessionId ≠ none ∧ w.state.status ≠ .idle then
    w.write (.withStatus .idle)
  else w

/-- The loop before a turn, of a new run or of the run it is in. -/
def enterLoop (w : World ι) : World ι :=
  { w with conversing := w.conversing || !w.loopRunning, loopRunning := true }

/-- The loop is over. -/
def leaveLoop (w : World ι) : World ι :=
  { w with conversing := false, loopRunning := false, loopTurn := none }.finallyIdle

/-- A turn is over before its reply, and the loop with it. -/
def leaveTurn (mode : ι → Mode) (w : World ι) (i : ι) : World ι :=
  match mode i with
  | .pushToTalk => w.setPhase i .ended
  | .handsFree => (w.setPhase i .ended).leaveLoop

/-- The test behind an event. -/
def goOn (mode : ι → Mode) (w : World ι) (i : ι) (stream : Stream) : World ι :=
  if w.live mode i = false ∨ w.cancelled = true then w.setPhase i (.returned false)
  else w.setPhase i (.streaming stream)

/-- What an event does that passes the test. -/
def act (mode : ι → Mode) (w : World ι) (i : ι) (stream : Stream) : StreamEvent → World ι
  | .sentence text =>
    let stream := { stream with
      buffer := stream.buffer ++ (if stream.hasText then " " ++ text else text)
      hasText := true }
    let w := w.write (.setAssistantReply stream.buffer)
    if stream.serverTts then w.goOn mode i stream
    else { w.setPhase i (.speaking stream) with spoken := w.spoken ++ [text] }
  | .audioClip audioB64 mime =>
    { w with clips := w.clips ++ [(audioB64, mime)] }.goOn mode i stream
  | .correction correction => (w.write (.attachCorrection correction)).goOn mode i stream

/-- The end of the `catch`. -/
def report (w : World ι) (i : ι) (offline : Bool) : World ι :=
  let w := w.setPhase i (.returned false)
  if w.mounted then
    w.write (.fail (some (if offline then "Hors ligne — ta phrase sera envoyée à la reconnexion"
      else "Could not get a reply")))
  else w

end World

/-- The next continuation of a turn. -/
def step (mode : ι → Mode) (w : World ι) : Action ι → Option (World ι)
  | .listen i =>
    if w.phase i ≠ .before then none
    else
      match mode i with
      | .pushToTalk =>
        if w.mounted then some ((w.setPhase i .listening).write .listen)
        else some (w.setPhase i .ended)
      | .handsFree =>
        if w.loopRunning = true ∧ w.loopTurn ≠ none then none
        else
          if w.enterLoop.live mode i = true ∧ w.state.sessionId ≠ none then
            some ({ w.enterLoop.setPhase i .listening with loopTurn := some i }.write .listen)
          else some (w.enterLoop.setPhase i .ended).leaveLoop
  | .micUnavailable i =>
    if w.phase i = .before ∧ mode i = .pushToTalk then
      if w.mounted then some ((w.setPhase i .ended).write .micUnavailable)
      else some (w.setPhase i .ended)
    else none
  | .drop i =>
    if w.phase i = .listening ∧ mode i = .pushToTalk then some (w.setPhase i .ended) else none
  | .transcribe i =>
    if w.phase i = .listening ∧ mode i = .pushToTalk then
      if w.mounted then some ((w.setPhase i .transcribing).write (.withStatus .thinking))
      else some (w.setPhase i .ended)
    else none
  | .giveUp i error =>
    if w.phase i ≠ .listening ∧ w.phase i ≠ .transcribing then none
    else if w.live mode i then some ((w.write (.fail error)).leaveTurn mode i)
    else some (w.leaveTurn mode i)
  | .send i heard =>
    if w.phase i ≠ (mode i).hearing then none
    else if w.live mode i then some ((w.setPhase i .config).write (.say heard))
    else some (w.leaveTurn mode i)
  | .configured i serverTts =>
    if w.phase i = .config then
      some { w.setPhase i (.streaming ⟨serverTts, "", false⟩) with cancelled := false }
    else none
  | .configFailed i =>
    if w.phase i = .config then some (w.setPhase i (.returned false)) else none
  | .event i e =>
    match w.phase i with
    | .streaming stream =>
      if w.live mode i = false ∨ w.cancelled = true then some (w.setPhase i (.returned false))
      else some (w.act mode i stream e)
    | _ => none
  | .spoken i =>
    match w.phase i with
    | .speaking stream => some (w.goOn mode i stream)
    | _ => none
  | .streamEnded i =>
    match w.phase i with
    | .streaming _ => some (w.setPhase i (.returned (w.live mode i)))
    | _ => none
  | .failed i offline =>
    if (w.phase i).streams = false then none
    else some (if offline then w.setPhase i .recording else w.report i false)
  | .recorded i ok =>
    if w.phase i = .recording then
      some (if ok then w.report i true else w.setPhase i (.returned false))
    else none
  | .resume i =>
    match w.phase i with
    | .returned carryOn =>
      match mode i with
      | .pushToTalk => some (w.setPhase i .ended).finallyIdle
      | .handsFree =>
        if carryOn then some (w.setPhase i .playing) else some (w.setPhase i .ended).leaveLoop
    | _ => none
  | .played i =>
    if w.phase i = .playing ∧ mode i = .handsFree then
      if w.live mode i then some { w.setPhase i .ended with loopTurn := none }
      else some (w.setPhase i .ended).leaveLoop
    else none
  | .cancel =>
    some { w with
      cancelled := true
      wasCancelled := fun i => w.wasCancelled i || (w.phase i).replying }
  | .stop => some { w with conversing := false }
  | .settle endSession =>
    if w.mounted then some (w.write (if endSession then fun _ => .new else .withStatus .idle))
    else none
  | .activate sessionId turns error =>
    if w.mounted then some (w.write fun _ => ⟨sessionId, turns, .idle, error⟩) else none
  | .dispose => some { w with mounted := false }

def World.init (sessionId : Int) : World ι where
  state := ⟨some sessionId, [], .idle, none⟩
  mounted := true
  cancelled := false
  conversing := false
  loopRunning := false
  loopTurn := none
  phase := fun _ => .before
  wasCancelled := fun _ => false
  writes := 0
  spoken := []
  clips := []

/-! ## The property and its condition -/

/-- The call of `streamReplyAndSpeak` that goes on. -/
def Action.call : Action ι → Option ι
  | .configured i _ | .configFailed i | .event i _ | .spoken i | .streamEnded i | .failed i _
  | .recorded i _ => some i
  | _ => none

/-- The caller of a call that has returned goes on. -/
def Action.caller : Action ι → Option ι
  | .resume i | .played i => some i
  | _ => none

/-- Nothing is written, spoken or enqueued. -/
structure Untouched (s t : World ι) : Prop where
  state : t.state = s.state
  writes : t.writes = s.writes
  spoken : t.spoken = s.spoken
  clips : t.clips = s.clips

/-- A turn other than `i`, that is under way and was not cancelled. -/
def World.LaterTurn (s : World ι) (i j : ι) : Prop :=
  j ≠ i ∧ (s.phase j).underWay = true ∧ s.wasCancelled j = false

/-- A cancelled call is silent, and its caller beside a later turn; a call that was not cancelled
does what its events say. -/
structure CancelledStep (mode : ι → Mode) (s : World ι) (a : Action ι) (t : World ι) : Prop where
  silent : ∀ i, a.call = some i → s.wasCancelled i = true → Untouched s t
  caller : ∀ i j, a.caller = some i → s.wasCancelled i = true → s.LaterTurn i j → Untouched s t
  heard : ∀ i e stream, a = .event i e → s.phase i = .streaming stream → s.live mode i = true →
    s.wasCancelled i = false → t = s.act mode i stream e ∧ (t.phase i).streams = true
  spoke : ∀ i stream, a = .spoken i → s.phase i = .speaking stream → s.live mode i = true →
    s.wasCancelled i = false → t.phase i = .streaming stream

/-- The caller leaves its turn by the `finally`. -/
def World.leaves (mode : ι → Mode) (s : World ι) (i : ι) : Bool :=
  match s.phase i, mode i with
  | .returned _, .pushToTalk => true
  | .returned carryOn, .handsFree => !carryOn
  | .playing, _ => !s.live mode i
  | _, _ => false

/-- The `finally` settles the state. -/
def World.Settles (s : World ι) : Prop :=
  s.mounted = true ∧ s.state.sessionId ≠ none ∧ s.state.status ≠ .idle

/-- The configuration of a call arrives when no cancelled call, it included, is still live in its
stream; a cancelled call does not report a failure; its caller does not settle the state beside a
later turn. -/
def Outlived (mode : ι → Mode) (s : World ι) (a : Action ι) (_ : World ι) : Prop :=
  match a with
  | .configured i _ => ∀ j, s.wasCancelled j = true → j = i ∨ (s.phase j).streams = true →
      s.live mode j = false
  | .failed i offline => offline = false → s.wasCancelled i = true → s.mounted = false
  | .recorded i ok => ok = true → s.wasCancelled i = true → s.mounted = false
  | .resume i | .played i => s.wasCancelled i = true → s.leaves mode i = true → s.Settles →
      ∀ j, ¬s.LaterTurn i j
  | _ => True

section decidable

variable [Fintype ι]

instance (s : World ι) (i j : ι) : Decidable (s.LaterTurn i j) := by
  unfold World.LaterTurn
  infer_instance

instance (s : World ι) : Decidable s.Settles := by
  unfold World.Settles
  infer_instance

instance (mode : ι → Mode) (s t : World ι) (a : Action ι) : Decidable (Outlived mode s a t) := by
  cases a <;> unfold Outlived <;> infer_instance

end decidable

/-! ## The frame of a turn -/

@[simp] theorem World.phase_setPhase_self (w : World ι) (i : ι) (p : Phase) :
    (w.setPhase i p).phase i = p := Function.update_self ..

theorem World.phase_setPhase_of_ne (w : World ι) {i j : ι} (h : j ≠ i) (p : Phase) :
    (w.setPhase i p).phase j = w.phase j := Function.update_of_ne h ..

@[simp] theorem World.phase_report (w : World ι) (i : ι) (offline : Bool) :
    (w.report i offline).phase i = .returned false := by
  simp only [World.report]
  split <;> exact w.phase_setPhase_self i _

/-- Only the phase of turn `i` has moved, beside the state and the history. -/
structure Frame (i : ι) (s t : World ι) : Prop where
  phase : ∀ j, j ≠ i → t.phase j = s.phase j
  mounted : t.mounted = s.mounted
  cancelled : t.cancelled = s.cancelled
  conversing : t.conversing = s.conversing
  loopRunning : t.loopRunning = s.loopRunning
  loopTurn : t.loopTurn = s.loopTurn
  wasCancelled : t.wasCancelled = s.wasCancelled

section frame

variable {mode : ι → Mode} {i : ι} {s t : World ι}

omit [DecidableEq ι] in
theorem frame_refl (s : World ι) : Frame i s s := ⟨fun _ _ => rfl, rfl, rfl, rfl, rfl, rfl, rfl⟩

namespace Frame

theorem setPhase (h : Frame i s t) (p : Phase) : Frame i s (t.setPhase i p) :=
  { h with phase := fun j hj => (t.phase_setPhase_of_ne hj p).trans (h.phase j hj) }

omit [DecidableEq ι] in
theorem write (h : Frame i s t)
    (f : ConversationState String TurnCorrection → ConversationState String TurnCorrection) :
    Frame i s (t.write f) := { h with }

omit [DecidableEq ι] in
theorem finallyIdle (h : Frame i s t) : Frame i s t.finallyIdle := by
  rw [World.finallyIdle]
  split_ifs
  · exact h.write _
  · exact h

theorem goOn (h : Frame i s t) (stream : Stream) : Frame i s (t.goOn mode i stream) := by
  rw [World.goOn]
  split_ifs <;> exact h.setPhase _

theorem act (h : Frame i s t) (stream : Stream) (e : StreamEvent) :
    Frame i s (t.act mode i stream e) := by
  cases e with
  | sentence text =>
    cases htts : stream.serverTts with
    | true =>
      simp only [World.act, htts, if_true]
      exact (h.write _).goOn _
    | false =>
      simp only [World.act, htts, Bool.false_eq_true, if_false]
      exact { (h.write _).setPhase _ with }
  | audioClip audioB64 mime =>
    have hclip : Frame i s { t with clips := t.clips ++ [(audioB64, mime)] } := { h with }
    exact hclip.goOn stream
  | correction correction => exact (h.write _).goOn stream

theorem report (h : Frame i s t) (offline : Bool) : Frame i s (t.report i offline) := by
  simp only [World.report]
  split
  · exact (h.setPhase _).write _
  · exact h.setPhase _

omit [DecidableEq ι] in
theorem live (h : Frame i s t) (j : ι) : t.live mode j = s.live mode j := by
  rw [World.live, World.live, h.mounted, h.conversing]

end Frame

end frame

/-! ## The invariant -/

/-- A cancelled call in its stream finds the flag set or is not live, and one that was not
cancelled finds the flag cleared; the hands-free turn under way is the one the loop is in. -/
structure Sound (mode : ι → Mode) (s : World ι) : Prop where
  silent : ∀ i, s.wasCancelled i = true → (s.phase i).streams = true →
    s.cancelled = true ∨ s.live mode i = false
  heard : ∀ i, (s.phase i).streams = true → s.wasCancelled i = false → s.cancelled = false
  loop : ∀ i, mode i = .handsFree → (s.phase i).underWay = true →
    s.loopRunning = true ∧ s.loopTurn = some i

section sound

variable {mode : ι → Mode} {i : ι} {s t : World ι}

omit [DecidableEq ι] in
theorem sound_init (sessionId : Int) : Sound mode (World.init sessionId : World ι) :=
  ⟨nofun, nofun, nofun⟩

omit [DecidableEq ι] in
/-- A turn that the loop is not in is over, or is none of the loop's. -/
theorem underWay_eq_false (hs : Sound mode s) (h : s.loopRunning = false ∨ s.loopTurn ≠ some i)
    (hmode : mode i = .handsFree) : (s.phase i).underWay = false := by
  cases hunder : (s.phase i).underWay with
  | false => rfl
  | true =>
    obtain ⟨hrunning, hturn⟩ := hs.loop i hmode hunder
    rcases h with hoff | hother
    · rw [hrunning] at hoff
      cases hoff
    · exact absurd hturn hother

omit [DecidableEq ι] in
/-- While a hands-free turn is under way, no other one is. -/
theorem other_underWay_eq_false (hs : Sound mode s) (hmode : mode i = .handsFree)
    (hunder : (s.phase i).underWay = true) (j : ι) (hj : j ≠ i) (hmodej : mode j = .handsFree) :
    (s.phase j).underWay = false := by
  refine underWay_eq_false hs (.inr fun hturn => hj ?_) hmodej
  rw [(hs.loop i hmode hunder).2] at hturn
  exact (Option.some.inj hturn).symm

/-- A turn that goes on, and is not new to its stream or to the loop. -/
theorem sound_frame (hs : Sound mode s) (h : Frame i s t)
    (hstreams : (t.phase i).streams = true → (s.phase i).streams = true)
    (hunder : mode i = .handsFree → (t.phase i).underWay = true → (s.phase i).underWay = true) :
    Sound mode t := by
  have hstreams' : ∀ j, (t.phase j).streams = true → (s.phase j).streams = true := by
    intro j hj
    by_cases hij : j = i
    · subst hij
      exact hstreams hj
    · rwa [h.phase j hij] at hj
  refine ⟨fun j hc hj => ?_, fun j hj hc => ?_, fun j hmode hj => ?_⟩
  · rw [h.wasCancelled] at hc
    rw [h.cancelled, h.live]
    exact hs.silent j hc (hstreams' j hj)
  · rw [h.wasCancelled] at hc
    rw [h.cancelled]
    exact hs.heard j (hstreams' j hj) hc
  · rw [h.loopRunning, h.loopTurn]
    by_cases hij : j = i
    · subst hij
      exact hs.loop j hmode (hunder hmode hj)
    · rw [h.phase j hij] at hj
      exact hs.loop j hmode hj

/-- A turn that is over, or that leaves its stream. -/
theorem sound_setPhase (hs : Sound mode s) {p : Phase} (hstreams : p.streams = false)
    (hunder : mode i = .handsFree → p.underWay = true → (s.phase i).underWay = true) :
    Sound mode (s.setPhase i p) := by
  refine sound_frame hs ((frame_refl s).setPhase p) ?_ ?_
  · rw [World.phase_setPhase_self, hstreams]
    nofun
  · rw [World.phase_setPhase_self]
    exact hunder

omit [DecidableEq ι] in
theorem sound_write (hs : Sound mode s)
    (f : ConversationState String TurnCorrection → ConversationState String TurnCorrection) :
    Sound mode (s.write f) := ⟨hs.silent, hs.heard, hs.loop⟩

omit [DecidableEq ι] in
theorem sound_finallyIdle (hs : Sound mode s) : Sound mode s.finallyIdle := by
  rw [World.finallyIdle]
  split_ifs
  · exact sound_write hs _
  · exact hs

omit [DecidableEq ι] in
theorem live_mono (hmounted : t.mounted = true → s.mounted = true)
    (hconversing : t.conversing = true → s.conversing = true) (j : ι)
    (h : t.live mode j = true) : s.live mode j = true := by
  rw [World.live] at h ⊢
  cases hmode : mode j with
  | pushToTalk =>
    rw [hmode] at h
    exact hmounted h
  | handsFree =>
    rw [hmode] at h
    obtain ⟨hconverses, hmounts⟩ := Bool.and_eq_true_iff.mp h
    exact Bool.and_eq_true_iff.mpr ⟨hconversing hconverses, hmounted hmounts⟩

omit [DecidableEq ι] in
/-- Fewer turns are live, and those of the loop that are under way stay in it. -/
theorem sound_of_live (hs : Sound mode s) (hphase : t.phase = s.phase)
    (hcancelled : t.cancelled = s.cancelled) (hwas : t.wasCancelled = s.wasCancelled)
    (hlive : ∀ j, t.live mode j = true → s.live mode j = true)
    (hloop : ∀ j, mode j = .handsFree → (s.phase j).underWay = true →
      t.loopRunning = true ∧ t.loopTurn = some j) : Sound mode t := by
  refine ⟨fun j hc hj => ?_, fun j hj hc => ?_, fun j hmode hj => ?_⟩
  · rw [hwas] at hc
    rw [hphase] at hj
    rw [hcancelled]
    exact (hs.silent j hc hj).imp_right fun hdead =>
      Bool.eq_false_iff.mpr fun ht => Bool.false_ne_true (hdead.symm.trans (hlive j ht))
  · rw [hwas] at hc
    rw [hphase] at hj
    rw [hcancelled]
    exact hs.heard j hj hc
  · rw [hphase] at hj
    exact hloop j hmode hj

omit [DecidableEq ι] in
/-- The loop is left when none of its turns is under way. -/
theorem sound_leaveLoop (hs : Sound mode s)
    (h : ∀ j, mode j = .handsFree → (s.phase j).underWay = false) : Sound mode s.leaveLoop := by
  apply sound_finallyIdle
  refine sound_of_live hs rfl rfl rfl (live_mono id nofun) fun j hmode hj => ?_
  rw [h j hmode] at hj
  cases hj

/-- The loop is left by the only turn it may be in. -/
theorem sound_leaveLoop_setPhase (hs : Sound mode s)
    (h : ∀ j, j ≠ i → mode j = .handsFree → (s.phase j).underWay = false) :
    Sound mode (s.setPhase i .ended).leaveLoop := by
  refine sound_leaveLoop (sound_setPhase hs rfl nofun) fun j hmode => ?_
  by_cases hij : j = i
  · subst hij
    rw [World.phase_setPhase_self]
    rfl
  · rw [World.phase_setPhase_of_ne s hij]
    exact h j hij hmode

/-- A turn in its stream goes on. -/
theorem sound_of_streams (hs : Sound mode s) (hstreams : (s.phase i).streams = true)
    (h : Frame i s t) : Sound mode t := by
  refine sound_frame hs h (fun _ => hstreams) fun _ _ => ?_
  cases hphase : s.phase i with
  | streaming | speaking => rfl
  | _ => rw [hphase] at hstreams; cases hstreams

/-- The loop begins a turn where none of its turns is under way. -/
theorem sound_beginTurn (hs : Sound mode s) (hmode : mode i = .handsFree)
    (h : ∀ j, mode j = .handsFree → (s.phase j).underWay = false) :
    Sound mode { s.enterLoop.setPhase i .listening with loopTurn := some i } := by
  have hstreams : ∀ j, ((s.setPhase i .listening).phase j).streams = true →
      (s.phase j).streams = true := by
    intro j hj
    by_cases hij : j = i
    · subst hij
      rw [World.phase_setPhase_self] at hj
      cases hj
    · rwa [World.phase_setPhase_of_ne s hij] at hj
  refine ⟨fun j hc hj => ?_, fun j hj hc => ?_, fun j hj hunder => ?_⟩
  · refine (hs.silent j hc (hstreams j hj)).imp_right fun hlive => ?_
    cases hmodej : mode j with
    | pushToTalk =>
      rw [World.live, hmodej] at hlive ⊢
      exact hlive
    | handsFree =>
      have hover := h j hmodej
      have hstream := hstreams j hj
      cases hphase : s.phase j with
      | streaming | speaking => rw [hphase] at hover; cases hover
      | _ => rw [hphase] at hstream; cases hstream
  · exact hs.heard j (hstreams j hj) hc
  · by_cases hij : j = i
    · subst hij
      exact ⟨rfl, rfl⟩
    · have hover := h j hj
      rw [← World.phase_setPhase_of_ne s hij .listening] at hover
      exact absurd (hover.symm.trans hunder) Bool.false_ne_true

theorem sound_listen (hs : Sound mode s) (hstep : step mode s (.listen i) = some t) :
    Sound mode t := by
  cases hmode : mode i with
  | pushToTalk =>
    simp only [step, hmode] at hstep
    split_ifs at hstep
    · obtain rfl := Option.some.inj hstep
      exact sound_write (sound_setPhase hs rfl fun h => by rw [hmode] at h; cases h) _
    · obtain rfl := Option.some.inj hstep
      exact sound_setPhase hs rfl nofun
  | handsFree =>
    simp only [step, hmode] at hstep
    split_ifs at hstep with hbefore hbusy hactive
    all_goals
      obtain rfl := Option.some.inj hstep
      -- no other turn of the loop is under way
      have hfree : ∀ j, mode j = .handsFree → (s.phase j).underWay = false := by
        intro j hj
        refine underWay_eq_false hs ?_ hj
        by_cases hrunning : s.loopRunning = true
        · exact .inr fun hturn =>
            hbusy ⟨hrunning, by rw [hturn]; exact Option.some_ne_none j⟩
        · exact .inl (Bool.eq_false_iff.mpr hrunning)
    · exact sound_write (sound_beginTurn hs hmode hfree) _
    · show Sound mode (s.setPhase i .ended).leaveLoop
      exact sound_leaveLoop_setPhase hs fun j _ hj => hfree j hj

theorem sound_configured (hs : Sound mode s) (serverTts : Bool) (hphase : s.phase i = .config)
    (h : Outlived mode s (.configured i serverTts) t) :
    Sound mode { s.setPhase i (.streaming ⟨serverTts, "", false⟩) with cancelled := false } := by
  refine ⟨fun j hc hj => .inr ?_, fun _ _ _ => rfl, fun j hmode hj => ?_⟩
  · refine h j hc ?_
    by_cases hij : j = i
    · exact .inl hij
    · exact .inr ((congrArg Phase.streams (World.phase_setPhase_of_ne s hij _)).symm.trans hj)
  · by_cases hij : j = i
    · subst hij
      exact hs.loop j hmode (by rw [hphase]; rfl)
    · exact hs.loop j hmode
        ((congrArg Phase.underWay (World.phase_setPhase_of_ne s hij _)).symm.trans hj)

/-- The loop is done with its turn and goes on. -/
theorem sound_endTurn (hs : Sound mode s)
    (h : ∀ j, j ≠ i → mode j = .handsFree → (s.phase j).underWay = false) :
    Sound mode { s.setPhase i .ended with loopTurn := none } := by
  have hended : Sound mode (s.setPhase i .ended) := sound_setPhase hs rfl nofun
  refine ⟨hended.silent, hended.heard, fun j hmode hj => ?_⟩
  by_cases hij : j = i
  · subst hij
    exact absurd ((congrArg Phase.underWay (s.phase_setPhase_self j .ended)).symm.trans hj) nofun
  · have hover := h j hij hmode
    rw [← World.phase_setPhase_of_ne s hij .ended] at hover
    exact absurd (hover.symm.trans hj) Bool.false_ne_true

theorem sound_leaveTurn (hs : Sound mode s) (hunder : (s.phase i).underWay = true) :
    Sound mode (s.leaveTurn mode i) := by
  rw [World.leaveTurn]
  cases hmode : mode i with
  | pushToTalk => exact sound_setPhase hs rfl nofun
  | handsFree => exact sound_leaveLoop_setPhase hs (other_underWay_eq_false hs hmode hunder)

theorem sound_resume (hs : Sound mode s) {carryOn : Bool} (hphase : s.phase i = .returned carryOn)
    (hstep : step mode s (.resume i) = some t) : Sound mode t := by
  have hunder : (s.phase i).underWay = true := by
    rw [hphase]
    rfl
  cases hmode : mode i with
  | pushToTalk =>
    simp only [step, hphase, hmode] at hstep
    obtain rfl := Option.some.inj hstep
    exact sound_finallyIdle (sound_setPhase hs rfl nofun)
  | handsFree =>
    simp only [step, hphase, hmode] at hstep
    split_ifs at hstep
    · obtain rfl := Option.some.inj hstep
      exact sound_setPhase hs rfl fun _ _ => hunder
    · obtain rfl := Option.some.inj hstep
      exact sound_leaveLoop_setPhase hs (other_underWay_eq_false hs hmode hunder)

theorem sound_step {a : Action ι} (hs : Sound mode s) (h : Outlived mode s a t)
    (hstep : step mode s a = some t) : Sound mode t := by
  cases a with
  | listen i => exact sound_listen hs hstep
  | micUnavailable i =>
    simp only [step] at hstep
    split_ifs at hstep
    all_goals
      obtain rfl := Option.some.inj hstep
      have hended : Sound mode (s.setPhase i .ended) := sound_setPhase hs rfl nofun
    · exact sound_write hended _
    · exact hended
  | drop i =>
    simp only [step] at hstep
    split_ifs at hstep
    obtain rfl := Option.some.inj hstep
    exact sound_setPhase hs rfl nofun
  | transcribe i =>
    simp only [step] at hstep
    split_ifs at hstep with hturn
    all_goals obtain rfl := Option.some.inj hstep
    · exact sound_write (sound_setPhase hs rfl fun _ _ => by rw [hturn.1]; rfl) _
    · exact sound_setPhase hs rfl nofun
  | giveUp i error =>
    simp only [step] at hstep
    split_ifs at hstep with hhears
    all_goals
      obtain rfl := Option.some.inj hstep
      have hunder : (s.phase i).underWay = true := by
        cases hphase : s.phase i with
        | before | ended => exact absurd ⟨by rw [hphase]; nofun, by rw [hphase]; nofun⟩ hhears
        | _ => rfl
    · exact sound_leaveTurn (sound_write hs _) hunder
    · exact sound_leaveTurn hs hunder
  | send i heard =>
    simp only [step] at hstep
    split_ifs at hstep with hhears
    all_goals
      obtain rfl := Option.some.inj hstep
      have hunder : (s.phase i).underWay = true := by
        rw [not_ne_iff.mp hhears]
        cases mode i <;> rfl
    · exact sound_write (sound_setPhase hs rfl fun _ _ => hunder) _
    · exact sound_leaveTurn hs hunder
  | configured i serverTts =>
    simp only [step] at hstep
    split_ifs at hstep with hphase
    obtain rfl := Option.some.inj hstep
    exact sound_configured hs serverTts hphase h
  | configFailed i =>
    simp only [step] at hstep
    split_ifs at hstep with hphase
    obtain rfl := Option.some.inj hstep
    exact sound_setPhase hs rfl fun _ _ => by rw [hphase]; rfl
  | event i e =>
    simp only [step] at hstep
    split at hstep
    · rename_i stream hphase
      refine sound_of_streams (i := i) hs (by rw [hphase]; rfl) ?_
      split_ifs at hstep
      · obtain rfl := Option.some.inj hstep
        exact (frame_refl s).setPhase _
      · obtain rfl := Option.some.inj hstep
        exact (frame_refl s).act stream e
    · cases hstep
  | spoken i =>
    simp only [step] at hstep
    split at hstep
    · rename_i stream hphase
      obtain rfl := Option.some.inj hstep
      exact sound_of_streams (i := i) hs (by rw [hphase]; rfl) ((frame_refl s).goOn stream)
    · cases hstep
  | streamEnded i =>
    simp only [step] at hstep
    split at hstep
    · rename_i stream hphase
      obtain rfl := Option.some.inj hstep
      exact sound_of_streams (i := i) hs (by rw [hphase]; rfl) ((frame_refl s).setPhase _)
    · cases hstep
  | failed i offline =>
    simp only [step] at hstep
    split_ifs at hstep with hstreams hoffline
    all_goals
      obtain rfl := Option.some.inj hstep
      refine sound_of_streams (i := i) hs (Bool.not_eq_false _ ▸ hstreams) ?_
    · exact (frame_refl s).setPhase _
    · exact (frame_refl s).report false
  | recorded i ok =>
    simp only [step] at hstep
    split_ifs at hstep with hphase hok
    · obtain rfl := Option.some.inj hstep
      refine sound_frame hs ((frame_refl s).report true) ?_ fun _ _ => by rw [hphase]; rfl
      rw [World.phase_report]
      nofun
    · obtain rfl := Option.some.inj hstep
      exact sound_setPhase hs rfl fun _ _ => by rw [hphase]; rfl
  | resume i =>
    cases hphase : s.phase i with
    | returned carryOn => exact sound_resume hs hphase hstep
    | _ => simp only [step, hphase] at hstep; cases hstep
  | played i =>
    simp only [step] at hstep
    split_ifs at hstep with hplaying
    all_goals
      obtain rfl := Option.some.inj hstep
      have hother := other_underWay_eq_false hs hplaying.2 (by rw [hplaying.1]; rfl)
    · exact sound_endTurn hs hother
    · exact sound_leaveLoop_setPhase hs hother
  | cancel =>
    obtain rfl := Option.some.inj hstep
    refine ⟨fun _ _ _ => .inl rfl, fun j hj hc => ?_, hs.loop⟩
    obtain ⟨-, hreplying⟩ := Bool.or_eq_false_iff.mp hc
    cases hphase : s.phase j with
    | streaming | speaking => rw [hphase] at hreplying; cases hreplying
    | _ => rw [show _ = _ from hphase] at hj; cases hj
  | stop =>
    obtain rfl := Option.some.inj hstep
    exact sound_of_live hs rfl rfl rfl (live_mono id nofun) hs.loop
  | settle endSession =>
    simp only [step] at hstep
    split_ifs at hstep
    all_goals
      obtain rfl := Option.some.inj hstep
      exact sound_write hs _
  | activate sessionId turns error =>
    simp only [step] at hstep
    split_ifs at hstep
    obtain rfl := Option.some.inj hstep
    exact sound_write hs _
  | dispose =>
    obtain rfl := Option.some.inj hstep
    exact sound_of_live hs rfl rfl rfl (live_mono nofun id) hs.loop

end sound

/-! ## The steps -/

section steps

variable {mode : ι → Mode} {i : ι} {s t : World ι}

theorem untouched_setPhase (s : World ι) (i : ι) (p : Phase) : Untouched s (s.setPhase i p) :=
  ⟨rfl, rfl, rfl, rfl⟩

theorem untouched_goOn (mode : ι → Mode) (s : World ι) (i : ι) (stream : Stream) :
    Untouched s (s.goOn mode i stream) := by
  rw [World.goOn]
  split_ifs <;> exact untouched_setPhase s i _

/-- Off the screen a failure is not reported. -/
theorem untouched_report (h : s.mounted = false) (i : ι) (offline : Bool) :
    Untouched s (s.report i offline) := by
  have hmounted : ¬(s.setPhase i (.returned false)).mounted = true := by
    rw [Bool.not_eq_true]
    exact h
  simp only [World.report, if_neg hmounted]
  exact untouched_setPhase s i _

omit [DecidableEq ι] in
theorem finallyIdle_of_not_settles (h : ¬s.Settles) : s.finallyIdle = s := if_neg h

omit [DecidableEq ι] in
theorem leaveLoop_of_not_settles (h : ¬s.Settles) :
    s.leaveLoop = { s with conversing := false, loopRunning := false, loopTurn := none } := if_neg h

/-- In an uncancelled live call the test behind an event succeeds. -/
theorem goOn_eq (hlive : s.live mode i = true) (hflag : s.cancelled = false) (stream : Stream) :
    s.goOn mode i stream = s.setPhase i (.streaming stream) := by
  rw [World.goOn, hlive, hflag]
  exact if_neg (by decide)

theorem act_streams (hlive : s.live mode i = true) (hflag : s.cancelled = false) (stream : Stream)
    (e : StreamEvent) : ((s.act mode i stream e).phase i).streams = true := by
  have hgoOn : ∀ (w : World ι) stream, w.live mode i = true → w.cancelled = false →
      ((w.goOn mode i stream).phase i).streams = true := by
    intro w stream hw hc
    rw [goOn_eq hw hc, World.phase_setPhase_self]
    rfl
  cases e with
  | sentence text =>
    cases htts : stream.serverTts with
    | true =>
      simp only [World.act, htts, if_true]
      exact hgoOn _ _ hlive hflag
    | false =>
      simp only [World.act, htts, Bool.false_eq_true, if_false]
      exact congrArg Phase.streams (World.phase_setPhase_self ..)
  | audioClip audioB64 mime => exact hgoOn _ stream hlive hflag
  | correction correction => exact hgoOn _ stream hlive hflag

/-- A cancelled call is silent. -/
theorem untouched_of_call {a : Action ι} (hs : Sound mode s) (h : Outlived mode s a t)
    (hcall : a.call = some i) (hc : s.wasCancelled i = true) (hstep : step mode s a = some t) :
    Untouched s t := by
  cases a with
  | configured i' serverTts =>
    simp only [step] at hstep
    split_ifs at hstep
    obtain rfl := Option.some.inj hstep
    exact ⟨rfl, rfl, rfl, rfl⟩
  | configFailed i' =>
    simp only [step] at hstep
    split_ifs at hstep
    obtain rfl := Option.some.inj hstep
    exact untouched_setPhase s i' _
  | event i' e =>
    obtain rfl := Option.some.inj hcall
    simp only [step] at hstep
    split at hstep
    · rename_i stream hphase
      have hreturned := (hs.silent i' hc (by rw [hphase]; rfl)).symm
      rw [if_pos hreturned] at hstep
      obtain rfl := Option.some.inj hstep
      exact untouched_setPhase s i' _
    · cases hstep
  | spoken i' =>
    simp only [step] at hstep
    split at hstep
    · obtain rfl := Option.some.inj hstep
      exact untouched_goOn mode s i' _
    · cases hstep
  | streamEnded i' =>
    simp only [step] at hstep
    split at hstep
    · obtain rfl := Option.some.inj hstep
      exact untouched_setPhase s i' _
    · cases hstep
  | failed i' offline =>
    obtain rfl := Option.some.inj hcall
    simp only [step] at hstep
    split_ifs at hstep with hstreams hoffline
    · obtain rfl := Option.some.inj hstep
      exact untouched_setPhase s i' _
    · obtain rfl := Option.some.inj hstep
      exact untouched_report (h (Bool.eq_false_iff.mpr hoffline) hc) i' false
  | recorded i' ok =>
    obtain rfl := Option.some.inj hcall
    simp only [step] at hstep
    split_ifs at hstep with hphase hok
    · obtain rfl := Option.some.inj hstep
      exact untouched_report (h hok hc) i' true
    · obtain rfl := Option.some.inj hstep
      exact untouched_setPhase s i' _
  | _ => cases hcall

/-- The caller of a call settles the state, where it leaves its turn, and nothing else. -/
theorem untouched_of_caller {a : Action ι} (hcaller : a.caller = some i)
    (h : s.leaves mode i = true → ¬s.Settles) (hstep : step mode s a = some t) :
    Untouched s t := by
  cases a with
  | resume i' =>
    obtain rfl := Option.some.inj hcaller
    cases hphase : s.phase i' with
    | returned carryOn =>
      cases hmode : mode i' with
      | pushToTalk =>
        simp only [step, hphase, hmode] at hstep
        obtain rfl := Option.some.inj hstep
        have hleaves : s.leaves mode i' = true := by simp only [World.leaves, hphase, hmode]
        rw [finallyIdle_of_not_settles (s := s.setPhase i' .ended) (h hleaves)]
        exact untouched_setPhase s i' .ended
      | handsFree =>
        simp only [step, hphase, hmode] at hstep
        split_ifs at hstep with hcarry
        · obtain rfl := Option.some.inj hstep
          exact untouched_setPhase s i' .playing
        · obtain rfl := Option.some.inj hstep
          have hleaves : s.leaves mode i' = true := by
            simp only [World.leaves, hphase, hmode, hcarry, Bool.not_false]
          rw [leaveLoop_of_not_settles (s := s.setPhase i' .ended) (h hleaves)]
          exact ⟨rfl, rfl, rfl, rfl⟩
    | _ => simp only [step, hphase] at hstep; cases hstep
  | played i' =>
    obtain rfl := Option.some.inj hcaller
    simp only [step] at hstep
    split_ifs at hstep with hplaying hlive
    · obtain rfl := Option.some.inj hstep
      exact ⟨rfl, rfl, rfl, rfl⟩
    · obtain rfl := Option.some.inj hstep
      have hleaves : s.leaves mode i' = true := by
        simp only [World.leaves, hplaying.1, hlive, Bool.not_false]
      rw [leaveLoop_of_not_settles (s := s.setPhase i' .ended) (h hleaves)]
      exact ⟨rfl, rfl, rfl, rfl⟩
  | _ => cases hcaller

/-- Where no cancelled call outlives its flag, a step leaves the later turns alone. -/
theorem cancelledStep_of_outlived {a : Action ι} (hs : Sound mode s) (h : Outlived mode s a t)
    (hstep : step mode s a = some t) : CancelledStep mode s a t := by
  refine ⟨fun i hcall hc => untouched_of_call hs h hcall hc hstep, fun i j hcaller hc hlater => ?_,
    fun i e stream ha hphase hlive hc => ?_, fun i stream ha hphase hlive hc => ?_⟩
  · refine untouched_of_caller hcaller (fun hleaves hsettles => ?_) hstep
    cases a with
    | resume i' | played i' =>
      obtain rfl := Option.some.inj hcaller
      exact h hc hleaves hsettles j hlater
    | _ => cases hcaller
  · subst ha
    have hflag := hs.heard i (by rw [hphase]; rfl) hc
    have hgoes : ¬(s.live mode i = false ∨ s.cancelled = true) := by
      rw [hlive, hflag]
      decide
    simp only [step, hphase, if_neg hgoes] at hstep
    obtain rfl := Option.some.inj hstep
    exact ⟨rfl, act_streams hlive hflag stream e⟩
  · subst ha
    have hflag := hs.heard i (by rw [hphase]; rfl) hc
    simp only [step, hphase] at hstep
    obtain rfl := Option.some.inj hstep
    rw [goOn_eq hlive hflag]
    exact World.phase_setPhase_self ..

end steps

/-- **Cancelled replies stay cancelled, and the turns behind them go on, in the runs in which no
cancelled call outlives its flag, reports a failure, or settles the state beside a later turn.** -/
theorem cancelled_stays_cancelled (mode : ι → Mode) (sessionId : Int) (as : List (Action ι))
    (h : Along (step mode) (Outlived mode) (World.init sessionId) as) :
    Along (step mode) (CancelledStep mode) (World.init sessionId) as :=
  along_of_invariant (I := Sound mode) (G := Outlived mode)
    (fun _ _ _ hs hg hstep =>
      ⟨cancelledStep_of_outlived hs hg hstep, sound_step hs hg hstep⟩)
    (sound_init sessionId) h

/-- The loop, cancelled and stopped in its reply, and a recording behind it. -/
theorem cancelled_loop :
    Along (step fun i : Fin 2 => if i = 0 then .handsFree else .pushToTalk)
      (CancelledStep fun i : Fin 2 => if i = 0 then .handsFree else .pushToTalk) (World.init 1)
      [.listen 0, .send 0 "I go home", .configured 0 true, .event 0 (.sentence "Nice."), .cancel,
        .stop, .event 0 (.audioClip "UklGRg==" "audio/wav"), .resume 0, .settle false, .listen 1,
        .transcribe 1, .send 1 "I went home", .configured 1 true, .event 1 (.sentence "Good.")] :=
  cancelled_stays_cancelled _ 1 _ (by decide)

/-- The configuration of the next recording clears the flag that the cancelled one is to find. -/
theorem cancelled_clip :
    ¬Along (step fun _ : Fin 2 => .pushToTalk) (CancelledStep fun _ : Fin 2 => .pushToTalk)
      (World.init 1)
      [.listen 0, .transcribe 0, .send 0 "I go home", .configured 0 true, .cancel, .settle false,
        .listen 1, .transcribe 1, .send 1 "I went home", .configured 1 true,
        .event 0 (.audioClip "UklGRg==" "audio/wav")] := by
  intro h
  have hsend := (h _ rfl).2 _ rfl |>.2 _ rfl |>.2 _ rfl |>.2
  have hnext := (hsend _ rfl).2 _ rfl |>.2 _ rfl |>.2 _ rfl |>.2
  have hevent := (hnext _ rfl).2 _ rfl |>.2 _ rfl |>.1
  have hclips := (hevent.silent 0 rfl rfl).clips
  revert hclips
  decide

end Apm.Reply.Cancelled
