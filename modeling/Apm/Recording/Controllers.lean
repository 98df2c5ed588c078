import Apm.Recording.Service

/-!
# The controllers that record

Three controllers drive the service. `EchoViewModel` and `MinimalPairsViewModel` share their
code but for the phase they go back to. `PushToTalkController` has no phase; it alone looks
after a start that completes when its screen is gone. What an unmounted controller reads
through its `ref` or its `state` throws.
-/

namespace Apm.Recording

open Apm.Lib

set_option autoImplicit false

/-- What the network, or the consent provider, fails with. -/
inductive Failure where
  | apiException (message : String)
  | other
  deriving DecidableEq, Repr

/-! ## Push to talk -/

namespace PushToTalkController

variable (s : Session) (p : PushToTalk)

def startRecording : Session := if s.mounted then s.startRecorder else s

/-- `startRecording`, after the await. -/
def startedRecording (started : Bool) : Session :=
  if !s.mounted then
    if started then s.cancelRecorder else s
  else if !started then
    s.become (.pushToTalk { p with error := some "Microphone is not available" })
  else s.become (.pushToTalk { recording := true, error := none })

/-- `stopAndRespond`, up to its first await: what follows does not touch the recorder. -/
def stopAndRespond : Session :=
  let s := s.become (.pushToTalk { p with recording := false })
  if s.mounted then s.stopRecorder else s

def cancel : Session :=
  if !p.recording then s
  else
    let s := s.become (.pushToTalk { p with recording := false })
    if s.mounted then s.cancelRecorder else s

end PushToTalkController

/-! ## The practice screens

`screen` is the screen of the view model, and `rest` the phase it goes back to. -/

namespace Practice

variable (screen : Practice → Screen) (rest : Phase) (s : Session) (p : Practice)

def fail (message : String) : Session :=
  if s.mounted then s.become (screen { p with phase := .idle, error := some message }) else s

def record : Session :=
  if !s.mounted || p.busy || !p.hasItem then s else s.startRecorder

/-- `record`, after the await. -/
def recorded (started : Bool) : Session :=
  if !s.mounted then s
  else if !started then fail screen s p "Microphone is not available."
  else s.become (screen { p with phase := .recording, error := none })

def stopAndScore : Session :=
  if !s.mounted || p.busy || p.phase ≠ .recording then s
  else (s.become (screen { p with busy := true })).stopRecorder

/-- `stopAndScore`, after the recorder has stopped. Its `finally` ends every way out. -/
def stopped (recorded : Bool) : Session :=
  if !s.mounted then s.become (screen { p with busy := false })
  else if !recorded then s.become (screen { p with phase := rest, busy := false })
  else s.wait .consent

def failed (failure : Failure) : Session :=
  match failure with
  | .apiException message => fail screen s { p with busy := false } message
  | .other =>
    fail screen s { p with busy := false } "Could not score your attempt. Please try again."

/-- `stopAndScore`, after the consent has been read. -/
def consented (consent : Except Failure Bool) : Session :=
  if !s.mounted then s.become (screen { p with busy := false })
  else match consent with
    | .error failure => failed screen s p failure
    | .ok false =>
      fail screen s { p with busy := false } "Transcription consent has been revoked"
    | .ok true => (s.become (screen { p with phase := .scoring })).wait .score

/-- `stopAndScore`, after the attempt has been scored. -/
def scored (result : Except Failure Unit) : Session :=
  if !s.mounted then s.become (screen { p with busy := false })
  else match result with
    | .error failure => failed screen s p failure
    | .ok () => s.become (screen { p with phase := .reviewing, busy := false })

def cancel : Session :=
  if !s.mounted || p.phase ≠ .recording then s else s.cancelRecorder

/-- `cancel`, after the await. -/
def cancelled : Session :=
  if s.mounted then s.become (screen { p with phase := rest }) else s

end Practice

namespace EchoViewModel

variable (s : Session) (p : Practice)

def record : Session := Practice.record s p
def recorded (started : Bool) : Session := Practice.recorded .echo s p started
def stopAndScore : Session := Practice.stopAndScore .echo s p
def stopped (recorded : Bool) : Session := Practice.stopped .echo .idle s p recorded
def consented (consent : Except Failure Bool) : Session := Practice.consented .echo s p consent
def scored (result : Except Failure Unit) : Session := Practice.scored .echo s p result
def cancel : Session := Practice.cancel s p
def cancelled : Session := Practice.cancelled .echo .idle s p

end EchoViewModel

namespace MinimalPairsViewModel

variable (s : Session) (p : Practice)

def record : Session := Practice.record s p
def recorded (started : Bool) : Session := Practice.recorded .minimalPairs s p started
def stopAndScore : Session := Practice.stopAndScore .minimalPairs s p
def stopped (recorded : Bool) : Session := Practice.stopped .minimalPairs .guessed s p recorded
def consented (consent : Except Failure Bool) : Session :=
  Practice.consented .minimalPairs s p consent
def scored (result : Except Failure Unit) : Session := Practice.scored .minimalPairs s p result
def cancel : Session := Practice.cancel s p
def cancelled : Session := Practice.cancelled .minimalPairs .guessed s p

end MinimalPairsViewModel

/-! ## The system -/

namespace Session

variable (s : Session)

def record : Session :=
  match s.screen with
  | .pushToTalk _ => PushToTalkController.startRecording s
  | .echo p => EchoViewModel.record s p
  | .minimalPairs p => MinimalPairsViewModel.record s p

def recorded (started : Bool) : Session :=
  match s.screen with
  | .pushToTalk p => PushToTalkController.startedRecording s p started
  | .echo p => EchoViewModel.recorded s p started
  | .minimalPairs p => MinimalPairsViewModel.recorded s p started

def stop : Session :=
  match s.screen with
  | .pushToTalk p => PushToTalkController.stopAndRespond s p
  | .echo p => EchoViewModel.stopAndScore s p
  | .minimalPairs p => MinimalPairsViewModel.stopAndScore s p

def stopped (recorded : Bool) : Session :=
  match s.screen with
  | .pushToTalk _ => s
  | .echo p => EchoViewModel.stopped s p recorded
  | .minimalPairs p => MinimalPairsViewModel.stopped s p recorded

def consented (consent : Except Failure Bool) : Session :=
  match s.screen with
  | .pushToTalk _ => s
  | .echo p => EchoViewModel.consented s p consent
  | .minimalPairs p => MinimalPairsViewModel.consented s p consent

def scored (result : Except Failure Unit) : Session :=
  match s.screen with
  | .pushToTalk _ => s
  | .echo p => EchoViewModel.scored s p result
  | .minimalPairs p => MinimalPairsViewModel.scored s p result

def cancel : Session :=
  match s.screen with
  | .pushToTalk p => PushToTalkController.cancel s p
  | .echo p => EchoViewModel.cancel s p
  | .minimalPairs p => MinimalPairsViewModel.cancel s p

def cancelled : Session :=
  match s.screen with
  | .pushToTalk _ => s
  | .echo p => EchoViewModel.cancelled s p
  | .minimalPairs p => MinimalPairsViewModel.cancelled s p

/-- The screen opens. -/
def opened (screen : Screen) : Session where
  service := ⟨false, false, false, none⟩
  calls := []
  mounted := true
  screen := screen
  left := false

end Session

inductive RecordingAction where
  | record
  | stop
  | cancel
  | unmount
  /-- the start in flight goes on -/
  | startTornDown
  | permission (granted : Bool)
  | stream (opened : Bool)
  /-- the duration or the size of the take has reached its bound -/
  | bound
  | autoStopped
  /-- the plugin has stopped -/
  | pluginStopped
  | drained
  | subscriptionClosed (recorded : Bool)
  | tornDown
  | pluginCancelled
  /-- the controller goes on after an await -/
  | recorded (started : Bool)
  | stopped (recorded : Bool)
  | consented (consent : Except Failure Bool)
  | scored (result : Except Failure Unit)
  | cancelled

def recordingStep (s : Session) : RecordingAction → Option Session
  | .record => some { s with left := false }.record
  | .stop => some s.stop
  | .cancel => some { s with left := true }.cancel
  | .unmount => some { s with mounted := false, left := true }
  | .startTornDown =>
    match s.service.startInFlight with
    | some .teardown =>
      some { s with service := { s.service.reset with startInFlight := some .hasPermission } }
    | _ => none
  | .permission granted =>
    match s.service.startInFlight with
    | some .hasPermission =>
      if granted then some { s with service.startInFlight := some .startStream }
      else some (s.completeStart false)
    | _ => none
  | .stream opened =>
    match s.service.startInFlight with
    | some .startStream =>
      if opened then
        some ({ s with service := ⟨true, true, false, s.service.startInFlight⟩ }.completeStart true)
      else some (s.completeStart false)
    | _ => none
  | .bound =>
    if s.service.subscribed && !s.service.autoStopping then
      some ({ s with service.autoStopping := true }.wait .autoStop)
    else none
  | .autoStopped => s.resume .autoStop fun s => { s with service.capturing := false }
  | .pluginStopped =>
    s.resume .stopPlugin fun s => { s with service.capturing := false }.wait .drain
  | .drained => s.resume .drain fun s => s.wait .closeSubscription
  | .subscriptionClosed recorded =>
    s.resume .closeSubscription fun s =>
      { s with service := s.service.reset }.wait (.stopped recorded)
  | .tornDown =>
    s.resume .tearDown fun s => { s with service := s.service.reset }.wait .cancelPlugin
  | .pluginCancelled =>
    s.resume .cancelPlugin fun s => { s with service.capturing := false }.wait .cancelled
  | .recorded started => s.resume (.started started) fun s => s.recorded started
  | .stopped recorded => s.resume (.stopped recorded) fun s => s.stopped recorded
  | .consented consent => s.resume .consent fun s => s.consented consent
  | .scored result => s.resume .score fun s => s.scored result
  | .cancelled => s.resume .cancelled fun s => s.cancelled

end Apm.Recording
