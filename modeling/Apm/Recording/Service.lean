import Apm.Lib.Waiting
import Mathlib.Tactic.Common

/-!
# The recording service and its calls

`DeviceAudioRecordingService` drives the recorder plugin. Its `start` is single-flight, its
`stop` and its `cancel` are not. Every await is a step of its own and can take any time; an
operation of the plugin takes effect when it completes. The screen that records waits in the
same list of calls.
-/

namespace Apm.Recording

open Apm.Lib

set_option autoImplicit false

/-- The await of `_startOnce` that is under way. -/
inductive StartOnce where
  | teardown
  | hasPermission
  | startStream
  deriving DecidableEq, Repr

/-- The service and the plugin below it. -/
structure AudioRecordingService where
  /-- the plugin captures -/
  capturing : Bool
  /-- `_sub` is not null -/
  subscribed : Bool
  autoStopping : Bool
  startInFlight : Option StartOnce
  deriving DecidableEq, Repr

/-- What a call waits for. -/
inductive Call where
  /-- a record, for `recorder.start()` -/
  | start
  /-- a record whose start has completed -/
  | started (started : Bool)
  /-- a stop of the service, for the plugin -/
  | stopPlugin
  /-- for the end of the stream -/
  | drain
  /-- for the end of the subscription -/
  | closeSubscription
  /-- the service has stopped, and the screen has its bytes -/
  | stopped (recorded : Bool)
  /-- a bound of the take, for the plugin -/
  | autoStop
  /-- a scoring, for the consent of the learner -/
  | consent
  /-- for the score -/
  | score
  /-- a cancel of the service, for the end of the subscription -/
  | tearDown
  /-- for the plugin -/
  | cancelPlugin
  | cancelled
  deriving DecidableEq, Repr

/-- `_reset`. -/
def AudioRecordingService.reset (service : AudioRecordingService) : AudioRecordingService :=
  { service with subscribed := false, autoStopping := false }

/-- `PushToTalkController`, over what it shows of the conversation. -/
structure PushToTalk where
  recording : Bool
  error : Option String
  deriving DecidableEq, Repr

/-- The phases of `EchoPhase` and of `PairPhase`. -/
inductive Phase where
  | idle
  | loadingPhrase
  | playingModel
  | playingMine
  | playing
  | guessing
  | guessed
  | recording
  | scoring
  | reviewing
  deriving DecidableEq, Repr

/-- `EchoViewModel` or `MinimalPairsViewModel`. -/
structure Practice where
  phase : Phase
  busy : Bool
  /-- `hasPhrase`, or `hasPair` -/
  hasItem : Bool
  error : Option String
  deriving DecidableEq, Repr

inductive Screen where
  | pushToTalk (controller : PushToTalk)
  | echo (viewModel : Practice)
  | minimalPairs (viewModel : Practice)
  deriving DecidableEq, Repr

/-- A screen over the service. `left` is read by no code: the screen has been left, and no
record was called since. -/
structure Session where
  service : AudioRecordingService
  calls : List Call
  mounted : Bool
  screen : Screen
  left : Bool
  deriving DecidableEq, Repr

namespace Session

variable (s : Session)

def wait (c : Call) : Session := { s with calls := c :: s.calls }

/-- The state of the controller changes. -/
def become (screen : Screen) : Session := { s with screen := screen }

/-- `start`: it joins the start that is in flight. -/
def startRecorder : Session :=
  { s with service.startInFlight := some (s.service.startInFlight.getD .teardown) }.wait .start

/-- The start in flight completes, for every call that waits for it. -/
def completeStart (started : Bool) : Session :=
  { s with
    service.startInFlight := none
    calls := s.calls.map fun c => if c = .start then .started started else c }

/-- `stop`. -/
def stopRecorder : Session :=
  if !s.service.subscribed then s.wait (.stopped false)
  else if s.service.autoStopping then s.wait .drain
  else { s with service.autoStopping := true }.wait .stopPlugin

/-- `cancel`. -/
def cancelRecorder : Session := s.wait .tearDown

/-- What waits as `c` goes on. -/
def resume (c : Call) (next : Session → Session) : Option Session :=
  if c ∈ s.calls then some (next { s with calls := s.calls.erase c }) else none

end Session

theorem resume_eq_some_iff {s t : Session} {c : Call} {next : Session → Session} :
    s.resume c next = some t ↔ c ∈ s.calls ∧ next { s with calls := s.calls.erase c } = t := by
  rw [Session.resume, Option.ite_none_right_eq_some, Option.some_inj]

end Apm.Recording
