import Apm.Lib.Run
import Apm.Recording.Controllers

/-!
# The microphone after its screen

A screen is left by a cancel or by its unmount. The microphone is off once everything has
settled, on the condition that each capture is attended to: when the screen is left, and
when a record comes back to a screen that has been left.
-/

namespace Apm.Recording

open Apm.Lib

set_option autoImplicit false

/-- The call still has to do with the capture: a record that has not come back yet, or a call
that is going to end the capture. -/
def Call.Attends : Call → Prop
  | .start | .started _ | .stopPlugin | .autoStop | .tearDown | .cancelPlugin => True
  | .drain | .closeSubscription | .stopped _ | .consent | .score | .cancelled => False

instance : DecidablePred Call.Attends := fun c => by
  cases c <;> simp only [Call.Attends] <;> infer_instance

namespace Session

/-- A cancel finds the controller recording, and may use the recorder. -/
def FindsRecording (s : Session) : Prop :=
  s.mounted = true ∧
    match s.screen with
    | .pushToTalk p => p.recording = true
    | .echo p | .minimalPairs p => p.phase = .recording

/-- The screen is a push-to-talk that is gone: it cancels a start that comes back. -/
def CancelsLateStart (s : Session) : Prop :=
  s.mounted = false ∧
    match s.screen with
    | .pushToTalk _ => True
    | .echo _ | .minimalPairs _ => False

/-- A capture on a screen that has been left is attended to. -/
def Attended (s : Session) : Prop :=
  s.left = true → s.service.capturing = true → SomeWaits Call.Attends s.calls

end Session

/-- While the microphone captures, a screen is left by a cancel that finds its controller
recording, or with a call under way that attends to the capture; and a record that comes back
to a screen that has been left is cancelled there, or leaves such a call. -/
def attendsToCapture (s : Session) (a : RecordingAction) (_ : Session) : Prop :=
  s.service.capturing = true →
    match a with
    | .cancel => s.FindsRecording ∨ SomeWaits Call.Attends s.calls
    | .unmount => SomeWaits Call.Attends s.calls
    | .recorded started => s.left = true →
      started = true ∧ s.CancelsLateStart ∨
        SomeWaits Call.Attends (s.calls.erase (.started started))
    | _ => True

instance (s : Session) : Decidable s.FindsRecording := by
  unfold Session.FindsRecording
  cases s.screen <;> infer_instance

instance (s : Session) : Decidable s.CancelsLateStart := by
  unfold Session.CancelsLateStart
  cases s.screen <;> infer_instance

instance (s t : Session) (a : RecordingAction) : Decidable (attendsToCapture s a t) := by
  unfold attendsToCapture
  cases a <;> infer_instance

/-- A start is in flight for a record. -/
def Session.StartsForRecord (s : Session) : Prop :=
  s.service.startInFlight ≠ none → Call.start ∈ s.calls

/-! ## What the operations leave -/

/-- The capture, the start in flight and the calls under way go on. -/
structure Continues (s t : Session) : Prop where
  capturing : t.service.capturing = s.service.capturing
  startInFlight : t.service.startInFlight = s.service.startInFlight
  left : t.left = s.left
  calls : ∀ c ∈ s.calls, c ∈ t.calls

namespace Continues

variable {s t u : Session}

theorem refl (s : Session) : Continues s s := ⟨rfl, rfl, rfl, fun _ hc => hc⟩

theorem trans (h : Continues s t) (h' : Continues t u) : Continues s u where
  capturing := h'.capturing.trans h.capturing
  startInFlight := h'.startInFlight.trans h.startInFlight
  left := h'.left.trans h.left
  calls := fun c hc => h'.calls c (h.calls c hc)

theorem wait (s : Session) (c : Call) : Continues s (s.wait c) :=
  ⟨rfl, rfl, rfl, fun _ hd => List.mem_cons_of_mem c hd⟩

theorem become (s : Session) (screen : Screen) : Continues s (s.become screen) :=
  ⟨rfl, rfl, rfl, fun _ hc => hc⟩

theorem stopRecorder (s : Session) : Continues s s.stopRecorder := by
  unfold Session.stopRecorder
  split_ifs
  · exact wait s _
  · exact wait s _
  · exact ⟨rfl, rfl, rfl, fun _ hc => List.mem_cons_of_mem _ hc⟩

theorem attended (h : Continues s t) (hs : s.Attended) : t.Attended := by
  intro hleft hcapturing
  rw [h.left] at hleft
  rw [h.capturing] at hcapturing
  exact (hs hleft hcapturing).mono h.calls

theorem startsForRecord (h : Continues s t) (hs : s.StartsForRecord) : t.StartsForRecord := by
  intro hstart
  rw [h.startInFlight] at hstart
  exact h.calls _ (hs hstart)

end Continues

section controllers

variable (screen : Practice → Screen) (rest : Phase) (s : Session) (p : Practice)

theorem fail_continues (message : String) : Continues s (Practice.fail screen s p message) := by
  unfold Practice.fail
  split_ifs
  · exact Continues.become s _
  · exact Continues.refl s

theorem failed_continues (failure : Failure) :
    Continues s (Practice.failed screen s p failure) := by
  cases failure <;> exact fail_continues screen s _ _

theorem practice_recorded_continues (started : Bool) :
    Continues s (Practice.recorded screen s p started) := by
  unfold Practice.recorded
  split_ifs
  · exact Continues.refl s
  · exact fail_continues screen s p _
  · exact Continues.become s _

theorem practice_stopAndScore_continues : Continues s (Practice.stopAndScore screen s p) := by
  unfold Practice.stopAndScore
  split_ifs
  · exact Continues.refl s
  · exact (Continues.become s _).trans (Continues.stopRecorder _)

theorem practice_stopped_continues (recorded : Bool) :
    Continues s (Practice.stopped screen rest s p recorded) := by
  unfold Practice.stopped
  split_ifs
  · exact Continues.become s _
  · exact Continues.become s _
  · exact Continues.wait s _

theorem practice_consented_continues (consent : Except Failure Bool) :
    Continues s (Practice.consented screen s p consent) := by
  unfold Practice.consented
  split_ifs
  · exact Continues.become s _
  · match consent with
    | .error failure => exact failed_continues screen s p failure
    | .ok false => exact fail_continues screen s _ _
    | .ok true => exact (Continues.become s _).trans (Continues.wait _ _)

theorem practice_scored_continues (result : Except Failure Unit) :
    Continues s (Practice.scored screen s p result) := by
  unfold Practice.scored
  split_ifs
  · exact Continues.become s _
  · match result with
    | .error failure => exact failed_continues screen s p failure
    | .ok () => exact Continues.become s _

theorem practice_cancel_continues : Continues s (Practice.cancel s p) := by
  unfold Practice.cancel
  split_ifs
  · exact Continues.refl s
  · exact Continues.wait s _

theorem practice_cancelled_continues : Continues s (Practice.cancelled screen rest s p) := by
  unfold Practice.cancelled
  split_ifs
  · exact Continues.become s _
  · exact Continues.refl s

end controllers

section session

variable (s : Session)

theorem recorded_continues (started : Bool) : Continues s (s.recorded started) := by
  unfold Session.recorded
  cases s.screen with
  | pushToTalk p =>
    simp only [PushToTalkController.startedRecording]
    split_ifs
    · exact Continues.wait s _
    · exact Continues.refl s
    · exact Continues.become s _
    · exact Continues.become s _
  | echo p => exact practice_recorded_continues .echo s p started
  | minimalPairs p => exact practice_recorded_continues .minimalPairs s p started

theorem stop_continues : Continues s s.stop := by
  unfold Session.stop
  cases s.screen with
  | pushToTalk p =>
    simp only [PushToTalkController.stopAndRespond]
    split_ifs
    · exact (Continues.become s _).trans (Continues.stopRecorder _)
    · exact Continues.become s _
  | echo p => exact practice_stopAndScore_continues .echo s p
  | minimalPairs p => exact practice_stopAndScore_continues .minimalPairs s p

theorem stopped_continues (recorded : Bool) : Continues s (s.stopped recorded) := by
  unfold Session.stopped
  cases s.screen with
  | pushToTalk p => exact Continues.refl s
  | echo p => exact practice_stopped_continues .echo .idle s p recorded
  | minimalPairs p => exact practice_stopped_continues .minimalPairs .guessed s p recorded

theorem consented_continues (consent : Except Failure Bool) :
    Continues s (s.consented consent) := by
  unfold Session.consented
  cases s.screen with
  | pushToTalk p => exact Continues.refl s
  | echo p => exact practice_consented_continues .echo s p consent
  | minimalPairs p => exact practice_consented_continues .minimalPairs s p consent

theorem scored_continues (result : Except Failure Unit) : Continues s (s.scored result) := by
  unfold Session.scored
  cases s.screen with
  | pushToTalk p => exact Continues.refl s
  | echo p => exact practice_scored_continues .echo s p result
  | minimalPairs p => exact practice_scored_continues .minimalPairs s p result

theorem cancel_continues : Continues s s.cancel := by
  unfold Session.cancel
  cases s.screen with
  | pushToTalk p =>
    simp only [PushToTalkController.cancel]
    split_ifs
    · exact Continues.refl s
    · exact (Continues.become s _).trans (Continues.wait _ _)
    · exact Continues.become s _
  | echo p => exact practice_cancel_continues s p
  | minimalPairs p => exact practice_cancel_continues s p

theorem cancelled_continues : Continues s s.cancelled := by
  unfold Session.cancelled
  cases s.screen with
  | pushToTalk p => exact Continues.refl s
  | echo p => exact practice_cancelled_continues .echo .idle s p
  | minimalPairs p => exact practice_cancelled_continues .minimalPairs .guessed s p

theorem record_eq_or : s.record = s ∨ s.record = s.startRecorder := by
  unfold Session.record
  cases s.screen with
  | pushToTalk p =>
    cases hmounted : s.mounted <;> simp [PushToTalkController.startRecording, hmounted]
  | echo p => exact ite_eq_or_eq _ _ _
  | minimalPairs p => exact ite_eq_or_eq _ _ _

/-- A cancel that finds the controller recording cancels the recorder, and another one
leaves the calls as they are. -/
theorem cancel_calls : s.FindsRecording ∧ Call.tearDown ∈ s.cancel.calls ∨
    ¬s.FindsRecording ∧ s.cancel.calls = s.calls := by
  unfold Session.cancel Session.FindsRecording
  cases s.screen with
  | pushToTalk p =>
    cases hmounted : s.mounted <;> cases hrecording : p.recording <;>
      simp [PushToTalkController.cancel, Session.become, Session.cancelRecorder, Session.wait,
        hmounted, hrecording]
  | echo p | minimalPairs p =>
    cases hmounted : s.mounted <;> by_cases hphase : p.phase = .recording <;>
      simp [EchoViewModel.cancel, MinimalPairsViewModel.cancel, Practice.cancel,
        Session.cancelRecorder, Session.wait, hmounted, hphase]

/-- A start that comes back to a push-to-talk that is gone is cancelled, and another one
leaves the calls as they are. -/
theorem recorded_calls (started : Bool) :
    (started = true ∧ s.CancelsLateStart) ∧ Call.tearDown ∈ (s.recorded started).calls ∨
      ¬(started = true ∧ s.CancelsLateStart) ∧ (s.recorded started).calls = s.calls := by
  unfold Session.recorded Session.CancelsLateStart
  cases s.screen with
  | pushToTalk p =>
    cases hmounted : s.mounted <;> cases started <;>
      simp [PushToTalkController.startedRecording, Session.become, Session.cancelRecorder,
        Session.wait, hmounted]
  | echo p | minimalPairs p =>
    cases hmounted : s.mounted <;> cases started <;>
      simp [EchoViewModel.recorded, MinimalPairsViewModel.recorded, Practice.recorded,
        Practice.fail, Session.become, hmounted]

end session

/-! ## One step -/

section steps

variable {s t : Session} {a : RecordingAction}

theorem Session.Attended.erase (hs : s.Attended) {c : Call} (hc : ¬c.Attends) :
    { s with calls := s.calls.erase c }.Attended :=
  fun hleft hcapturing => (hs hleft hcapturing).erase hc

theorem Session.Attended.completeStart (hs : s.Attended) (started : Bool) :
    (s.completeStart started).Attended := by
  intro hleft hcapturing
  refine (hs hleft hcapturing).map fun c hc => ?_
  split_ifs
  · trivial
  · exact hc

theorem attended_of_silent (h : s.service.capturing = false) : s.Attended := by
  intro _ hcapturing
  rw [h] at hcapturing
  cases hcapturing

theorem Session.StartsForRecord.erase (hs : s.StartsForRecord) {c : Call} (hc : c ≠ .start) :
    { s with calls := s.calls.erase c }.StartsForRecord :=
  fun hstart => (List.mem_erase_of_ne hc.symm).mpr (hs hstart)

/-- A cancel attends to the capture when it finds it, or leaves it to a call under way. -/
theorem cancel_attended_iff : { s with left := true }.cancel.Attended ↔
    (s.service.capturing = true → s.FindsRecording ∨ SomeWaits Call.Attends s.calls) := by
  have hcontinues := cancel_continues { s with left := true }
  unfold Session.Attended
  rw [hcontinues.left, hcontinues.capturing]
  constructor
  · intro h hcapturing
    obtain ⟨hfinds, -⟩ | ⟨-, hcalls⟩ := cancel_calls { s with left := true }
    · exact .inl hfinds
    · have hwaits := h rfl hcapturing
      rw [hcalls] at hwaits
      exact .inr hwaits
  · rintro h - hcapturing
    obtain ⟨-, hcalls⟩ | ⟨hfinds, hcalls⟩ := cancel_calls { s with left := true }
    · exact .intro hcalls trivial
    · rw [hcalls]
      exact (h hcapturing).resolve_left hfinds

/-- A record that comes back attends to the capture as a push-to-talk that is gone, or leaves
it to another call. -/
theorem recorded_attended_iff (started : Bool) : (s.recorded started).Attended ↔
    (s.service.capturing = true → s.left = true →
      started = true ∧ s.CancelsLateStart ∨ SomeWaits Call.Attends s.calls) := by
  have hcontinues := recorded_continues s started
  unfold Session.Attended
  rw [hcontinues.left, hcontinues.capturing]
  constructor
  · intro h hcapturing hleft
    obtain ⟨hlate, -⟩ | ⟨-, hcalls⟩ := recorded_calls s started
    · exact .inl hlate
    · have hwaits := h hleft hcapturing
      rw [hcalls] at hwaits
      exact .inr hwaits
  · intro h hleft hcapturing
    obtain ⟨-, hcalls⟩ | ⟨hlate, hcalls⟩ := recorded_calls s started
    · exact .intro hcalls trivial
    · rw [hcalls]
      exact (h hcapturing hleft).resolve_left hlate

/-- An action whose condition says nothing keeps the capture attended. -/
theorem attended_iff_of_attended (ht : t.Attended) (hcondition : attendsToCapture s a t) :
    t.Attended ↔ attendsToCapture s a t :=
  ⟨fun _ => hcondition, fun _ => ht⟩

theorem step_attended_iff (hrecord : s.StartsForRecord) (hs : s.Attended)
    (hstep : recordingStep s a = some t) :
    t.StartsForRecord ∧ (t.Attended ↔ attendsToCapture s a t) := by
  cases a <;> simp only [recordingStep, resume_eq_some_iff, Option.some.injEq] at hstep
  case record =>
    subst hstep
    obtain h | h := record_eq_or { s with left := false }
    · rw [h]
      exact ⟨hrecord, attended_iff_of_attended (fun hleft => by cases hleft) fun _ => trivial⟩
    · rw [h]
      exact ⟨fun _ => List.mem_cons_self,
        attended_iff_of_attended (fun hleft => by cases hleft) fun _ => trivial⟩
  case stop =>
    subst hstep
    have hcontinues := stop_continues s
    exact ⟨hcontinues.startsForRecord hrecord,
      attended_iff_of_attended (hcontinues.attended hs) fun _ => trivial⟩
  case cancel =>
    subst hstep
    exact ⟨(cancel_continues { s with left := true }).startsForRecord hrecord,
      cancel_attended_iff⟩
  case unmount =>
    subst hstep
    exact ⟨hrecord, ⟨fun h => h rfl, fun h _ => h⟩⟩
  case startTornDown =>
    split at hstep
    · rename_i hflight
      obtain rfl := Option.some.inj hstep
      exact ⟨fun _ => hrecord (by rw [hflight]; exact Option.some_ne_none _),
        attended_iff_of_attended hs fun _ => trivial⟩
    · cases hstep
  case permission granted =>
    split at hstep
    · rename_i hflight
      split_ifs at hstep
      · obtain rfl := Option.some.inj hstep
        exact ⟨fun _ => hrecord (by rw [hflight]; exact Option.some_ne_none _),
          attended_iff_of_attended hs fun _ => trivial⟩
      · obtain rfl := Option.some.inj hstep
        exact ⟨fun hstart => absurd rfl hstart,
          attended_iff_of_attended (hs.completeStart false) fun _ => trivial⟩
    · cases hstep
  case stream opened =>
    split at hstep
    · rename_i hflight
      split_ifs at hstep
      · obtain rfl := Option.some.inj hstep
        -- the microphone opens for a record that has not come back
        have hwaits : SomeWaits Call.Attends s.calls :=
          .intro (hrecord (by rw [hflight]; exact Option.some_ne_none _)) trivial
        have hopened : Session.Attended
            { s with service := ⟨true, true, false, s.service.startInFlight⟩ } :=
          fun _ _ => hwaits
        exact ⟨fun hstart => absurd rfl hstart,
          attended_iff_of_attended (hopened.completeStart true) fun _ => trivial⟩
      · obtain rfl := Option.some.inj hstep
        exact ⟨fun hstart => absurd rfl hstart,
          attended_iff_of_attended (hs.completeStart false) fun _ => trivial⟩
    · cases hstep
  case bound =>
    split_ifs at hstep
    obtain rfl := Option.some.inj hstep
    exact ⟨fun hstart => List.mem_cons_of_mem _ (hrecord hstart),
      attended_iff_of_attended (fun hleft hcapturing => (hs hleft hcapturing).cons)
        fun _ => trivial⟩
  case autoStopped =>
    obtain ⟨-, rfl⟩ := hstep
    exact ⟨hrecord.erase (by decide),
      attended_iff_of_attended (attended_of_silent rfl) fun _ => trivial⟩
  case pluginStopped | pluginCancelled =>
    obtain ⟨-, rfl⟩ := hstep
    exact ⟨fun hstart => List.mem_cons_of_mem _ (hrecord.erase (by decide) hstart),
      attended_iff_of_attended (attended_of_silent rfl) fun _ => trivial⟩
  case drained | subscriptionClosed | tornDown =>
    obtain ⟨-, rfl⟩ := hstep
    exact ⟨fun hstart => List.mem_cons_of_mem _ (hrecord.erase (by decide) hstart),
      attended_iff_of_attended
        (fun hleft hcapturing => (hs hleft hcapturing).replace (by simp [Call.Attends]))
        fun _ => trivial⟩
  case recorded started =>
    obtain ⟨-, rfl⟩ := hstep
    exact ⟨(recorded_continues _ started).startsForRecord (hrecord.erase (by rintro ⟨⟩)),
      recorded_attended_iff started⟩
  case stopped recorded =>
    obtain ⟨-, rfl⟩ := hstep
    have hcontinues := stopped_continues
      { s with calls := s.calls.erase (.stopped recorded) } recorded
    exact ⟨hcontinues.startsForRecord (hrecord.erase (by rintro ⟨⟩)),
      attended_iff_of_attended (hcontinues.attended (hs.erase id)) fun _ => trivial⟩
  case consented consent =>
    obtain ⟨-, rfl⟩ := hstep
    have hcontinues := consented_continues { s with calls := s.calls.erase .consent } consent
    exact ⟨hcontinues.startsForRecord (hrecord.erase (by decide)),
      attended_iff_of_attended (hcontinues.attended (hs.erase id)) fun _ => trivial⟩
  case scored result =>
    obtain ⟨-, rfl⟩ := hstep
    have hcontinues := scored_continues { s with calls := s.calls.erase .score } result
    exact ⟨hcontinues.startsForRecord (hrecord.erase (by decide)),
      attended_iff_of_attended (hcontinues.attended (hs.erase id)) fun _ => trivial⟩
  case cancelled =>
    obtain ⟨-, rfl⟩ := hstep
    have hcontinues := cancelled_continues { s with calls := s.calls.erase .cancelled }
    exact ⟨hcontinues.startsForRecord (hrecord.erase (by decide)),
      attended_iff_of_attended (hcontinues.attended (hs.erase id)) fun _ => trivial⟩

end steps

/-! ## Whole runs -/

theorem kept_opened (screen : Screen) :
    (Session.opened screen).StartsForRecord ∧ (Session.opened screen).Attended :=
  ⟨fun hstart => absurd rfl hstart, attended_of_silent rfl⟩

theorem kept_step (s : Session) (a : RecordingAction) (t : Session)
    (hs : s.StartsForRecord ∧ s.Attended) (hattends : attendsToCapture s a t)
    (hstep : recordingStep s a = some t) : t.StartsForRecord ∧ t.Attended := by
  obtain ⟨hrecord, hiff⟩ := step_attended_iff hs.1 hs.2 hstep
  exact ⟨hrecord, hiff.mpr hattends⟩

variable {screen : Screen} {actions : List RecordingAction} {s : Session}

/-- The condition is exact: it holds along a run if and only if a capture on a screen that
has been left is attended to after every step. -/
theorem attended_along_iff :
    Along recordingStep (fun _ _ t => t.Attended) (Session.opened screen) actions ↔
      Along recordingStep attendsToCapture (Session.opened screen) actions :=
  along_iff_of_invariant (fun _ _ _ hs hstep => (step_attended_iff hs.1 hs.2 hstep).2)
    kept_step (kept_opened screen)

/-- **No hot microphone.** In every run of each controller in which the capture is attended
to, once the screen has been left and everything has settled with no record called since,
the microphone is off. -/
theorem microphone_off_after_leaving
    (hattends : Along recordingStep attendsToCapture (Session.opened screen) actions)
    (hrun : run recordingStep (Session.opened screen) actions = some s)
    (hleft : s.left = true) (hsettled : s.calls = []) : s.service.capturing = false := by
  have hkept : s.StartsForRecord ∧ s.Attended :=
    run_invariant kept_step (kept_opened screen) hattends hrun
  cases hcapturing : s.service.capturing with
  | false => rfl
  | true =>
    have hwaits := hkept.2 hleft hcapturing
    rw [hsettled] at hwaits
    exact absurd hwaits SomeWaits.not_nil

/-- The screen of a push-to-talk goes while the recorder starts. -/
theorem microphone_off_after_leaving_late_start :
    ∃ s, run recordingStep (Session.opened (.pushToTalk ⟨false, none⟩))
        [.record, .startTornDown, .permission true, .unmount, .stream true, .recorded true,
          .tornDown, .pluginCancelled, .cancelled] = some s ∧ s.service.capturing = false := by
  obtain ⟨s, hrun, hend⟩ := exists_run_of_check recordingStep
    (Session.opened (.pushToTalk ⟨false, none⟩))
    [.record, .startTornDown, .permission true, .unmount, .stream true, .recorded true,
      .tornDown, .pluginCancelled, .cancelled] (fun s => s.left && s.calls = []) (by decide)
  rw [Bool.and_eq_true, decide_eq_true_iff] at hend
  exact ⟨s, hrun, microphone_off_after_leaving (by decide) hrun hend.1 hend.2⟩

/-- The screen of an echo goes while the recorder starts, or a push-to-talk or a pair is
cancelled then: the start completes, everything settles, and the microphone is on, off the screen,
until the bound of the take stops it after 60 seconds. -/
theorem late_start_stays_hot :
    (∃ s, run recordingStep (Session.opened (.echo ⟨.idle, false, true, none⟩))
        [.record, .startTornDown, .permission true, .unmount, .stream true, .recorded true] =
          some s ∧ s.left = true ∧ s.calls = [] ∧ s.service.capturing = true) ∧
      (∃ s, run recordingStep (Session.opened (.minimalPairs ⟨.guessed, false, true, none⟩))
        [.record, .startTornDown, .permission true, .cancel, .stream true, .recorded true] =
          some s ∧ s.left = true ∧ s.calls = [] ∧ s.service.capturing = true) ∧
      ∃ s, run recordingStep (Session.opened (.pushToTalk ⟨false, none⟩))
        [.record, .startTornDown, .permission true, .cancel, .stream true, .recorded true] =
          some s ∧ s.left = true ∧ s.calls = [] ∧ s.service.capturing = true :=
  ⟨⟨_, rfl, rfl, rfl, rfl⟩, ⟨_, rfl, rfl, rfl, rfl⟩, ⟨_, rfl, rfl, rfl, rfl⟩⟩

end Apm.Recording
