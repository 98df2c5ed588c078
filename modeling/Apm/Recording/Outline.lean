import Apm.Recording.Controllers
import Apm.Recording.Takes
import Mathlib.Data.List.Perm.Basic

/-!
# The service with its takes, as the screens see it

`DeviceAudioRecordingService` is modelled twice: with its takes, their bytes and timers, and as the
few flags that the controllers of a screen depend on. The second is the outline of the first. Each
step of the service with its takes is a call of the service or a step of its own in the session of
a screen, and a run of the one is a run of the other.
-/

namespace Apm.Recording

open Apm.Lib

set_option autoImplicit false

/-- The call is one of the service, not of a controller. -/
def Call.ofService : Call → Bool
  | .stopPlugin | .drain | .closeSubscription | .autoStop | .tearDown | .cancelPlugin => true
  | .start | .started _ | .stopped _ | .consent | .score | .cancelled => false

namespace Takes

def Call.outline : Call → Recording.Call
  | .stopPlugin _ => .stopPlugin
  | .drain _ => .drain
  | .closeSubscription _ => .closeSubscription
  | .autoStop => .autoStop
  | .tearDown => .tearDown
  | .cancelPlugin => .cancelPlugin

def Service.outline (s : Service) : AudioRecordingService where
  capturing := s.mic.isSome
  subscribed := s.sub.isSome
  autoStopping := s.autoStopping
  startInFlight := s.startInFlight

/-- The session is over the outline of the service, and the same calls of the service wait. -/
structure Outlines (s : Service) (u : Session) : Prop where
  service : u.service = s.outline
  calls : (u.calls.filter Recording.Call.ofService).Perm (s.calls.map Call.outline)

/-- What an action of the service is in the session of a screen. The bytes of a take and its end
are not seen there; a bound is, when it stops the take. -/
def Action.outline (u u' : Session) : Action → Prop
  | .start => u' = u.startRecorder
  | .stop => u' = u.stopRecorder
  | .cancel => u' = u.cancelRecorder
  | .startTornDown => recordingStep u .startTornDown = some u'
  | .permission granted => recordingStep u (.permission granted) = some u'
  | .stream opened => recordingStep u (.stream opened) = some u'
  | .pluginStopped _ => recordingStep u .pluginStopped = some u'
  | .drained _ => recordingStep u .drained = some u'
  | .subscriptionClosed _ =>
    ∃ recorded, recordingStep u (.subscriptionClosed recorded) = some u'
  | .cancelTornDown => recordingStep u .tornDown = some u'
  | .pluginCancelled => recordingStep u .pluginCancelled = some u'
  | .autoStopped => recordingStep u .autoStopped = some u'
  | .chunk .. | .fire _ => u' = u ∨ recordingStep u .bound = some u'
  | .done _ => u' = u

/-- The actions one after the other. -/
def outlineRun : List Action → Session → Session → Prop
  | [], u, u' => u' = u
  | a :: rest, u, u' => ∃ v, a.outline u v ∧ outlineRun rest v u'

theorem Call.ofService_outline (c : Call) : c.outline.ofService = true := by cases c <;> rfl

namespace Outlines

variable {s t : Service} {u : Session} {c : Call}

theorem mem (h : Outlines s u) (hc : c ∈ s.calls) : c.outline ∈ u.calls := by
  have hmem : c.outline ∈ u.calls.filter Recording.Call.ofService :=
    h.calls.mem_iff.mpr (List.mem_map_of_mem hc)
  exact (List.mem_filter.mp hmem).1

/-- A call that waits on one side goes on on the other. -/
theorem resume (h : Outlines s u) (hc : c ∈ s.calls) (next : Session → Session) :
    u.resume c.outline next = some (next { u with calls := u.calls.erase c.outline }) :=
  if_pos (h.mem hc)

theorem wait (h : Outlines s u) (c : Call) :
    ((c.outline :: u.calls).filter Recording.Call.ofService).Perm ((c :: s.calls).map Call.outline) := by
  rw [List.filter_cons_of_pos c.ofService_outline]
  exact h.calls.cons _

/-- The same call is taken out on both sides. -/
theorem erase (h : Outlines s u) (hc : c ∈ s.calls) :
    ((u.calls.erase c.outline).filter Recording.Call.ofService).Perm
      ((s.calls.erase c).map Call.outline) := by
  have hleft := ((List.perm_cons_erase (h.mem hc)).filter Recording.Call.ofService).symm
  rw [List.filter_cons_of_pos c.ofService_outline] at hleft
  have hright := (List.perm_cons_erase hc).map Call.outline
  exact ((hleft.trans h.calls).trans hright).cons_inv

/-- The same call goes on as another one on both sides. -/
theorem replace (h : Outlines s u) (hc : c ∈ s.calls) (d : Call) :
    ((d.outline :: u.calls.erase c.outline).filter Recording.Call.ofService).Perm
      ((d :: s.calls.erase c).map Call.outline) := by
  rw [List.filter_cons_of_pos d.ofService_outline]
  exact (h.erase hc).cons _

/-- A call of a controller changes nothing for the service. -/
theorem controller (h : (u.calls.filter Recording.Call.ofService).Perm (s.calls.map Call.outline))
    {d : Recording.Call} (hd : d.ofService = false) :
    ((d :: u.calls).filter Recording.Call.ofService).Perm (s.calls.map Call.outline) := by
  rwa [List.filter_cons_of_neg (by simp [hd])]

end Outlines

/-- The records that wait for a start are no calls of the service. -/
theorem filter_completeStart (calls : List Recording.Call) (started : Bool) :
    (calls.map fun c => if c = .start then .started started else c).filter
      Recording.Call.ofService = calls.filter Recording.Call.ofService := by
  induction calls with
  | nil => rfl
  | cons c rest ih =>
    rw [List.map_cons, List.filter_cons, List.filter_cons, ih]
    by_cases hc : c = .start
    · subst hc
      rfl
    · rw [if_neg hc]

section step

variable {maxBytes : Nat} {s t : Service} {u : Session} {a : Action}

/-- A teardown changes the take only, until its await is over. -/
theorem teardown_outline (s : Service) :
    s.teardown.outline = s.outline ∧ s.teardown.calls = s.calls := by
  rw [Service.teardown]
  cases s.sub with
  | none => exact ⟨rfl, rfl⟩
  | some n => exact ⟨rfl, rfl⟩

/-- A bound of a take stops it once. -/
theorem autoStop_outlined (h : Outlines s u) :
    ∃ u', (u' = u ∨ recordingStep u .bound = some u') ∧ Outlines s.autoStop u' := by
  rw [Service.autoStop]
  split_ifs with hidle
  · exact ⟨u, .inl rfl, h⟩
  · obtain ⟨hnot, hsub⟩ := not_or.mp hidle
    have hbound : (u.service.subscribed && !u.service.autoStopping) = true := by
      rw [h.service, Service.outline, Bool.and_eq_true, Bool.not_eq_true', Bool.eq_false_iff]
      exact ⟨Option.isSome_iff_ne_none.mpr hsub, hnot⟩
    refine ⟨_, .inr (if_pos hbound), ⟨?_, h.wait .autoStop⟩⟩
    show { u.service with autoStopping := true } = _
    rw [h.service]
    rfl

theorem stop_outlined (h : Outlines s u) (hstep : step maxBytes s .stop = some t) :
    Outlines t u.stopRecorder := by
  rw [step] at hstep
  rw [Session.stopRecorder, h.service]
  cases hsub : s.sub with
  | none =>
    rw [hsub] at hstep
    cases hstep
    have hnone : s.outline.subscribed = false := by rw [Service.outline, hsub, Option.isSome_none]
    rw [hnone]
    refine ⟨h.service.trans ?_, Outlines.controller h.calls rfl⟩
    rw [Service.outline, Service.outline, hsub]
  | some n =>
    rw [hsub] at hstep
    have hsome : s.outline.subscribed = true := by rw [Service.outline, hsub, Option.isSome_some]
    have hsame : s.outline.autoStopping = s.autoStopping := rfl
    rw [hsome, hsame]
    dsimp only at hstep
    by_cases hstopping : s.autoStopping = true
    · rw [if_pos hstopping] at hstep
      cases hstep
      rw [hstopping]
      refine ⟨h.service.trans ?_, h.wait (.drain n)⟩
      rw [Service.outline, Service.outline, hsub, hstopping]
    · rw [if_neg hstopping] at hstep
      cases hstep
      rw [Bool.eq_false_iff.mpr hstopping]
      refine ⟨?_, h.wait (.stopPlugin n)⟩
      show { s.outline with autoStopping := true } = _
      rw [Service.outline, Service.outline, hsub]

/-- A start, a stop or a cancel begins. -/
theorem call_outlined (h : Outlines s u) (ha : a = .start ∨ a = .stop ∨ a = .cancel)
    (hstep : step maxBytes s a = some t) : ∃ u', a.outline u u' ∧ Outlines t u' := by
  obtain ⟨htear, hcalls⟩ := teardown_outline s
  rcases ha with rfl | rfl | rfl
  · refine ⟨_, rfl, ?_, ?_⟩
    · show { u.service with startInFlight := some (u.service.startInFlight.getD .teardown) } = _
      rw [h.service]
      rw [step] at hstep
      cases hflight : s.startInFlight with
      | some once =>
        rw [hflight] at hstep
        cases hstep
        simp [Service.outline, hflight]
      | none =>
        rw [hflight] at hstep
        cases hstep
        show _ = { s.teardown.outline with startInFlight := some .teardown }
        rw [htear]
        simp [Service.outline, hflight]
    · refine (Outlines.controller h.calls rfl).trans ?_
      rw [step] at hstep
      split at hstep
      · cases hstep
        exact .refl _
      · cases hstep
        show (s.calls.map Call.outline).Perm (s.teardown.calls.map Call.outline)
        rw [hcalls]
  · exact ⟨_, rfl, stop_outlined h hstep⟩
  · cases hstep
    refine ⟨_, rfl, ?_, ?_⟩
    · show u.service = s.teardown.outline
      rw [htear, h.service]
    · exact h.wait .tearDown

/-- A start goes on behind one of its awaits. -/
theorem start_outlined (h : Outlines s u)
    (ha : a = .startTornDown ∨ (∃ granted, a = .permission granted) ∨ ∃ opened, a = .stream opened)
    (hstep : step maxBytes s a = some t) : ∃ u', a.outline u u' ∧ Outlines t u' := by
  have hflight : u.service.startInFlight = s.startInFlight := congrArg _ h.service
  have hmic : u.service.capturing = s.mic.isSome := congrArg _ h.service
  have hcalls : ∀ started, ((u.calls.map fun c => if c = .start then .started started
      else c).filter Recording.Call.ofService).Perm (s.calls.map Call.outline) := fun started => by
    rw [filter_completeStart]
    exact h.calls
  have hrefused : Outlines { s with startInFlight := none } (u.completeStart false) := by
    refine ⟨?_, hcalls false⟩
    show { u.service with startInFlight := none } = _
    rw [h.service]
    rfl
  rcases ha with rfl | ⟨granted, rfl⟩ | ⟨opened, rfl⟩
  · rw [step] at hstep
    split_ifs at hstep with hawait
    cases hstep
    simp only [Action.outline, recordingStep, hflight, hawait]
    refine ⟨_, rfl, ?_, h.calls⟩
    show AudioRecordingService.mk u.service.capturing false false (some .hasPermission) = _
    rw [hmic]
    rfl
  · rw [step] at hstep
    split at hstep
    swap
    · cases hstep
    rename_i hawait
    cases hstep
    simp only [Action.outline, recordingStep, hflight, hawait]
    cases granted with
    | false => exact ⟨_, rfl, hrefused⟩
    | true =>
      refine ⟨_, rfl, ?_, h.calls⟩
      show { u.service with startInFlight := some .startStream } = _
      rw [h.service]
      rfl
  · rw [step] at hstep
    split at hstep
    swap
    · cases hstep
    rename_i hawait
    cases hstep
    simp only [Action.outline, recordingStep, hflight, hawait]
    cases opened with
    | false => exact ⟨_, rfl, hrefused⟩
    | true => exact ⟨_, rfl, rfl, hcalls true⟩

/-- **A step of the service with its takes is one of its outline.** By the cases of the action: a
call of the service, what goes on behind an await, or what a take alone sees. -/
theorem step_outlined (h : Outlines s u) (hstep : step maxBytes s a = some t) :
    ∃ u', a.outline u u' ∧ Outlines t u' := by
  cases a with
  | start => exact call_outlined h (.inl rfl) hstep
  | stop => exact call_outlined h (.inr (.inl rfl)) hstep
  | cancel => exact call_outlined h (.inr (.inr rfl)) hstep
  | startTornDown => exact start_outlined h (.inl rfl) hstep
  | permission granted => exact start_outlined h (.inr (.inl ⟨granted, rfl⟩)) hstep
  | stream opened => exact start_outlined h (.inr (.inr ⟨opened, rfl⟩)) hstep
  | pluginStopped n =>
    rw [step] at hstep
    split_ifs at hstep with hwaits
    cases hstep
    simp only [Action.outline, recordingStep]
    refine ⟨_, h.resume hwaits _, ?_, h.replace hwaits (.drain n)⟩
    show { u.service with capturing := false } = _
    rw [h.service]
    rfl
  | drained n =>
    rw [step] at hstep
    split_ifs at hstep with hwaits
    cases hstep
    simp only [Action.outline, recordingStep]
    exact ⟨_, h.resume hwaits _, h.service,
      h.replace hwaits (.closeSubscription n)⟩
  | subscriptionClosed n =>
    rw [step] at hstep
    split_ifs at hstep with hwaits
    cases hstep
    simp only [Action.outline, recordingStep]
    refine ⟨_, ⟨(s.sub.bind fun m => recording (s.takes m).pcm).isSome,
      h.resume hwaits _⟩, ?_, ?_⟩
    · show u.service.reset = _
      rw [h.service, Service.finish]
      cases s.sub <;> rfl
    · exact Outlines.controller (h.erase hwaits) rfl
  | cancelTornDown =>
    rw [step] at hstep
    split_ifs at hstep with hwaits
    cases hstep
    simp only [Action.outline, recordingStep]
    refine ⟨_, h.resume hwaits _, ?_, h.replace hwaits .cancelPlugin⟩
    show u.service.reset = _
    rw [h.service]
    rfl
  | pluginCancelled =>
    rw [step] at hstep
    split_ifs at hstep with hwaits
    cases hstep
    simp only [Action.outline, recordingStep]
    refine ⟨_, h.resume hwaits _, ?_,
      Outlines.controller (h.erase hwaits) rfl⟩
    show { u.service with capturing := false } = _
    rw [h.service]
    rfl
  | chunk n bytes =>
    have hreceived : Outlines (s.receive n bytes) u := ⟨h.service, h.calls⟩
    rw [step] at hstep
    split_ifs at hstep
    cases hstep
    split_ifs
    · exact autoStop_outlined hreceived
    · exact ⟨u, .inl rfl, hreceived⟩
  | done n =>
    rw [step] at hstep
    split_ifs at hstep
    cases hstep
    exact ⟨u, rfl, h.service, h.calls⟩
  | fire n =>
    have hfired : Outlines { s with timers := s.timers.erase n } u := ⟨h.service, h.calls⟩
    rw [step] at hstep
    split_ifs at hstep
    cases hstep
    exact autoStop_outlined hfired
  | autoStopped =>
    rw [step] at hstep
    split_ifs at hstep with hwaits
    cases hstep
    simp only [Action.outline, recordingStep]
    refine ⟨_, h.resume hwaits _, ?_, h.erase hwaits⟩
    show { u.service with capturing := false } = _
    rw [h.service]
    rfl

theorem run_outlined {as : List Action} (h : Outlines s u) (hrun : run (step maxBytes) s as = some t) :
    ∃ u', outlineRun as u u' ∧ Outlines t u' := by
  induction as generalizing s u with
  | nil =>
    obtain rfl := Option.some.inj hrun
    exact ⟨u, rfl, h⟩
  | cons a rest ih =>
    obtain ⟨m, hm, hrest⟩ := run_cons_iff.mp hrun
    obtain ⟨v, hv, hmid⟩ := step_outlined h hm
    obtain ⟨u', hu', hend⟩ := ih hmid hrest
    exact ⟨u', ⟨v, hv, hu'⟩, hend⟩

/-- **The two models of the service agree.** Every run of the service with its takes is one of the
service that a screen opens over. -/
theorem runs_outlined (screen : Screen) {as : List Action}
    (hrun : run (step maxBytes) .init as = some t) :
    ∃ u, outlineRun as (.opened screen) u ∧ Outlines t u :=
  run_outlined ⟨rfl, .refl _⟩ hrun

end step

end Takes

end Apm.Recording
