import Apm.Api.BodyLimit
import Apm.Lib.AsyncSemaphore
import Apm.Lib.Calls
import Apm.Pronunciation.Scoring

/-!
# The scoring service

`/score` checks the internal secret, reads the upload in bounded chunks, and runs the transcoding
and the scoring in a worker thread behind the inference gate. Any number of requests interleave,
and their tasks may be cancelled while they wait; a thread that has started is waited for.
-/

namespace Apm.Pronunciation

set_option autoImplicit false

open Apm.Api (Bytes)
open Apm.Lib

/-! ## The upload -/

/-- `_READ_CHUNK` -/
def readChunk : Nat := 64 * 1024

/-- The loop of `_read_bounded_audio` over what is left of the file, with the chunks so far and the
bytes read so far. A round reads a byte at least, so that there are no more rounds than bytes. -/
def readLoop (maxBytes : Nat) : Nat → Bytes → Bytes → Nat → Option Bytes × Nat
  | 0, _, chunks, total => (some chunks, total)
  | fuel + 1, rest, chunks, total =>
    let chunk := rest.take readChunk
    if chunk = [] then (some chunks, total)
    else if maxBytes < total + chunk.length then (none, total + chunk.length)
    else readLoop maxBytes fuel (rest.drop readChunk) (chunks ++ chunk) (total + chunk.length)

/-- `_read_bounded_audio`: the bytes, unless there are too many, and how many were read. -/
def readBoundedAudio (maxBytes : Nat) (audio : Bytes) : Option Bytes × Nat :=
  readLoop maxBytes audio.length audio [] 0

/-- What the deployment fixes: the settings, the decoder of audio, the phonemizer, the acoustic
model and `math.exp`. -/
structure Deployment (Samples : Type) where
  internalSecret : String
  maxAudioBytes : Nat
  load : Bytes → Option Samples
  backend : Text → Option Text
  model : PhonemeAcousticModel Samples
  exp : ℚ → Option ℚ

structure ScoreRequest where
  secret : Option String
  audio : Bytes
  targetText : Text
deriving DecidableEq

inductive Response where
  /-- "Invalid or missing credentials" -/
  | unauthorized
  /-- "Audio upload too large" -/
  | tooLarge
  /-- "Empty audio" or "Could not decode audio" -/
  | undecodable
  | internalError
  | scores (phonemes : List PhonemeScore)
deriving DecidableEq

variable {Samples : Type} (D : Deployment Samples)

def isAscii (s : String) : Bool := s.toList.all fun c => c.toNat < 128

/-- `require_internal_secret`. `hmac.compare_digest` raises on a string that is not ASCII. -/
def requireInternalSecret (secret : Option String) : Except Response Unit :=
  if D.internalSecret = "" then .ok ()
  else
    match secret with
    | none => .error .unauthorized
    | some secret =>
      if !isAscii secret || !isAscii D.internalSecret then .error .internalError
      else if secret = D.internalSecret then .ok ()
      else .error .unauthorized

/-- `to_pcm_16k_mono` -/
def toPcm16kMono (audio : Bytes) : Option Samples :=
  if audio = [] then none else if D.maxAudioBytes < audio.length then none else D.load audio

/-- `_score`, on the worker thread. -/
def scoreUpload (data : Bytes) (targetText : Text) : Response :=
  match toPcm16kMono D data with
  | none => .undecodable
  | some samples =>
    match score D.exp D.model D.backend samples targetText with
    | .ok phonemes => .scores phonemes
    | .error _ => .internalError

/-- What a request is answered when it is alone. -/
def respond (r : ScoreRequest) : Response :=
  match requireInternalSecret D r.secret with
  | .error refusal => refusal
  | .ok () =>
    match (readBoundedAudio D.maxAudioBytes r.audio).1 with
    | none => .tooLarge
    | some data => scoreUpload D data r.targetText

inductive Phase where
  | arrived
  /-- behind the gate, or waiting at it -/
  | gated (data : Bytes)
  | answered (response : Response)
  | cancelled
deriving DecidableEq

structure World where
  gate : FairSemaphore Nat
  calls : List (Call ScoreRequest Phase)

/-- `InferenceGate(max_concurrent)`, in a process that has served nothing yet. -/
def World.init (maxConcurrent : Int) : Except String World :=
  if maxConcurrent < 1 then .error "max_concurrent must be >= 1"
  else .ok ⟨.free maxConcurrent.toNat, []⟩

def World.setPhase (w : World) (i : Nat) (phase : Phase) : World :=
  { w with calls := Call.setPhase w.calls i phase }

inductive Event where
  | arrive (request : ScoreRequest)
  /-- up to the gate -/
  | enter (i : Nat)
  /-- the task is cancelled while it waits at the gate -/
  | cancel (i : Nat)
  | resume (i : Nat)
  /-- the thread returns or raises -/
  | finish (i : Nat)
deriving DecidableEq

def step (w : World) : Event → Option World
  | .arrive request => some { w with calls := w.calls ++ [⟨request, .arrived⟩] }
  | .enter i =>
    match w.calls[i]? with
    | some ⟨r, .arrived⟩ =>
      match requireInternalSecret D r.secret with
      | .error refusal => some (w.setPhase i (.answered refusal))
      | .ok () =>
        match (readBoundedAudio D.maxAudioBytes r.audio).1 with
        | none => some (w.setPhase i (.answered .tooLarge))
        | some data =>
          (w.gate.step (.acquire i)).map fun gate => { w.setPhase i (.gated data) with gate := gate }
    | _ => none
  | .cancel i => (w.gate.step (.cancel i)).map fun gate => { w with gate := gate }
  | .resume i =>
    (w.gate.step (.resume i)).map fun gate =>
      -- a waiter that was cancelled raises
      if w.gate.waiter i = some .woken then { w with gate := gate }
      else { w.setPhase i .cancelled with gate := gate }
  | .finish i =>
    match w.calls[i]? with
    | some ⟨r, .gated data⟩ =>
      (w.gate.step (.release i)).map fun gate =>
        { w.setPhase i (.answered (scoreUpload D data r.targetText)) with gate := gate }
    | _ => none

/-- The requests whose thread is running. -/
def World.running (w : World) : List Nat := w.gate.holders

/-- The requests that wait at the gate and that no slot is kept for. -/
def World.waiting (w : World) : List Nat := w.gate.sem.pending

/-! ## What every run keeps -/

def PhaseOk (r : ScoreRequest) : Phase → Prop
  | .gated data => respond D r = scoreUpload D data r.targetText
  | .answered response => response = respond D r
  | _ => True

structure Inv (maxConcurrent : Nat) (w : World) : Prop where
  fair : FairSemaphore.Fair maxConcurrent w.gate
  /-- the requests inside the gate are those that have entered and have no answer -/
  gated : ∀ i, w.gate.Inside i ↔ ∃ r data, w.calls[i]? = some ⟨r, .gated data⟩
  phases : ∀ c ∈ w.calls, PhaseOk D c.arg c.phase

variable {D} {maxConcurrent : Nat} {w w' : World} {i : Nat} {gate : FairSemaphore Nat}

/-- The requests inside the gate, when one request has moved. -/
theorem gated_setPhase {r : ScoreRequest} {old phase : Phase}
    (hw : ∀ i, w.gate.Inside i ↔ ∃ r data, w.calls[i]? = some ⟨r, .gated data⟩)
    (hcall : w.calls[i]? = some ⟨r, old⟩)
    (hgate : ∀ j, gate.Inside j ↔ (w.gate.Inside j ∧ j ≠ i) ∨ j = i ∧ ∃ data, phase = .gated data) :
    ∀ j, gate.Inside j ↔
      ∃ r data, (Call.setPhase w.calls i phase)[j]? = some ⟨r, .gated data⟩ := by
  intro j
  rw [hgate, hw, Call.getElem?_setPhase]
  by_cases hj : i = j
  · subst hj
    rw [if_pos rfl, hcall]
    simp only [ne_eq, not_true_eq_false, and_false, true_and, false_or, Option.map_some,
      Option.some.injEq, Call.mk.injEq]
    exact ⟨fun ⟨data, hdata⟩ => ⟨r, data, rfl, hdata⟩, fun ⟨_, data, _, hdata⟩ => ⟨data, hdata⟩⟩
  · rw [if_neg hj]
    simp [Ne.symm hj]

theorem inv_step {e : Event} (hw : Inv D maxConcurrent w) (h : step D w e = some w') :
    Inv D maxConcurrent w' := by
  cases e with
  | arrive request =>
    obtain rfl := Option.some.inj h
    refine ⟨hw.fair, fun i => (hw.gated i).trans ?_, Call.forall_begin hw.phases trivial⟩
    rw [List.getElem?_append]
    split
    · exact Iff.rfl
    · rename_i hlen
      rw [List.getElem?_eq_none (Nat.not_lt.mp hlen)]
      simp [List.getElem?_singleton]
  | enter i =>
    simp only [step] at h
    split at h
    · rename_i r hcall
      have hout : ¬ w.gate.Inside i := by
        rw [hw.gated]
        rintro ⟨r', data, hgated⟩
        exact nomatch (Call.mk.inj (Option.some.inj (hcall.symm.trans hgated))).2
      have hsame (phase : Phase) (hphase : ∀ data, phase ≠ .gated data) : ∀ j, w.gate.Inside j ↔
          (w.gate.Inside j ∧ j ≠ i) ∨ j = i ∧ ∃ data, phase = .gated data := by
        intro j
        refine ⟨fun hj => .inl ⟨hj, ?_⟩, ?_⟩
        · rintro rfl
          exact hout hj
        · rintro (⟨hj, -⟩ | ⟨-, data, hdata⟩)
          · exact hj
          · exact absurd hdata (hphase data)
      split at h
      · rename_i refusal hrefusal
        obtain rfl := Option.some.inj h
        refine ⟨hw.fair, gated_setPhase hw.gated hcall (hsame _ nofun),
          Call.forall_setPhase hw.phases fun c hc => ?_⟩
        obtain rfl := Option.some.inj (hcall.symm.trans hc)
        show refusal = respond D r
        rw [respond, hrefusal]
      · rename_i hauthorized
        split at h
        · rename_i hlarge
          obtain rfl := Option.some.inj h
          refine ⟨hw.fair, gated_setPhase hw.gated hcall (hsame _ nofun),
            Call.forall_setPhase hw.phases fun c hc => ?_⟩
          obtain rfl := Option.some.inj (hcall.symm.trans hc)
          show .tooLarge = respond D r
          rw [respond, hauthorized]
          dsimp only
          rw [hlarge]
        · rename_i data hdata
          obtain ⟨gate, hgate, rfl⟩ := Option.map_eq_some_iff.mp h
          refine ⟨FairSemaphore.fair_step hw.fair hgate, gated_setPhase hw.gated hcall fun j => ?_,
            Call.forall_setPhase hw.phases fun c hc => ?_⟩
          · rw [FairSemaphore.inside_acquire hgate]
            by_cases hj : j = i
            · simp [hj]
            · simp [hj]
          · obtain rfl := Option.some.inj (hcall.symm.trans hc)
            show respond D r = _
            rw [respond, hauthorized]
            dsimp only
            rw [hdata]
    · cases h
  | cancel i =>
    obtain ⟨gate, hgate, rfl⟩ := Option.map_eq_some_iff.mp h
    exact ⟨FairSemaphore.fair_step hw.fair hgate,
      fun j => (FairSemaphore.inside_cancel hw.fair hgate).trans (hw.gated j), hw.phases⟩
  | resume i =>
    obtain ⟨gate, hgate, rfl⟩ := Option.map_eq_some_iff.mp h
    have hfair := FairSemaphore.fair_step hw.fair hgate
    have hinside (j) := FairSemaphore.inside_resume (j := j) hw.fair hgate
    split
    · rename_i hwoken
      refine ⟨hfair, fun j => ?_, hw.phases⟩
      rw [hinside, if_pos hwoken]
      exact hw.gated j
    · rename_i hgone
      obtain ⟨p, hp⟩ := FairSemaphore.waiter_of_resume hgate
      obtain ⟨r, data, hcall⟩ := (hw.gated i).mp (.inl (FairSemaphore.mem_keys_of_waiter hp))
      refine ⟨hfair, gated_setPhase hw.gated hcall fun j => ?_,
        Call.forall_setPhase hw.phases fun _ _ => trivial⟩
      rw [hinside, if_neg hgone]
      simp
  | finish i =>
    simp only [step] at h
    split at h
    · rename_i r data hcall
      obtain ⟨gate, hgate, rfl⟩ := Option.map_eq_some_iff.mp h
      refine ⟨FairSemaphore.fair_step hw.fair hgate, gated_setPhase hw.gated hcall fun j => ?_,
        Call.forall_setPhase hw.phases fun c hc => ?_⟩
      · rw [FairSemaphore.inside_release hw.fair hgate]
        simp
      · obtain rfl := Option.some.inj (hcall.symm.trans hc)
        exact (hw.phases _ (List.mem_of_getElem? hcall)).symm
    · cases h

theorem inv_of_run {w₀ : World} {max : Int} {events : List Event} (hinit : World.init max = .ok w₀)
    (hrun : run (step D) w₀ events = some w) : Inv D max.toNat w := by
  rw [World.init] at hinit
  split at hinit
  · cases hinit
  · obtain rfl := Except.ok.inj hinit
    refine run_preserves (fun _ _ _ => inv_step) ⟨FairSemaphore.fair_free, fun i => ?_,
      List.forall_mem_nil _⟩ hrun
    exact ⟨fun h => h.elim nofun nofun, fun ⟨_, _, h⟩ => absurd h.symm (Option.some_ne_none _)⟩

/-- **The gate bounds the inferences, and loses nobody.** From a gate of at least one slot, in every
interleaving of requests, with tasks that are cancelled while they wait: no more threads run than
there are slots. The slots are given in the order in which the requests came to the gate, but for
those that were cancelled while they waited. While a request waits and no slot is kept for a task
that is about to resume, every slot is taken. And a request is answered as if it were alone. -/
theorem gate_fair {w₀ : World} {max : Int} {events : List Event} (hinit : World.init max = .ok w₀)
    (hrun : run (step D) w₀ events = some w) :
    (w.running.length : Int) ≤ max ∧
      w.gate.admitted ++ w.waiting = w.gate.arrived.filter (· ∉ w.gate.dropped) ∧
      (w.waiting ≠ [] → w.gate.sem.handed = 0 → (w.running.length : Int) = max) ∧
      ∀ c ∈ w.calls, ∀ response, c.phase = .answered response → response = respond D c.arg := by
  have hw := inv_of_run hinit hrun
  have hmax : 1 ≤ max := by
    rw [World.init] at hinit
    split at hinit
    · cases hinit
    · omega
  have hconserved := hw.fair.conserved
  refine ⟨?_, hw.fair.fifo, fun hwaiting hhanded => ?_, fun c hc response hresponse => ?_⟩
  · rw [World.running]
    omega
  · rw [World.running]
    have hzero : w.gate.sem.value = 0 := by
      rcases hw.fair.idle with hzero | hnone | hready
      · exact hzero
      · exact absurd hnone hwaiting
      · omega
    omega
  · have hphase := hw.phases c hc
    rw [hresponse] at hphase
    exact hphase

/-- A model of two phonemes that hears them in two frames. -/
def twoPhonemes : PhonemeAcousticModel Unit where
  alphabet := [['-'], ['a'], ['b']]
  nodup := by decide
  blankId := 0
  blank_lt := by decide
  emissionLogProbs _ := [[-4, 0, -4], [-4, -4, 0]]
  width _ := by decide

/-- One slot and three requests; the second one gives up while it waits. -/
def threeRequests : List Event :=
  [.arrive ⟨none, [1], "a".toList⟩, .arrive ⟨none, [2], "b".toList⟩, .arrive ⟨none, [3], "b".toList⟩,
    .enter 0, .enter 1, .enter 2, .cancel 1, .finish 0, .resume 1]

def twoPhonemeService : Deployment Unit :=
  ⟨"", 8, fun _ => some (), some, twoPhonemes, fun _ => some 1⟩

theorem gate_fair_threeRequests :
    ∃ w, run (step twoPhonemeService) ⟨.free 1, []⟩ threeRequests = some w ∧
      (w.running.length : Int) ≤ 1 ∧ w.gate.admitted = [0, 2] := by
  have hcheck : (run (step twoPhonemeService) ⟨.free 1, []⟩ threeRequests).map
      (fun w => decide (w.gate.admitted = [0, 2])) = some true := by decide
  obtain ⟨w, hrun, hw⟩ := exists_run_of_check _ _ _ _ hcheck
  have hinit : World.init 1 = .ok ⟨.free 1, []⟩ := rfl
  exact ⟨w, hrun, (gate_fair hinit hrun).1, of_decide_eq_true hw⟩

end Apm.Pronunciation
