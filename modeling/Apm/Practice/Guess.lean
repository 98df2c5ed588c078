import Apm.Lib.Run
import Apm.Lib.Waiting
import Apm.Recording.Controllers

/-!
# A guess is final

`MinimalPairsViewModel` lets the learner guess which word of a pair was spoken, also while the word
is still played. A playback goes back to the phase in which it began. `Apm.Recording.Controllers`
has the view model as the recorder sees it; here it has all of its state.

Whether a guess has been accepted since the pair was loaded is recorded; no method reads it.
-/

namespace Apm.Practice.MinimalPairs

open Apm.Lib Apm.Recording

set_option autoImplicit false

inductive PairPhase where
  | idle
  | playing
  | guessing
  | guessed
  | recording
  | scoring
  | reviewing
  deriving DecidableEq, Repr

structure MinimalPair where
  wordA : String
  wordB : String
  deriving DecidableEq, Repr

structure PairAttempt where
  transcript : String
  saidTarget : Bool
  saidOther : Bool
  coaching : String
  deriving DecidableEq, Repr

structure MinimalPairsState where
  phase : PairPhase
  pair : Option MinimalPair
  spokenWord : Option String
  spokenAudioB64 : Option String
  spokenMime : String
  guess : Option String
  myRecording : Option (List UInt8)
  attempt : Option PairAttempt
  round : Nat
  error : Option String
  unavailable : Bool
  deriving DecidableEq, Repr

/-- What a call of a method waits for. -/
inductive Call where
  /-- `loadPair`, alone or in `nextRound` -/
  | synthesize (pair : MinimalPair) (spoken : String) (thenPlay : Bool)
  /-- `nextRound`, behind its `loadPair` -/
  | playNext
  | playWord (restore : PairPhase)
  | playMine
  | record
  /-- `stopAndScore`, for the recorder, the consent and the score -/
  | stop
  | consent (bytes : List UInt8)
  | score
  | cancel
  deriving DecidableEq, Repr

structure World where
  state : MinimalPairsState
  mounted : Bool
  busy : Bool
  calls : List Call
  /-- history: a guess has been accepted for the pair -/
  answered : Bool
  deriving DecidableEq, Repr

inductive Action where
  | markUnavailable
  | loadPair (pair : MinimalPair) (spokenA : Bool)
  | synthesized (pair : MinimalPair) (spoken : String) (thenPlay : Bool)
      (clip : Except Failure (String × String))
  | playWord
  | wordPlayed (restore : PairPhase) (failed : Bool)
  | guess (word : String)
  | record
  /-- the recorder has started, or its start has failed -/
  | recorded (started : Except Failure Bool)
  | stopAndScore
  | stopped (bytes : Except Failure (Option (List UInt8)))
  | consented (bytes : List UInt8) (transcription : Except Failure Bool)
  | scored (attempt : Except Failure PairAttempt)
  | playMine
  | minePlayed (failed : Bool)
  | nextRound (pair : MinimalPair) (spokenA : Bool)
  | playNext
  | cancel
  | cancelled (failed : Bool)
  | dispose

namespace World

def init : World where
  state := ⟨.idle, none, none, none, "audio/mpeg", none, none, none, 1, none, false⟩
  mounted := true
  busy := false
  calls := []
  answered := false

variable (w : World)

def wait (c : Call) : World := { w with calls := c :: w.calls }

/-- What waits as `c` goes on. -/
def resume (c : Call) (next : World → World) : Option World :=
  if c ∈ w.calls then some (next { w with calls := w.calls.erase c }) else none

/-- The screen calls a method. -/
def whenMounted (next : World → World) : Option World := if w.mounted then some (next w) else none

def setPhase (phase : PairPhase) : World := { w with state := { w.state with phase := phase } }

/-- `_busy = false`, in a `finally`. -/
def release : World := { w with busy := false }

def fail (message : String) : World :=
  if w.mounted then { w with state := { w.state with phase := .idle, error := some message } }
  else w

/-- The `catch` clauses of `loadPair` and `stopAndScore`. -/
def failed (failure : Failure) (message : String) : World :=
  match failure with
  | .apiException m => w.fail m
  | .other => w.fail message

/-- `loadPair`, with the pair and the word it draws. -/
def loadPair (pair : MinimalPair) (spokenA thenPlay : Bool) : World :=
  if w.busy then w
  else { w with
    busy := true
    state := { w.state with
      phase := .idle, error := none, guess := none, attempt := none, myRecording := none } }.wait
      (.synthesize pair (if spokenA then pair.wordA else pair.wordB) thenPlay)

/-- `loadPair`, behind its await. -/
def loaded (pair : MinimalPair) (spoken : String) (clip : Except Failure (String × String)) :
    World :=
  match clip with
  | .error failure => (w.failed failure "Could not load a pair. Please try again.").release
  | .ok (audioB64, mime) =>
    if w.mounted then { w with
      answered := false
      state := { w.state with
        pair := some pair
        spokenWord := some spoken
        spokenAudioB64 := some audioB64
        spokenMime := mime
        phase := .guessing } }.release
    else w.release

def synthesized (pair : MinimalPair) (spoken : String) (thenPlay : Bool)
    (clip : Except Failure (String × String)) : World :=
  if thenPlay then (w.loaded pair spoken clip).wait .playNext else w.loaded pair spoken clip

def playWord : World :=
  if w.busy = true ∨ w.state.spokenAudioB64.getD "" = "" then w
  else ({ w with busy := true }.setPhase .playing).wait (.playWord w.state.phase)

def wordPlayed (restore : PairPhase) (failed : Bool) : World :=
  if w.mounted then { w with state := { w.state with
    phase := restore, error := if failed then some "Could not play the word." else none } }.release
  else w.release

def guess (word : String) : World :=
  if w.state.phase ≠ .guessing ∧ w.state.phase ≠ .playing then w
  else { w with answered := true, state := { w.state with guess := some word, phase := .guessed } }

def record : World := if w.busy = true ∨ w.state.pair = none then w else w.wait .record

def recorded (started : Except Failure Bool) : World :=
  match started with
  | .error _ => w -- the start is outside any `try`: its failure leaves the method
  | .ok started =>
    if !w.mounted then w
    else if !started then w.fail "Microphone is not available."
    else { w with state := { w.state with phase := .recording, error := none } }

def stopAndScore : World :=
  if w.busy = true ∨ w.state.phase ≠ .recording then w else { w with busy := true }.wait .stop

def stopped (bytes : Except Failure (Option (List UInt8))) : World :=
  match bytes with
  | .error failure => (w.failed failure "Could not score your attempt. Please try again.").release
  | .ok bytes =>
    if !w.mounted then w.release
    else if bytes.getD [] = [] then (w.setPhase .guessed).release
    else w.wait (.consent (bytes.getD []))

def consented (bytes : List UInt8) (transcription : Except Failure Bool) : World :=
  match transcription with
  | .error failure => (w.failed failure "Could not score your attempt. Please try again.").release
  | .ok transcription =>
    if !w.mounted then w.release
    else if !transcription then (w.fail "Transcription consent has been revoked").release
    else { w with state := { w.state with phase := .scoring, myRecording := some bytes } }.wait .score

def scored (attempt : Except Failure PairAttempt) : World :=
  match attempt with
  | .error failure => (w.failed failure "Could not score your attempt. Please try again.").release
  | .ok attempt =>
    if !w.mounted then w.release
    else { w with state := { w.state with attempt := some attempt, phase := .reviewing } }.release

def playMine : World :=
  if w.busy = true ∨ w.state.myRecording.getD [] = [] then w
  else { w with busy := true }.wait .playMine

def minePlayed (failed : Bool) : World :=
  if failed = true ∧ w.mounted = true then
    { w with state := { w.state with error := some "Could not play your recording." } }.release
  else w.release

def nextRound (pair : MinimalPair) (spokenA : Bool) : World :=
  if w.busy then w
  else { w with state := { w.state with round := w.state.round + 1, phase := .idle } }.loadPair
    pair spokenA true

def playNext : World := if w.mounted = true ∧ w.state.pair ≠ none then w.playWord else w

def cancel : World :=
  if w.mounted = false ∨ w.state.phase ≠ .recording then w else w.wait .cancel

def cancelled (failed : Bool) : World :=
  if failed = false ∧ w.mounted = true then w.setPhase .guessed else w

end World

def step (w : World) : Action → Option World
  | .markUnavailable => w.whenMounted fun w =>
      { w with state := { w.state with unavailable := true } }
  | .loadPair pair spokenA => w.whenMounted fun w => w.loadPair pair spokenA false
  | .synthesized pair spoken thenPlay clip => w.resume (.synthesize pair spoken thenPlay) fun w =>
      w.synthesized pair spoken thenPlay clip
  | .playWord => w.whenMounted World.playWord
  | .wordPlayed restore failed => w.resume (.playWord restore) fun w => w.wordPlayed restore failed
  | .guess word => w.whenMounted fun w => w.guess word
  | .record => w.whenMounted World.record
  | .recorded started => w.resume .record fun w => w.recorded started
  | .stopAndScore => w.whenMounted World.stopAndScore
  | .stopped bytes => w.resume .stop fun w => w.stopped bytes
  | .consented bytes transcription => w.resume (.consent bytes) fun w =>
      w.consented bytes transcription
  | .scored attempt => w.resume .score fun w => w.scored attempt
  | .playMine => w.whenMounted World.playMine
  | .minePlayed failed => w.resume .playMine fun w => w.minePlayed failed
  | .nextRound pair spokenA => w.whenMounted fun w => w.nextRound pair spokenA
  | .playNext => w.resume .playNext World.playNext
  | .cancel => some w.cancel
  | .cancelled failed => w.resume .cancel fun w => w.cancelled failed
  | .dispose => some { w with mounted := false }

/-! ## The property and its condition -/

/-- Once answered, the pair is not guessed again: neither the phase nor a guess goes back. -/
structure GuessFinal (s : World) (a : Action) (t : World) : Prop where
  phase : t.answered = true → t.state.phase ≠ .guessing
  once : ∀ word, a = .guess word → s.answered = true → t = s

/-- A playback takes a guess only for an unanswered pair, and goes back to the guessing only while
the pair is unanswered. -/
def Unanswered (s : World) (a : Action) (_ : World) : Prop :=
  match a with
  | .guess _ => s.state.phase = .playing → s.answered = false
  | .wordPlayed .guessing _ => s.mounted = true → s.answered = false
  | _ => True

/-- No guess is made in a playback that goes back to the guessing, nor in one for an answered
pair. -/
def GuessedInSilence (s : World) (a : Action) (_ : World) : Prop :=
  match a with
  | .guess _ => s.state.phase = .playing → s.answered = false ∧ .playWord .guessing ∉ s.calls
  | _ => True

/-! ## What the methods leave -/

/-- `c` no longer waits. -/
abbrev World.goesOn (s : World) (c : Call) : World := { s with calls := s.calls.erase c }

/-- The answer stays, no playback begins, and nothing goes back to the guessing. -/
structure Stays (s t : World) : Prop where
  answered : t.answered = s.answered
  phase : t.state.phase = .guessing → s.state.phase = .guessing
  plays : ∀ restore, .playWord restore ∈ t.calls → .playWord restore ∈ s.calls

namespace Stays

variable {s t u : World}

theorem refl (s : World) : Stays s s := ⟨rfl, id, fun _ h => h⟩

theorem trans (h : Stays s t) (h' : Stays t u) : Stays s u where
  answered := h'.answered.trans h.answered
  phase := fun hu => h.phase (h'.phase hu)
  plays := fun restore hu => h.plays restore (h'.plays restore hu)

theorem release (h : Stays s t) : Stays s t.release := { h with }

theorem goesOn (s : World) (c : Call) : Stays s (s.goesOn c) :=
  { refl s with plays := fun _ h => List.mem_of_mem_erase h }

theorem wait (h : Stays s t) {c : Call} (hc : ∀ restore, c ≠ .playWord restore) :
    Stays s (t.wait c) :=
  { h with plays := fun restore hr =>
      h.plays restore ((List.mem_cons.mp hr).resolve_left (hc restore).symm) }

/-- Only the state and the guard change, and the phase not to the guessing. -/
theorem of_phase (hanswered : t.answered = s.answered) (hcalls : t.calls = s.calls)
    (hphase : t.state.phase = s.state.phase ∨ t.state.phase ≠ .guessing) : Stays s t where
  answered := hanswered
  phase := fun ht => hphase.elim (fun h => h.symm.trans ht) (absurd ht)
  plays := fun _ h => hcalls ▸ h

theorem setPhase (s : World) {phase : PairPhase} (h : phase ≠ .guessing) :
    Stays s (s.setPhase phase) := of_phase rfl rfl (.inr h)

theorem fail (s : World) (message : String) : Stays s (s.fail message) := by
  rw [World.fail]
  split_ifs
  · exact of_phase rfl rfl (.inr nofun)
  · exact refl s

theorem failed (s : World) (failure : Failure) (message : String) :
    Stays s (s.failed failure message) := by
  cases failure <;> exact fail s _

theorem loadPair (s : World) (pair : MinimalPair) (spokenA thenPlay : Bool) :
    Stays s (s.loadPair pair spokenA thenPlay) := by
  rw [World.loadPair]
  split
  · exact refl s
  · apply wait
    · exact of_phase rfl rfl (.inr nofun)
    · nofun

theorem record (s : World) : Stays s s.record := by
  rw [World.record]
  split_ifs
  · exact refl s
  · apply wait (refl s)
    nofun

theorem recorded (s : World) (started : Except Failure Bool) : Stays s (s.recorded started) := by
  cases started with
  | error failure => exact refl s
  | ok started =>
    simp only [World.recorded]
    split_ifs
    · exact refl s
    · exact fail s _
    · exact of_phase rfl rfl (.inr nofun)

theorem stopAndScore (s : World) : Stays s s.stopAndScore := by
  rw [World.stopAndScore]
  split_ifs
  · exact refl s
  · apply wait
    · exact of_phase rfl rfl (.inl rfl)
    · nofun

theorem stopped (s : World) (bytes : Except Failure (Option (List UInt8))) :
    Stays s (s.stopped bytes) := by
  cases bytes with
  | error failure => exact (failed s failure _).release
  | ok bytes =>
    simp only [World.stopped]
    split_ifs
    · exact (refl s).release
    · exact (setPhase s (by decide)).release
    · apply wait (refl s)
      nofun

theorem consented (s : World) (bytes : List UInt8) (transcription : Except Failure Bool) :
    Stays s (s.consented bytes transcription) := by
  cases transcription with
  | error failure => exact (failed s failure _).release
  | ok transcription =>
    simp only [World.consented]
    split_ifs
    · exact (refl s).release
    · exact (fail s _).release
    · apply wait
      · exact of_phase rfl rfl (.inr nofun)
      · nofun

theorem scored (s : World) (attempt : Except Failure PairAttempt) : Stays s (s.scored attempt) := by
  cases attempt with
  | error failure => exact (failed s failure _).release
  | ok attempt =>
    simp only [World.scored]
    split_ifs
    · exact (refl s).release
    · exact of_phase rfl rfl (.inr nofun)

theorem playMine (s : World) : Stays s s.playMine := by
  rw [World.playMine]
  split_ifs
  · exact refl s
  · apply wait
    · exact of_phase rfl rfl (.inl rfl)
    · nofun

theorem minePlayed (s : World) (failed : Bool) : Stays s (s.minePlayed failed) := by
  rw [World.minePlayed]
  split_ifs <;> exact of_phase rfl rfl (.inl rfl)

theorem nextRound (s : World) (pair : MinimalPair) (spokenA : Bool) :
    Stays s (s.nextRound pair spokenA) := by
  rw [World.nextRound]
  split
  · exact refl s
  · refine trans ?_ (loadPair _ pair spokenA true)
    exact of_phase rfl rfl (.inr nofun)

theorem cancel (s : World) : Stays s s.cancel := by
  rw [World.cancel]
  split_ifs
  · exact refl s
  · apply wait (refl s)
    nofun

theorem cancelled (s : World) (failed : Bool) : Stays s (s.cancelled failed) := by
  rw [World.cancelled]
  split_ifs
  · exact setPhase s (by decide)
  · exact refl s

end Stays

section steps

variable {s t : World}

theorem whenMounted_eq_some_iff {next : World → World} :
    s.whenMounted next = some t ↔ s.mounted = true ∧ next s = t := by
  rw [World.whenMounted, Option.ite_none_right_eq_some, Option.some_inj]

theorem resume_eq_some_iff {c : Call} {next : World → World} :
    s.resume c next = some t ↔ c ∈ s.calls ∧ next (s.goesOn c) = t := by
  rw [World.resume, Option.ite_none_right_eq_some, Option.some_inj]

/-- The method that an action runs. -/
inductive Moves (s : World) : Action → World → Prop where
  | markUnavailable : Moves s .markUnavailable
      { s with state := { s.state with unavailable := true } }
  | loadPair (pair : MinimalPair) (spokenA : Bool) :
      Moves s (.loadPair pair spokenA) (s.loadPair pair spokenA false)
  | synthesized (pair : MinimalPair) (spoken : String) (thenPlay : Bool)
      (clip : Except Failure (String × String)) (hcall : .synthesize pair spoken thenPlay ∈ s.calls) :
      Moves s (.synthesized pair spoken thenPlay clip)
        ((s.goesOn (.synthesize pair spoken thenPlay)).synthesized pair spoken thenPlay clip)
  | playWord : Moves s .playWord s.playWord
  | wordPlayed (restore : PairPhase) (failed : Bool) (hcall : .playWord restore ∈ s.calls) :
      Moves s (.wordPlayed restore failed)
        ((s.goesOn (.playWord restore)).wordPlayed restore failed)
  | guess (word : String) : Moves s (.guess word) (s.guess word)
  | record : Moves s .record s.record
  | recorded (started : Except Failure Bool) :
      Moves s (.recorded started) ((s.goesOn .record).recorded started)
  | stopAndScore : Moves s .stopAndScore s.stopAndScore
  | stopped (bytes : Except Failure (Option (List UInt8))) (hcall : .stop ∈ s.calls) :
      Moves s (.stopped bytes) ((s.goesOn .stop).stopped bytes)
  | consented (bytes : List UInt8) (transcription : Except Failure Bool)
      (hcall : .consent bytes ∈ s.calls) : Moves s (.consented bytes transcription)
        ((s.goesOn (.consent bytes)).consented bytes transcription)
  | scored (attempt : Except Failure PairAttempt) (hcall : .score ∈ s.calls) :
      Moves s (.scored attempt) ((s.goesOn .score).scored attempt)
  | playMine : Moves s .playMine s.playMine
  | minePlayed (failed : Bool) (hcall : .playMine ∈ s.calls) :
      Moves s (.minePlayed failed) ((s.goesOn .playMine).minePlayed failed)
  | nextRound (pair : MinimalPair) (spokenA : Bool) :
      Moves s (.nextRound pair spokenA) (s.nextRound pair spokenA)
  | playNext : Moves s .playNext (s.goesOn .playNext).playNext
  | cancel : Moves s .cancel s.cancel
  | cancelled (failed : Bool) : Moves s (.cancelled failed) ((s.goesOn .cancel).cancelled failed)
  | dispose : Moves s .dispose { s with mounted := false }

theorem moves_of_step {a : Action} (hstep : step s a = some t) : Moves s a t := by
  cases a with
  | cancel | dispose =>
    obtain rfl := Option.some.inj hstep
    constructor
  | markUnavailable | loadPair | playWord | guess | record | stopAndScore | playMine | nextRound =>
    simp only [step] at hstep
    obtain ⟨-, rfl⟩ := whenMounted_eq_some_iff.mp hstep
    constructor
  | recorded | playNext | cancelled =>
    simp only [step] at hstep
    obtain ⟨-, rfl⟩ := resume_eq_some_iff.mp hstep
    constructor
  | synthesized | wordPlayed | stopped | consented | scored | minePlayed =>
    simp only [step] at hstep
    obtain ⟨hcall, rfl⟩ := resume_eq_some_iff.mp hstep
    constructor
    exact hcall

/-- The action neither loads a pair nor plays its word nor takes a guess. -/
def Action.aside : Action → Bool
  | .synthesized .. | .playWord | .wordPlayed .. | .guess _ | .playNext => false
  | _ => true

theorem stays_step {a : Action} (ha : a.aside = true) (hstep : step s a = some t) : Stays s t := by
  have hgoesOn := Stays.goesOn s
  cases moves_of_step hstep with
  | markUnavailable => exact Stays.of_phase rfl rfl (.inl rfl)
  | loadPair pair spokenA => exact Stays.loadPair s pair spokenA false
  | record => exact Stays.record s
  | recorded started => exact (hgoesOn _).trans (Stays.recorded _ started)
  | stopAndScore => exact Stays.stopAndScore s
  | stopped bytes => exact (hgoesOn _).trans (Stays.stopped _ bytes)
  | consented bytes transcription => exact (hgoesOn _).trans (Stays.consented _ bytes transcription)
  | scored attempt => exact (hgoesOn _).trans (Stays.scored _ attempt)
  | playMine => exact Stays.playMine s
  | minePlayed failed => exact (hgoesOn _).trans (Stays.minePlayed _ failed)
  | nextRound pair spokenA => exact Stays.nextRound s pair spokenA
  | cancel => exact Stays.cancel s
  | cancelled failed => exact (hgoesOn _).trans (Stays.cancelled _ failed)
  | dispose => exact Stays.of_phase rfl rfl (.inl rfl)
  | synthesized | playWord | wordPlayed | guess | playNext => cases ha

/-- An answered pair is not being guessed. -/
def Final (s : World) : Prop := s.answered = true → s.state.phase ≠ .guessing

theorem Stays.final (h : Stays s t) (hs : Final s) : Final t := by
  intro ht hphase
  rw [h.answered] at ht
  exact hs ht (h.phase hphase)

theorem final_loaded (hs : Final s) (pair : MinimalPair) (spoken : String)
    (clip : Except Failure (String × String)) : Final (s.loaded pair spoken clip) := by
  cases clip with
  | error failure => exact (Stays.failed s failure _).release.final hs
  | ok clip =>
    simp only [World.loaded]
    split_ifs
    · exact nofun
    · exact (Stays.refl s).release.final hs

theorem final_synthesized (hs : Final s) (pair : MinimalPair) (spoken : String) (thenPlay : Bool)
    (clip : Except Failure (String × String)) : Final (s.synthesized pair spoken thenPlay clip) := by
  rw [World.synthesized]
  split_ifs
  · exact final_loaded hs pair spoken clip
  · exact final_loaded hs pair spoken clip

theorem final_playWord (hs : Final s) : Final s.playWord := by
  rw [World.playWord]
  split_ifs
  · exact hs
  · exact fun _ => nofun

theorem final_playNext (hs : Final s) : Final s.playNext := by
  rw [World.playNext]
  split_ifs
  · exact final_playWord hs
  · exact hs

theorem final_wordPlayed_iff (hs : Final s) (restore : PairPhase) (failed : Bool) :
    Final (s.wordPlayed restore failed) ↔
      (restore = .guessing → s.mounted = true → s.answered = false) := by
  by_cases hmounted : s.mounted = true
  · rw [World.wordPlayed, if_pos hmounted]
    constructor
    · intro ht hrestore _
      exact Bool.eq_false_iff.mpr fun hanswered => ht hanswered hrestore
    · intro h hanswered hrestore
      exact Bool.false_ne_true ((h hrestore hmounted).symm.trans hanswered)
  · rw [World.wordPlayed, if_neg hmounted]
    exact iff_of_true ((Stays.refl s).release.final hs) fun _ h => absurd h hmounted

/-- A guess that is accepted in the guessing phase is the first one. -/
theorem guess_iff (hs : Final s) (word : String) :
    GuessFinal s (.guess word) (s.guess word) ↔ (s.state.phase = .playing → s.answered = false) := by
  by_cases hphase : s.state.phase ≠ .guessing ∧ s.state.phase ≠ .playing
  · have hrefused : s.guess word = s := if_pos hphase
    rw [hrefused]
    exact iff_of_true ⟨hs, fun _ _ _ => rfl⟩ fun h => absurd h hphase.2
  · have haccepted : s.guess word =
        { s with answered := true, state := { s.state with guess := some word, phase := .guessed } } :=
      if_neg hphase
    rw [haccepted]
    constructor
    · intro ht hplaying
      refine Bool.eq_false_iff.mpr fun hanswered => ?_
      have hsame := congrArg (fun w : World => w.state.phase) (ht.once word rfl hanswered)
      rw [hplaying] at hsame
      cases hsame
    · intro h
      refine ⟨fun _ => nofun, fun _ _ hanswered => ?_⟩
      rcases not_and_or.mp hphase with hguessing | hplaying
      · exact absurd (not_ne_iff.mp hguessing) (hs hanswered)
      · rw [h (not_ne_iff.mp hplaying)] at hanswered
        cases hanswered

theorem guessFinal_iff_unanswered {a : Action} (hs : Final s) (hstep : step s a = some t) :
    GuessFinal s a t ↔ Unanswered s a t := by
  have hgoesOn : ∀ c, Final (s.goesOn c) := fun _ => hs
  cases moves_of_step hstep with
  | synthesized pair spoken thenPlay clip =>
    exact iff_of_true ⟨final_synthesized (hgoesOn _) pair spoken thenPlay clip, nofun⟩ trivial
  | playWord => exact iff_of_true ⟨final_playWord hs, nofun⟩ trivial
  | playNext => exact iff_of_true ⟨final_playNext (hgoesOn _), nofun⟩ trivial
  | wordPlayed restore failed =>
    have hiff := final_wordPlayed_iff (hgoesOn (.playWord restore)) restore failed
    cases restore with
    | guessing =>
      exact ⟨fun ht => hiff.mp ht.phase rfl, fun h => ⟨hiff.mpr fun _ => h, nofun⟩⟩
    | _ => exact iff_of_true ⟨hiff.mpr nofun, nofun⟩ trivial
  | guess word => exact guess_iff hs word
  | _ => exact iff_of_true ⟨(stays_step rfl hstep).final hs, nofun⟩ trivial

end steps

/-- **A guess is final exactly in the runs in which a playback takes a guess only for an unanswered
pair, and goes back to the guessing only while the pair is unanswered.** -/
theorem guess_final_iff (as : List Action) :
    Along step GuessFinal World.init as ↔ Along step Unanswered World.init as :=
  along_iff_of_invariant (I := Final) (P := GuessFinal) (G := Unanswered)
    (fun _ _ _ hs hstep => guessFinal_iff_unanswered hs hstep)
    (fun _ _ _ hs h hstep => ((guessFinal_iff_unanswered hs hstep).mpr h).phase) nofun

/-- The word is guessed while it is played, and the end of the playback opens the guess again. -/
theorem guess_reopened :
    ¬Along step GuessFinal World.init
      [.loadPair ⟨"ship", "sheep"⟩ true,
        .synthesized ⟨"ship", "sheep"⟩ "ship" false (.ok ("SUQz", "audio/mpeg")),
        .playWord, .guess "sheep", .wordPlayed .guessing false] := by
  intro h
  have hguessed := (h _ rfl).2 _ rfl |>.2 _ rfl |>.2 _ rfl |>.2
  have hplayed := (hguessed _ rfl).1
  exact hplayed.phase rfl rfl

/-! ## One call at a time -/

/-- The call has set `_busy`, and clears it at its end. -/
def Call.guarded : Call → Bool
  | .playNext | .record | .cancel => false
  | _ => true

def Exclusive (s : World) : Prop := Guarded Call.guarded s.busy s.calls

/-- The call that goes on is the one that has set `_busy`. -/
structure Holds (s : World) : Prop where
  busy : s.busy = true
  calls : Guarded Call.guarded false s.calls

section exclusive

variable {s t : World} {c : Call}

theorem calls_fail (s : World) (message : String) : (s.fail message).calls = s.calls := by
  rw [World.fail]
  split_ifs <;> rfl

theorem calls_failed (s : World) (failure : Failure) (message : String) :
    (s.failed failure message).calls = s.calls := by
  cases failure <;> exact calls_fail s _

theorem busy_fail (s : World) (message : String) : (s.fail message).busy = s.busy := by
  rw [World.fail]
  split_ifs <;> rfl

theorem Exclusive.of_eq (hs : Exclusive s) (hbusy : t.busy = s.busy) (hcalls : t.calls = s.calls) :
    Exclusive t := by
  rw [Exclusive, hbusy, hcalls]
  exact hs

theorem Exclusive.acquire (hs : Exclusive s) (hfree : s.busy = false) (hbusy : t.busy = true)
    (hcalls : t.calls = s.calls) (hc : c.guarded = true) : Exclusive (t.wait c) := by
  rw [Exclusive, hfree] at hs
  have htaken : Guarded Call.guarded t.busy (c :: t.calls) := by
    rw [hbusy, hcalls]
    exact hs.acquire hc
  exact htaken

theorem Exclusive.wait (hs : Exclusive s) (hc : c.guarded = false) : Exclusive (s.wait c) :=
  Guarded.cons hs hc

theorem Exclusive.goesOn (hs : Exclusive s) (hc : c.guarded = false) : Exclusive (s.goesOn c) :=
  Guarded.erase hs hc

theorem Exclusive.holds (hs : Exclusive s) (hmem : c ∈ s.calls) (hc : c.guarded = true) :
    Holds (s.goesOn c) :=
  ⟨Guarded.busy_eq_true hs hmem hc, Guarded.release hs hmem hc⟩

namespace Holds

theorem release (h : Holds s) (hcalls : t.calls = s.calls) : Exclusive t.release := by
  have hfree : Guarded Call.guarded false t.calls := by
    rw [hcalls]
    exact h.calls
  exact hfree

theorem wait (h : Holds s) (hbusy : t.busy = s.busy) (hcalls : t.calls = s.calls)
    (hc : c.guarded = true) : Exclusive (t.wait c) := by
  have htaken : Guarded Call.guarded t.busy (c :: t.calls) := by
    rw [hbusy, h.busy, hcalls]
    exact h.calls.acquire hc
  exact htaken

theorem loaded (h : Holds s) (pair : MinimalPair) (spoken : String)
    (clip : Except Failure (String × String)) : Exclusive (s.loaded pair spoken clip) := by
  cases clip with
  | error failure => exact h.release (calls_failed s failure _)
  | ok clip =>
    simp only [World.loaded]
    split_ifs <;> exact h.release rfl

theorem synthesized (h : Holds s) (pair : MinimalPair) (spoken : String) (thenPlay : Bool)
    (clip : Except Failure (String × String)) :
    Exclusive (s.synthesized pair spoken thenPlay clip) := by
  rw [World.synthesized]
  split_ifs
  · exact (h.loaded pair spoken clip).wait rfl
  · exact h.loaded pair spoken clip

theorem wordPlayed (h : Holds s) (restore : PairPhase) (failed : Bool) :
    Exclusive (s.wordPlayed restore failed) := by
  unfold World.wordPlayed
  split_ifs <;> exact h.release rfl

theorem stopped (h : Holds s) (bytes : Except Failure (Option (List UInt8))) :
    Exclusive (s.stopped bytes) := by
  cases bytes with
  | error failure => exact h.release (calls_failed s failure _)
  | ok bytes =>
    simp only [World.stopped]
    split_ifs
    · exact h.release rfl
    · exact h.release rfl
    · exact h.wait rfl rfl rfl

theorem consented (h : Holds s) (bytes : List UInt8) (transcription : Except Failure Bool) :
    Exclusive (s.consented bytes transcription) := by
  cases transcription with
  | error failure => exact h.release (calls_failed s failure _)
  | ok transcription =>
    simp only [World.consented]
    split_ifs
    · exact h.release rfl
    · exact h.release (calls_fail s _)
    · exact h.wait rfl rfl rfl

theorem scored (h : Holds s) (attempt : Except Failure PairAttempt) :
    Exclusive (s.scored attempt) := by
  cases attempt with
  | error failure => exact h.release (calls_failed s failure _)
  | ok attempt =>
    simp only [World.scored]
    split_ifs <;> exact h.release rfl

theorem minePlayed (h : Holds s) (failed : Bool) : Exclusive (s.minePlayed failed) := by
  rw [World.minePlayed]
  split_ifs <;> exact h.release rfl

end Holds

namespace Exclusive

theorem loadPair (hs : Exclusive s) (pair : MinimalPair) (spokenA thenPlay : Bool) :
    Exclusive (s.loadPair pair spokenA thenPlay) := by
  by_cases hbusy : s.busy = true
  · rw [World.loadPair, if_pos hbusy]
    exact hs
  · rw [World.loadPair, if_neg hbusy]
    exact hs.acquire (Bool.eq_false_iff.mpr hbusy) rfl rfl rfl

theorem playWord (hs : Exclusive s) : Exclusive s.playWord := by
  rw [World.playWord]
  split_ifs with hrefused
  · exact hs
  · exact hs.acquire (Bool.eq_false_iff.mpr (not_or.mp hrefused).1) rfl rfl rfl

theorem playNext (hs : Exclusive s) : Exclusive s.playNext := by
  rw [World.playNext]
  split_ifs
  · exact hs.playWord
  · exact hs

theorem guess (hs : Exclusive s) (word : String) : Exclusive (s.guess word) := by
  rw [World.guess]
  split_ifs <;> exact hs.of_eq rfl rfl

theorem record (hs : Exclusive s) : Exclusive s.record := by
  rw [World.record]
  split_ifs
  · exact hs
  · exact hs.wait rfl

theorem recorded (hs : Exclusive s) (started : Except Failure Bool) :
    Exclusive (s.recorded started) := by
  cases started with
  | error failure => exact hs
  | ok started =>
    simp only [World.recorded]
    split_ifs
    · exact hs
    · exact hs.of_eq (busy_fail s _) (calls_fail s _)
    · exact hs.of_eq rfl rfl

theorem stopAndScore (hs : Exclusive s) : Exclusive s.stopAndScore := by
  rw [World.stopAndScore]
  split_ifs with hrefused
  · exact hs
  · exact hs.acquire (Bool.eq_false_iff.mpr (not_or.mp hrefused).1) rfl rfl rfl

theorem playMine (hs : Exclusive s) : Exclusive s.playMine := by
  rw [World.playMine]
  split_ifs with hrefused
  · exact hs
  · exact hs.acquire (Bool.eq_false_iff.mpr (not_or.mp hrefused).1) rfl rfl rfl

theorem nextRound (hs : Exclusive s) (pair : MinimalPair) (spokenA : Bool) :
    Exclusive (s.nextRound pair spokenA) := by
  rw [World.nextRound]
  split_ifs
  · exact hs
  · refine Exclusive.loadPair ?_ pair spokenA true
    exact hs.of_eq rfl rfl

theorem cancel (hs : Exclusive s) : Exclusive s.cancel := by
  rw [World.cancel]
  split_ifs
  · exact hs
  · exact hs.wait rfl

theorem cancelled (hs : Exclusive s) (failed : Bool) : Exclusive (s.cancelled failed) := by
  rw [World.cancelled]
  split_ifs <;> exact hs.of_eq rfl rfl

end Exclusive

theorem exclusive_step {a : Action} (hs : Exclusive s) (hstep : step s a = some t) :
    Exclusive t := by
  cases moves_of_step hstep with
  | markUnavailable => exact hs.of_eq rfl rfl
  | loadPair pair spokenA => exact hs.loadPair pair spokenA false
  | synthesized pair spoken thenPlay clip hcall =>
    exact (hs.holds hcall rfl).synthesized pair spoken thenPlay clip
  | playWord => exact hs.playWord
  | wordPlayed restore failed hcall => exact (hs.holds hcall rfl).wordPlayed restore failed
  | guess word => exact hs.guess word
  | record => exact hs.record
  | recorded started => exact (hs.goesOn rfl).recorded started
  | stopAndScore => exact hs.stopAndScore
  | stopped bytes hcall => exact (hs.holds hcall rfl).stopped bytes
  | consented bytes transcription hcall => exact (hs.holds hcall rfl).consented bytes transcription
  | scored attempt hcall => exact (hs.holds hcall rfl).scored attempt
  | playMine => exact hs.playMine
  | minePlayed failed hcall => exact (hs.holds hcall rfl).minePlayed failed
  | nextRound pair spokenA => exact hs.nextRound pair spokenA
  | playNext => exact (hs.goesOn rfl).playNext
  | cancel => exact hs.cancel
  | cancelled failed => exact (hs.goesOn rfl).cancelled failed
  | dispose => exact hs.of_eq rfl rfl

end exclusive

/-! ## A guess in silence -/

/-- While a playback is under way the phase is not the guessing, and one that goes back to the
guessing began before any guess. -/
structure Silent (s : World) : Prop where
  final : Final s
  exclusive : Exclusive s
  phase : ∀ restore, .playWord restore ∈ s.calls → s.state.phase ≠ .guessing
  unanswered : .playWord .guessing ∈ s.calls → s.answered = false

section silence

variable {s t : World}

theorem Silent.init : Silent World.init := ⟨nofun, rfl, nofun, nofun⟩

theorem Silent.stays (hs : Silent s) (h : Stays s t) (ht : Exclusive t) : Silent t where
  final := h.final hs.final
  exclusive := ht
  phase := fun restore hplay hphase => hs.phase restore (h.plays restore hplay) (h.phase hphase)
  unanswered := fun hplay => h.answered.trans (hs.unanswered (h.plays .guessing hplay))

/-- Behind the end of the one guarded call there is no playback. -/
theorem Silent.of_holds (hcalls : Guarded Call.guarded false t.calls) (hfinal : Final t)
    (ht : Exclusive t) : Silent t where
  final := hfinal
  exclusive := ht
  phase := fun _ hplay => absurd (hcalls.not_holds hplay) nofun
  unanswered := fun hplay => absurd (hcalls.not_holds hplay) nofun

theorem Silent.playWord (hs : Silent s) : Silent s.playWord := by
  have hexclusive := hs.exclusive.playWord
  have hfinal := final_playWord hs.final
  by_cases hrefused : s.busy = true ∨ s.state.spokenAudioB64.getD "" = ""
  · rw [World.playWord, if_pos hrefused]
    exact hs
  · rw [World.playWord, if_neg hrefused] at hexclusive hfinal ⊢
    refine ⟨hfinal, hexclusive, fun _ _ => nofun, fun hplay => ?_⟩
    rcases List.mem_cons.mp hplay with hnew | hold
    · have hguessing : s.state.phase = .guessing := (Call.playWord.inj hnew).symm
      exact Bool.eq_false_iff.mpr fun hanswered => hs.final hanswered hguessing
    · exact hs.unanswered hold

theorem calls_loaded (s : World) (pair : MinimalPair) (spoken : String)
    (clip : Except Failure (String × String)) : (s.loaded pair spoken clip).calls = s.calls := by
  cases clip with
  | error failure => exact calls_failed s failure _
  | ok clip =>
    simp only [World.loaded]
    split_ifs <;> rfl

theorem calls_wordPlayed (s : World) (restore : PairPhase) (failed : Bool) :
    (s.wordPlayed restore failed).calls = s.calls := by
  unfold World.wordPlayed
  split_ifs <;> rfl

theorem Silent.synthesized (h : Holds s) (hfinal : Final s) (pair : MinimalPair) (spoken : String)
    (thenPlay : Bool) (clip : Except Failure (String × String)) :
    Silent (s.synthesized pair spoken thenPlay clip) := by
  apply Silent.of_holds
  · rw [World.synthesized]
    have hloaded : Guarded Call.guarded false (s.loaded pair spoken clip).calls := by
      rw [calls_loaded]
      exact h.calls
    split_ifs
    · exact hloaded.cons rfl
    · exact hloaded
  · exact final_synthesized hfinal pair spoken thenPlay clip
  · exact h.synthesized pair spoken thenPlay clip

theorem Silent.wordPlayed (h : Holds s) (hfinal : Final s) (restore : PairPhase) (failed : Bool)
    (hrestore : restore = .guessing → s.answered = false) :
    Silent (s.wordPlayed restore failed) := by
  apply Silent.of_holds
  · rw [calls_wordPlayed]
    exact h.calls
  · exact (final_wordPlayed_iff hfinal restore failed).mpr fun hguessing _ => hrestore hguessing
  · exact h.wordPlayed restore failed

theorem Silent.guess (hs : Silent s) (word : String)
    (hsilence : s.state.phase = .playing → s.answered = false ∧ .playWord .guessing ∉ s.calls) :
    Silent (s.guess word) := by
  have hexclusive := hs.exclusive.guess word
  by_cases hphase : s.state.phase ≠ .guessing ∧ s.state.phase ≠ .playing
  · rw [World.guess, if_pos hphase]
    exact hs
  · rw [World.guess, if_neg hphase] at hexclusive ⊢
    refine ⟨fun _ => nofun, hexclusive, fun _ _ => nofun, fun hplay => ?_⟩
    rcases not_and_or.mp hphase with hguessing | hplaying
    · exact absurd (not_ne_iff.mp hguessing) (hs.phase .guessing hplay)
    · exact absurd hplay (hsilence (not_ne_iff.mp hplaying)).2

theorem silent_step {a : Action} (hs : Silent s) (hsilence : GuessedInSilence s a t)
    (hstep : step s a = some t) : Unanswered s a t ∧ Silent t := by
  have hexclusive := exclusive_step hs.exclusive hstep
  cases moves_of_step hstep with
  | synthesized pair spoken thenPlay clip hcall =>
    exact ⟨trivial, Silent.synthesized (hs.exclusive.holds hcall rfl) hs.final pair spoken thenPlay
      clip⟩
  | playWord => exact ⟨trivial, hs.playWord⟩
  | playNext =>
    have hwaiting := hs.stays (Stays.goesOn s .playNext) (hs.exclusive.goesOn rfl)
    refine ⟨trivial, ?_⟩
    rw [World.playNext]
    split_ifs
    · exact hwaiting.playWord
    · exact hwaiting
  | wordPlayed restore failed hcall =>
    have hrestore : restore = .guessing → s.answered = false := fun hguessing =>
      hs.unanswered (hguessing ▸ hcall)
    refine ⟨?_, Silent.wordPlayed (hs.exclusive.holds hcall rfl) hs.final restore failed hrestore⟩
    cases restore with
    | guessing => exact fun _ => hrestore rfl
    | _ => trivial
  | guess word => exact ⟨fun hplaying => (hsilence hplaying).1, hs.guess word hsilence⟩
  | _ => exact ⟨trivial, hs.stays (stays_step rfl hstep) hexclusive⟩

end silence

/-- A guess is final when none is made in a playback that goes back to the guessing, and none in a
playback for an answered pair. -/
theorem guess_final_of_silence {as : List Action}
    (h : Along step GuessedInSilence World.init as) : Along step GuessFinal World.init as := by
  have hunanswered : Along step Unanswered World.init as :=
    along_of_invariant (I := Silent) (P := Unanswered) (G := GuessedInSilence)
      (fun _ _ _ hs hsilence hstep => silent_step hs hsilence hstep) Silent.init h
  exact (guess_final_iff as).mpr hunanswered

end Apm.Practice.MinimalPairs
