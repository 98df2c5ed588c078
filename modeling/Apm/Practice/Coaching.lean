import Apm.Lib.Run
import Apm.Recording.Controllers

/-!
# Coaching belongs to the attempt on screen

`EchoViewModel` shows the score of an attempt at once, and fetches its coaching in the background.
The fetch is outside the busy guard: it comes back to whatever round the screen is in by then, and
writes its tip there. `Apm.Recording.Controllers` has the view model as the recorder sees it; here
it has all of its state.

A result and a tip come with the number of the attempt they are for. No method reads it.
-/

namespace Apm.Practice.Echo

open Apm.Lib Apm.Recording

set_option autoImplicit false

inductive EchoPhase where
  | idle
  | loadingPhrase
  | playingModel
  | recording
  | scoring
  | reviewing
  | playingMine
  deriving DecidableEq, Repr

structure AttemptResult where
  attempt : Nat
  missedWords : List String
  deriving DecidableEq, Repr

structure Tip where
  attempt : Nat
  text : String
  deriving DecidableEq, Repr

structure EchoState where
  phase : EchoPhase
  phrase : Option String
  modelAudioB64 : Option String
  modelMime : String
  myRecording : Option (List UInt8)
  result : Option AttemptResult
  coaching : Option Tip
  coachingLoading : Bool
  round : Nat
  error : Option String
  unavailable : Bool
  deriving DecidableEq, Repr

/-- What a call of a method waits for. -/
inductive Call where
  /-- `loadPhrase`, for the phrase and for its voice -/
  | nextPhrase
  | synthesize (phrase : String)
  | playModel (restore : EchoPhase)
  | playMine (restore : EchoPhase)
  | record
  /-- `stopAndScore`, for the recorder, the consent and the score -/
  | stop
  | consent (bytes : List UInt8)
  | score
  | cancel
  deriving DecidableEq, Repr

structure World where
  state : EchoState
  mounted : Bool
  busy : Bool
  calls : List Call
  /-- the attempts whose coaching is being fetched -/
  fetches : List Nat
  /-- the attempts that have been scored -/
  attempts : Nat
  deriving DecidableEq, Repr

inductive Action where
  | markUnavailable
  | loadPhrase
  | phraseFetched (phrase : Except Failure String)
  | synthesized (phrase : String) (clip : Except Failure (String × String))
  | playModel
  | modelPlayed (restore : EchoPhase) (failed : Bool)
  | record
  /-- the recorder has started, or its start has failed -/
  | recorded (started : Except Failure Bool)
  | stopAndScore
  | stopped (bytes : Except Failure (Option (List UInt8)))
  | consented (bytes : List UInt8) (transcription : Except Failure Bool)
  | scored (missedWords : Except Failure (List String))
  /-- `_fetchCoaching` goes on, with a tip or a failure -/
  | coached (attempt : Nat) (tip : Option String)
  | playMine
  | minePlayed (restore : EchoPhase) (failed : Bool)
  | nextRound
  | cancel
  | cancelled (failed : Bool)
  | dispose

namespace World

def init : World where
  state := ⟨.idle, none, none, "audio/mpeg", none, none, none, false, 1, none, false⟩
  mounted := true
  busy := false
  calls := []
  fetches := []
  attempts := 0

variable (w : World)

def wait (c : Call) : World := { w with calls := c :: w.calls }

/-- What waits as `c` goes on. -/
def resume (c : Call) (next : World → World) : Option World :=
  if c ∈ w.calls then some (next { w with calls := w.calls.erase c }) else none

/-- The screen calls a method. -/
def whenMounted (next : World → World) : Option World := if w.mounted then some (next w) else none

/-- `_busy = false`, in a `finally`. -/
def release : World := { w with busy := false }

def fail (message : String) : World :=
  if w.mounted then { w with state := { w.state with phase := .idle, error := some message } }
  else w

/-- The `catch` clauses of `loadPhrase` and `stopAndScore`. -/
def failed (failure : Failure) (message : String) : World :=
  match failure with
  | .apiException m => w.fail m
  | .other => w.fail message

def loadPhrase : World :=
  if w.busy then w
  else { w with
    busy := true
    state := { w.state with
      phase := .loadingPhrase, error := none, result := none, myRecording := none } }.wait .nextPhrase

def phraseFetched (phrase : Except Failure String) : World :=
  match phrase with
  | .error failure => (w.failed failure "Could not load a phrase. Please try again.").release
  | .ok phrase => w.wait (.synthesize phrase)

def synthesized (phrase : String) (clip : Except Failure (String × String)) : World :=
  match clip with
  | .error failure => (w.failed failure "Could not load a phrase. Please try again.").release
  | .ok (audioB64, mime) =>
    if w.mounted then { w with state := { w.state with
      phrase := some phrase, modelAudioB64 := some audioB64, modelMime := mime, phase := .idle } }.release
    else w.release

def playModel : World :=
  if w.busy = true ∨ w.state.modelAudioB64.getD "" = "" then w
  else { w with busy := true, state := { w.state with phase := .playingModel } }.wait
    (.playModel w.state.phase)

/-- The end of `playModel` and of `playMine`. -/
def played (restore : EchoPhase) (failed : Bool) (message : String) : World :=
  if w.mounted then { w with state := { w.state with
    phase := restore, error := if failed then some message else none } }.release
  else w.release

def record : World := if w.busy = true ∨ w.state.phrase = none then w else w.wait .record

def recorded (started : Except Failure Bool) : World :=
  match started with
  | .error _ => w -- the start is outside any `try`: its failure leaves the method
  | .ok started =>
    if !w.mounted then w
    else if !started then w.fail "Microphone is not available."
    else { w with state := { w.state with phase := .recording, error := none } }

def stopAndScore : World :=
  if w.busy = true ∨ w.state.phase ≠ .recording then w else { w with busy := true }.wait .stop

def stopped (bytes : Except Failure (Option (List UInt8))) : World :=
  match bytes with
  | .error failure => (w.failed failure "Could not score your attempt. Please try again.").release
  | .ok bytes =>
    if !w.mounted then w.release
    else
      match bytes with
      | none | some [] => { w with state := { w.state with phase := .idle } }.release
      | some bytes => w.wait (.consent bytes)

def consented (bytes : List UInt8) (transcription : Except Failure Bool) : World :=
  match transcription with
  | .error failure => (w.failed failure "Could not score your attempt. Please try again.").release
  | .ok transcription =>
    if !w.mounted then w.release
    else if !transcription then (w.fail "Transcription consent has been revoked").release
    else { w with state := { w.state with
      phase := .scoring, myRecording := some bytes, coaching := none } }.wait .score

/-- `_fetchCoaching`, up to its await. -/
def fetchCoaching (result : AttemptResult) : World :=
  if result.missedWords.isEmpty then w
  else { w with
    state := { w.state with coachingLoading := true }, fetches := result.attempt :: w.fetches }

def scored (missedWords : Except Failure (List String)) : World :=
  match missedWords with
  | .error failure => (w.failed failure "Could not score your attempt. Please try again.").release
  | .ok missedWords =>
    if !w.mounted then w.release
    else
      let result : AttemptResult := ⟨w.attempts, missedWords⟩
      (({ w with
        attempts := w.attempts + 1
        state := { w.state with result := some result, phase := .reviewing } }).fetchCoaching
          result).release

/-- `_fetchCoaching`, behind its await. -/
def coached (attempt : Nat) (tip : Option String) : World :=
  if !w.mounted then w
  else
    match tip with
    | some tip => { w with state := { w.state with
        coaching := some ⟨attempt, tip⟩, coachingLoading := false } }
    | none => { w with state := { w.state with coachingLoading := false } }

def playMine : World :=
  if w.busy = true ∨ w.state.myRecording.getD [] = [] then w
  else { w with busy := true, state := { w.state with phase := .playingMine } }.wait
    (.playMine w.state.phase)

def nextRound : World :=
  if w.busy then w
  else { w with state := { w.state with round := w.state.round + 1, phase := .idle } }.loadPhrase

def cancel : World :=
  if w.mounted = false ∨ w.state.phase ≠ .recording then w else w.wait .cancel

def cancelled (failed : Bool) : World :=
  if failed = false ∧ w.mounted = true then { w with state := { w.state with phase := .idle } } else w

end World

def step (w : World) : Action → Option World
  | .markUnavailable => w.whenMounted fun w =>
      { w with state := { w.state with unavailable := true } }
  | .loadPhrase => w.whenMounted World.loadPhrase
  | .phraseFetched phrase => w.resume .nextPhrase fun w => w.phraseFetched phrase
  | .synthesized phrase clip => w.resume (.synthesize phrase) fun w => w.synthesized phrase clip
  | .playModel => w.whenMounted World.playModel
  | .modelPlayed restore failed => w.resume (.playModel restore) fun w =>
      w.played restore failed "Could not play the model audio."
  | .record => w.whenMounted World.record
  | .recorded started => w.resume .record fun w => w.recorded started
  | .stopAndScore => w.whenMounted World.stopAndScore
  | .stopped bytes => w.resume .stop fun w => w.stopped bytes
  | .consented bytes transcription => w.resume (.consent bytes) fun w =>
      w.consented bytes transcription
  | .scored missedWords => w.resume .score fun w => w.scored missedWords
  | .coached attempt tip =>
    if attempt ∈ w.fetches then
      some ({ w with fetches := w.fetches.erase attempt }.coached attempt tip)
    else none
  | .playMine => w.whenMounted World.playMine
  | .minePlayed restore failed => w.resume (.playMine restore) fun w =>
      w.played restore failed "Could not play your recording."
  | .nextRound => w.whenMounted World.nextRound
  | .cancel => some w.cancel
  | .cancelled failed => w.resume .cancel fun w => w.cancelled failed
  | .dispose => some { w with mounted := false }

/-! ## The property and its condition -/

/-- The tip on the screen is for the result there, and it loads only while it is fetched. -/
structure Belongs (w : World) : Prop where
  tip : w.mounted = true → ∀ tip, w.state.coaching = some tip →
    ∃ result, w.state.result = some result ∧ result.attempt = tip.attempt
  loading : w.mounted = true → w.state.coachingLoading = true →
    ∃ result, w.state.result = some result ∧ result.attempt ∈ w.fetches

/-- A round begins without a tip and without a fetch, a score without a tip, and without a fetch
unless it begins its own; a tip comes back to its result. -/
def Current (s : World) (a : Action) (_ : World) : Prop :=
  match a with
  | .loadPhrase | .nextRound => s.busy = false →
      s.state.coaching = none ∧ s.state.coachingLoading = false
  | .scored (.ok missedWords) => s.mounted = true →
      s.state.coaching = none ∧ (missedWords = [] → s.state.coachingLoading = false)
  | .coached attempt (some _) => s.mounted = true →
      ∃ result, s.state.result = some result ∧ result.attempt = attempt
  | _ => True

/-- No round begins and no score lands while a tip is on the screen, or is fetched. -/
def Settled (s : World) (a : Action) (_ : World) : Prop :=
  match a with
  | .loadPhrase | .nextRound => s.busy = false →
      s.state.coaching = none ∧ s.state.coachingLoading = false
  | .scored (.ok _) => s.mounted = true →
      s.state.coaching = none ∧ s.state.coachingLoading = false
  | _ => True

/-- A new attempt has a new number. -/
structure Fresh (w : World) : Prop where
  tip : ∀ tip, w.state.coaching = some tip → tip.attempt < w.attempts
  fetches : ∀ attempt ∈ w.fetches, attempt < w.attempts

/-! ## What the methods leave -/

/-- The result and the fetches stay, and no tip is new. -/
structure Keeps (s t : World) : Prop where
  mounted : t.mounted = s.mounted
  result : t.state.result = s.state.result
  coaching : ∀ tip, t.state.coaching = some tip → s.state.coaching = some tip
  loading : t.state.coachingLoading = s.state.coachingLoading
  fetches : t.fetches = s.fetches
  attempts : t.attempts = s.attempts

namespace Keeps

variable {s t u : World}

theorem refl (s : World) : Keeps s s := ⟨rfl, rfl, fun _ h => h, rfl, rfl, rfl⟩

theorem trans (h : Keeps s t) (h' : Keeps t u) : Keeps s u where
  mounted := h'.mounted.trans h.mounted
  result := h'.result.trans h.result
  coaching := fun tip hc => h.coaching tip (h'.coaching tip hc)
  loading := h'.loading.trans h.loading
  fetches := h'.fetches.trans h.fetches
  attempts := h'.attempts.trans h.attempts

theorem fresh (h : Keeps s t) (hs : Fresh s) : Fresh t := by
  refine ⟨fun tip hc => ?_, fun attempt hattempt => ?_⟩
  · rw [h.attempts]
    exact hs.tip tip (h.coaching tip hc)
  · rw [h.fetches] at hattempt
    rw [h.attempts]
    exact hs.fetches attempt hattempt

theorem belongs (h : Keeps s t) (hs : Belongs s) : Belongs t := by
  refine ⟨fun hm tip hc => ?_, fun hm hl => ?_⟩
  · rw [h.mounted] at hm
    rw [h.result]
    exact hs.tip hm tip (h.coaching tip hc)
  · rw [h.mounted] at hm
    rw [h.loading] at hl
    rw [h.result, h.fetches]
    exact hs.loading hm hl

theorem fail (s : World) (message : String) : Keeps s (s.fail message) := by
  rw [World.fail]
  split_ifs <;> exact { refl s with }

theorem failed (s : World) (failure : Failure) (message : String) :
    Keeps s (s.failed failure message) := by
  cases failure <;> exact fail s _

theorem release (h : Keeps s t) : Keeps s t.release := { h with }

theorem phraseFetched (s : World) (phrase : Except Failure String) :
    Keeps s (s.phraseFetched phrase) := by
  cases phrase with
  | error failure => exact (failed s failure _).release
  | ok phrase => exact { refl s with }

theorem synthesized (s : World) (phrase : String) (clip : Except Failure (String × String)) :
    Keeps s (s.synthesized phrase clip) := by
  cases clip with
  | error failure => exact (failed s failure _).release
  | ok clip =>
    simp only [World.synthesized]
    split_ifs <;> exact { refl s with }

theorem playModel (s : World) : Keeps s s.playModel := by
  rw [World.playModel]
  split_ifs <;> exact { refl s with }

theorem played (s : World) (restore : EchoPhase) (failed : Bool) (message : String) :
    Keeps s (s.played restore failed message) := by
  rw [World.played]
  split <;> exact { refl s with }

theorem record (s : World) : Keeps s s.record := by
  rw [World.record]
  split_ifs <;> exact { refl s with }

theorem recorded (s : World) (started : Except Failure Bool) : Keeps s (s.recorded started) := by
  cases started with
  | error failure => exact refl s
  | ok started =>
    simp only [World.recorded]
    split_ifs
    · exact refl s
    · exact fail s _
    · exact { refl s with }

theorem stopAndScore (s : World) : Keeps s s.stopAndScore := by
  rw [World.stopAndScore]
  split_ifs <;> exact { refl s with }

theorem stopped (s : World) (bytes : Except Failure (Option (List UInt8))) :
    Keeps s (s.stopped bytes) := by
  cases bytes with
  | error failure => exact (failed s failure _).release
  | ok bytes =>
    simp only [World.stopped]
    split_ifs
    · exact (refl s).release
    · split <;> exact { refl s with }

theorem consented (s : World) (bytes : List UInt8) (transcription : Except Failure Bool) :
    Keeps s (s.consented bytes transcription) := by
  cases transcription with
  | error failure => exact (failed s failure _).release
  | ok transcription =>
    simp only [World.consented]
    split_ifs
    · exact (refl s).release
    · exact (fail s _).release
    · exact { refl s with coaching := nofun }

theorem playMine (s : World) : Keeps s s.playMine := by
  rw [World.playMine]
  split_ifs <;> exact { refl s with }

theorem cancel (s : World) : Keeps s s.cancel := by
  rw [World.cancel]
  split_ifs <;> exact { refl s with }

theorem cancelled (s : World) (failed : Bool) : Keeps s (s.cancelled failed) := by
  rw [World.cancelled]
  split_ifs <;> exact { refl s with }

end Keeps

section steps

variable {s t : World}

/-- A new round: the result goes, the coaching does not. -/
structure Cleared (s t : World) : Prop where
  mounted : t.mounted = s.mounted
  result : t.state.result = none
  coaching : t.state.coaching = s.state.coaching
  loading : t.state.coachingLoading = s.state.coachingLoading

theorem Cleared.belongs_iff (h : Cleared s t) (hmounted : s.mounted = true) :
    Belongs t ↔ s.state.coaching = none ∧ s.state.coachingLoading = false := by
  have hm : t.mounted = true := h.mounted.trans hmounted
  constructor
  · intro ht
    refine ⟨Option.eq_none_iff_forall_ne_some.mpr fun tip hc => ?_, Bool.eq_false_iff.mpr fun hl => ?_⟩
    · obtain ⟨result, hresult, -⟩ := ht.tip hm tip (h.coaching.trans hc)
      rw [h.result] at hresult
      cases hresult
    · obtain ⟨result, hresult, -⟩ := ht.loading hm (h.loading.trans hl)
      rw [h.result] at hresult
      cases hresult
  · intro ⟨hcoaching, hloading⟩
    refine ⟨fun _ tip hc => ?_, fun _ hl => ?_⟩
    · rw [h.coaching, hcoaching] at hc
      cases hc
    · rw [h.loading, hloading] at hl
      cases hl

theorem loadPhrase_of_busy (h : s.busy = true) : s.loadPhrase = s := if_pos h

theorem cleared_loadPhrase (h : s.busy = false) : Cleared s s.loadPhrase := by
  rw [World.loadPhrase, h]
  exact ⟨rfl, rfl, rfl, rfl⟩

theorem nextRound_of_busy (h : s.busy = true) : s.nextRound = s := if_pos h

theorem nextRound_of_free (h : s.busy = false) :
    s.nextRound =
      { s with state := { s.state with round := s.state.round + 1, phase := .idle } }.loadPhrase :=
  if_neg (Bool.eq_false_iff.mp h)

theorem cleared_nextRound (h : s.busy = false) : Cleared s s.nextRound := by
  rw [nextRound_of_free h]
  have hcleared := cleared_loadPhrase
    (s := { s with state := { s.state with round := s.state.round + 1, phase := .idle } }) h
  exact { hcleared with }

theorem whenMounted_eq_some_iff {next : World → World} :
    s.whenMounted next = some t ↔ s.mounted = true ∧ next s = t := by
  rw [World.whenMounted, Option.ite_none_right_eq_some, Option.some_inj]

theorem resume_eq_some_iff {c : Call} {next : World → World} :
    s.resume c next = some t ↔ c ∈ s.calls ∧ next { s with calls := s.calls.erase c } = t := by
  rw [World.resume, Option.ite_none_right_eq_some, Option.some_inj]

theorem scored_unmounted (h : s.mounted = false) (missedWords : List String) :
    s.scored (.ok missedWords) = s.release := by
  simp only [World.scored, h, Bool.not_false, if_true]

theorem scored_nil (h : s.mounted = true) : s.scored (.ok []) =
    { s with
      busy := false
      attempts := s.attempts + 1
      state := { s.state with result := some ⟨s.attempts, []⟩, phase := .reviewing } } := by
  simp only [World.scored, h, Bool.not_true, Bool.false_eq_true, if_false]
  rfl

theorem scored_cons (h : s.mounted = true) (word : String) (rest : List String) :
    s.scored (.ok (word :: rest)) =
      { s with
        busy := false
        attempts := s.attempts + 1
        fetches := s.attempts :: s.fetches
        state := { s.state with
          result := some ⟨s.attempts, word :: rest⟩, phase := .reviewing, coachingLoading := true } } := by
  simp only [World.scored, h, Bool.not_true, Bool.false_eq_true, if_false]
  rfl

/-- A tip on the screen is not for a result that is new. -/
theorem coaching_eq_none (hs : Fresh s) {missedWords : List String} (ht : Belongs t)
    (hmounted : t.mounted = true) (hcoaching : t.state.coaching = s.state.coaching)
    (hresult : t.state.result = some ⟨s.attempts, missedWords⟩) : s.state.coaching = none := by
  refine Option.eq_none_iff_forall_ne_some.mpr fun tip hc => ?_
  obtain ⟨result, hresult', hattempt⟩ := ht.tip hmounted tip (hcoaching.trans hc)
  obtain rfl := Option.some.inj (hresult.symm.trans hresult')
  have hlt := hs.tip tip hc
  simp only at hattempt
  omega

/-- A score that lands: without missed words the coaching stays as it was, with them it is
fetched for the new result. -/
theorem belongs_scored_iff (hs : Fresh s) (missedWords : List String) (hmounted : s.mounted = true) :
    Belongs (s.scored (.ok missedWords)) ↔
      s.state.coaching = none ∧ (missedWords = [] → s.state.coachingLoading = false) := by
  cases missedWords with
  | nil =>
    rw [scored_nil hmounted]
    constructor
    · intro ht
      refine ⟨coaching_eq_none hs ht hmounted rfl rfl, fun _ => Bool.eq_false_iff.mpr fun hl => ?_⟩
      obtain ⟨result, hresult, hfetch⟩ := ht.loading hmounted hl
      obtain rfl := Option.some.inj hresult
      exact Nat.lt_irrefl _ (hs.fetches s.attempts hfetch)
    · intro ⟨hcoaching, hloading⟩
      exact ⟨fun _ tip hc => absurd (hcoaching.symm.trans hc) nofun,
        fun _ hl => absurd ((hloading rfl).symm.trans hl) Bool.false_ne_true⟩
  | cons word rest =>
    rw [scored_cons hmounted]
    constructor
    · exact fun ht => ⟨coaching_eq_none hs ht hmounted rfl rfl, nofun⟩
    · intro ⟨hcoaching, _⟩
      exact ⟨fun _ tip hc => absurd (hcoaching.symm.trans hc) nofun,
        fun _ _ => ⟨_, rfl, List.mem_cons_self⟩⟩

theorem belongs_coached_iff (hs : Belongs s) (attempt : Nat) (tip : Option String) :
    Belongs ({ s with fetches := s.fetches.erase attempt }.coached attempt tip) ↔
      (tip ≠ none → s.mounted = true →
        ∃ result, s.state.result = some result ∧ result.attempt = attempt) := by
  cases hmounted : s.mounted with
  | false =>
    simp only [World.coached]
    exact iff_of_true ⟨nofun, nofun⟩ nofun
  | true =>
    cases tip with
    | none =>
      simp only [World.coached]
      exact iff_of_true ⟨fun _ => hs.tip hmounted, nofun⟩ fun h => absurd rfl h
    | some tip =>
      simp only [World.coached]
      constructor
      · exact fun ht _ _ => ht.tip rfl ⟨attempt, tip⟩ rfl
      · intro h
        refine ⟨fun _ tip' htip => ?_, nofun⟩
        obtain rfl := Option.some.inj htip
        exact h (Option.some_ne_none tip) trivial

/-- The action neither begins a round nor scores an attempt nor brings its coaching. -/
def Action.aside : Action → Bool
  | .loadPhrase | .nextRound | .scored .. | .coached .. | .dispose => false
  | _ => true

/-- What an action does. -/
inductive Moves (s : World) : Action → World → Prop where
  | keeps (a : Action) (t : World) (ha : a.aside = true) (h : Keeps s t) : Moves s a t
  | loadPhrase (hmounted : s.mounted = true) : Moves s .loadPhrase s.loadPhrase
  | nextRound (hmounted : s.mounted = true) : Moves s .nextRound s.nextRound
  | scored (missedWords : Except Failure (List String)) : Moves s (.scored missedWords)
      ({ s with calls := s.calls.erase .score }.scored missedWords)
  | coached (attempt : Nat) (tip : Option String) (hattempt : attempt ∈ s.fetches) :
      Moves s (.coached attempt tip)
        ({ s with fetches := s.fetches.erase attempt }.coached attempt tip)
  | dispose : Moves s .dispose { s with mounted := false }

theorem moves_of_step {a : Action} (hstep : step s a = some t) : Moves s a t := by
  have hcalls : ∀ c, Keeps s { s with calls := s.calls.erase c } := fun _ => { Keeps.refl s with }
  cases a with
  | markUnavailable =>
    simp only [step] at hstep
    obtain ⟨-, rfl⟩ := whenMounted_eq_some_iff.mp hstep
    exact .keeps _ _ rfl { Keeps.refl s with }
  | loadPhrase =>
    obtain ⟨hmounted, rfl⟩ := whenMounted_eq_some_iff.mp hstep
    exact .loadPhrase hmounted
  | phraseFetched phrase =>
    simp only [step] at hstep
    obtain ⟨-, rfl⟩ := resume_eq_some_iff.mp hstep
    exact .keeps _ _ rfl ((hcalls _).trans (Keeps.phraseFetched _ phrase))
  | synthesized phrase clip =>
    simp only [step] at hstep
    obtain ⟨-, rfl⟩ := resume_eq_some_iff.mp hstep
    exact .keeps _ _ rfl ((hcalls _).trans (Keeps.synthesized _ phrase clip))
  | playModel =>
    obtain ⟨-, rfl⟩ := whenMounted_eq_some_iff.mp hstep
    exact .keeps _ _ rfl (Keeps.playModel s)
  | modelPlayed restore failed | minePlayed restore failed =>
    simp only [step] at hstep
    obtain ⟨-, rfl⟩ := resume_eq_some_iff.mp hstep
    exact .keeps _ _ rfl ((hcalls _).trans (Keeps.played _ restore failed _))
  | record =>
    obtain ⟨-, rfl⟩ := whenMounted_eq_some_iff.mp hstep
    exact .keeps _ _ rfl (Keeps.record s)
  | recorded started =>
    simp only [step] at hstep
    obtain ⟨-, rfl⟩ := resume_eq_some_iff.mp hstep
    exact .keeps _ _ rfl ((hcalls _).trans (Keeps.recorded _ started))
  | stopAndScore =>
    obtain ⟨-, rfl⟩ := whenMounted_eq_some_iff.mp hstep
    exact .keeps _ _ rfl (Keeps.stopAndScore s)
  | stopped bytes =>
    simp only [step] at hstep
    obtain ⟨-, rfl⟩ := resume_eq_some_iff.mp hstep
    exact .keeps _ _ rfl ((hcalls _).trans (Keeps.stopped _ bytes))
  | consented bytes transcription =>
    simp only [step] at hstep
    obtain ⟨-, rfl⟩ := resume_eq_some_iff.mp hstep
    exact .keeps _ _ rfl ((hcalls _).trans (Keeps.consented _ bytes transcription))
  | scored missedWords =>
    simp only [step] at hstep
    obtain ⟨-, rfl⟩ := resume_eq_some_iff.mp hstep
    exact .scored missedWords
  | coached attempt tip =>
    simp only [step] at hstep
    split_ifs at hstep with hattempt
    obtain rfl := Option.some.inj hstep
    exact .coached attempt tip hattempt
  | playMine =>
    obtain ⟨-, rfl⟩ := whenMounted_eq_some_iff.mp hstep
    exact .keeps _ _ rfl (Keeps.playMine s)
  | nextRound =>
    obtain ⟨hmounted, rfl⟩ := whenMounted_eq_some_iff.mp hstep
    exact .nextRound hmounted
  | cancel =>
    obtain rfl := Option.some.inj hstep
    exact .keeps _ _ rfl (Keeps.cancel s)
  | cancelled failed =>
    simp only [step] at hstep
    obtain ⟨-, rfl⟩ := resume_eq_some_iff.mp hstep
    exact .keeps _ _ rfl ((hcalls _).trans (Keeps.cancelled _ failed))
  | dispose =>
    obtain rfl := Option.some.inj hstep
    exact .dispose

theorem current_of_aside {a : Action} (ha : a.aside = true) : Current s a t := by
  cases a with
  | loadPhrase | nextRound | scored | coached | dispose => cases ha
  | _ => trivial

theorem fresh_scored (hs : Fresh s) (missedWords : Except Failure (List String)) :
    Fresh (s.scored missedWords) := by
  have htip : ∀ tip, s.state.coaching = some tip → tip.attempt < s.attempts + 1 :=
    fun tip hc => Nat.lt_succ_of_lt (hs.tip tip hc)
  have hfetches : ∀ attempt ∈ s.fetches, attempt < s.attempts + 1 :=
    fun attempt hattempt => Nat.lt_succ_of_lt (hs.fetches attempt hattempt)
  cases missedWords with
  | error failure => exact (Keeps.failed s failure _).release.fresh hs
  | ok missedWords =>
    cases hmounted : s.mounted with
    | false =>
      rw [scored_unmounted hmounted]
      exact (Keeps.refl s).release.fresh hs
    | true =>
      cases missedWords with
      | nil =>
        rw [scored_nil hmounted]
        exact ⟨htip, hfetches⟩
      | cons word rest =>
        rw [scored_cons hmounted]
        refine ⟨htip, fun attempt hattempt => ?_⟩
        rcases List.mem_cons.mp hattempt with rfl | hattempt
        · exact Nat.lt_succ_self _
        · exact hfetches attempt hattempt

theorem fresh_coached (hs : Fresh s) {attempt : Nat} (hattempt : attempt ∈ s.fetches)
    (tip : Option String) :
    Fresh ({ s with fetches := s.fetches.erase attempt }.coached attempt tip) := by
  have hfetches : ∀ k ∈ s.fetches.erase attempt, k < s.attempts :=
    fun k hk => hs.fetches k (List.mem_of_mem_erase hk)
  simp only [World.coached]
  split_ifs
  · exact ⟨hs.tip, hfetches⟩
  · cases tip with
    | none => exact ⟨hs.tip, hfetches⟩
    | some tip =>
      refine ⟨fun tip' htip => ?_, hfetches⟩
      obtain rfl := Option.some.inj htip
      exact hs.fetches attempt hattempt

theorem fresh_step {a : Action} (hs : Fresh s) (hstep : step s a = some t) : Fresh t := by
  cases moves_of_step hstep with
  | keeps _ _ _ h => exact h.fresh hs
  | loadPhrase =>
    rw [World.loadPhrase]
    split_ifs <;> exact ⟨hs.tip, hs.fetches⟩
  | nextRound =>
    simp only [World.nextRound, World.loadPhrase]
    split_ifs <;> exact ⟨hs.tip, hs.fetches⟩
  | scored missedWords =>
    have hs' : Fresh { s with calls := s.calls.erase .score } := ⟨hs.tip, hs.fetches⟩
    exact fresh_scored hs' missedWords
  | coached attempt tip hattempt => exact fresh_coached hs hattempt tip
  | dispose => exact ⟨hs.tip, hs.fetches⟩

theorem belongs_iff_current {a : Action} (hs : Belongs s ∧ Fresh s) (hstep : step s a = some t) :
    Belongs t ↔ Current s a t := by
  cases moves_of_step hstep with
  | keeps _ _ ha h => exact iff_of_true (h.belongs hs.1) (current_of_aside ha)
  | loadPhrase hmounted =>
    cases hbusy : s.busy with
    | true =>
      rw [loadPhrase_of_busy hbusy]
      exact iff_of_true hs.1 fun h => absurd (hbusy.symm.trans h) nofun
    | false =>
      rw [(cleared_loadPhrase hbusy).belongs_iff hmounted]
      exact ⟨fun h _ => h, fun h => h hbusy⟩
  | nextRound hmounted =>
    cases hbusy : s.busy with
    | true =>
      rw [nextRound_of_busy hbusy]
      exact iff_of_true hs.1 fun h => absurd (hbusy.symm.trans h) nofun
    | false =>
      rw [(cleared_nextRound hbusy).belongs_iff hmounted]
      exact ⟨fun h _ => h, fun h => h hbusy⟩
  | scored missedWords =>
    have hs' : Belongs { s with calls := s.calls.erase .score } := { hs.1 with }
    have hfresh : Fresh { s with calls := s.calls.erase .score } := { hs.2 with }
    cases missedWords with
    | error failure => exact iff_of_true ((Keeps.failed _ failure _).release.belongs hs') trivial
    | ok missedWords =>
      rcases Bool.eq_false_or_eq_true s.mounted with hmounted | hmounted
      · rw [belongs_scored_iff hfresh missedWords hmounted]
        exact ⟨fun h _ => h, fun h => h hmounted⟩
      · rw [scored_unmounted (s := { s with calls := s.calls.erase .score }) hmounted]
        exact iff_of_true ((Keeps.refl _).release.belongs hs')
          fun h => absurd (hmounted.symm.trans h) nofun
  | coached attempt tip =>
    rw [belongs_coached_iff hs.1]
    cases tip with
    | none => exact iff_of_true (fun h => absurd rfl h) trivial
    | some tip => exact ⟨fun h => h (Option.some_ne_none tip), fun h _ => h⟩
  | dispose => exact iff_of_true ⟨nofun, nofun⟩ trivial

end steps

/-- **The coaching belongs to the attempt on screen exactly in the runs in which rounds begin and
scores land beside no other coaching, and each tip comes back to its result.** -/
theorem coaching_belongs_iff (as : List Action) :
    Along step (fun _ _ t => Belongs t) World.init as ↔ Along step Current World.init as :=
  along_iff_of_invariant (I := fun w => Belongs w ∧ Fresh w) (P := fun _ _ t => Belongs t)
    (G := Current) (fun _ _ _ hs hstep => belongs_iff_current hs hstep)
    (fun _ _ _ hs h hstep => ⟨(belongs_iff_current hs hstep).mpr h, fresh_step hs.2 hstep⟩)
    ⟨⟨nofun, nofun⟩, ⟨nofun, nofun⟩⟩

/-! ## One fetch at a time -/

/-- The only fetch is the one for the result on the screen, and it shows as loading. -/
def Single (w : World) : Prop :=
  w.mounted = true → w.fetches = [] ∨ ∃ result, w.fetches = [result.attempt] ∧
    w.state.coachingLoading = true ∧ w.state.result = some result

section single

variable {s t : World}

theorem Keeps.single (h : Keeps s t) (hs : Single s) : Single t := by
  intro hm
  rw [h.mounted] at hm
  rw [h.fetches, h.loading, h.result]
  exact hs hm

theorem fetches_eq_nil (hs : Single s) (hmounted : s.mounted = true)
    (h : s.state.coachingLoading = false) : s.fetches = [] := by
  refine (hs hmounted).resolve_right fun ⟨_, _, hloading, _⟩ => ?_
  rw [h] at hloading
  cases hloading

theorem single_of_fetches_eq_nil (h : s.fetches = []) : Single s := fun _ => .inl h

theorem fetches_loadPhrase (s : World) : s.loadPhrase.fetches = s.fetches := by
  rw [World.loadPhrase]
  split_ifs <;> rfl

theorem single_scored (hs : Single s) (missedWords : List String)
    (h : s.mounted = true → s.state.coaching = none ∧ s.state.coachingLoading = false) :
    Single (s.scored (.ok missedWords)) := by
  rcases Bool.eq_false_or_eq_true s.mounted with hmounted | hmounted
  · have hnil := fetches_eq_nil hs hmounted (h hmounted).2
    cases missedWords with
    | nil =>
      rw [scored_nil hmounted]
      exact single_of_fetches_eq_nil hnil
    | cons word rest =>
      rw [scored_cons hmounted]
      exact fun _ => .inr ⟨_, congrArg _ hnil, rfl, rfl⟩
  · rw [scored_unmounted hmounted]
    exact (Keeps.refl s).release.single hs

/-- The fetch that comes back was the only one. -/
theorem single_coached (hs : Single s) {attempt : Nat} (hattempt : attempt ∈ s.fetches)
    (tip : Option String) :
    Single ({ s with fetches := s.fetches.erase attempt }.coached attempt tip) := by
  rcases Bool.eq_false_or_eq_true s.mounted with hmounted | hmounted
  · obtain hnil | ⟨result, hfetches, -⟩ := hs hmounted
    · rw [hnil] at hattempt
      cases hattempt
    · rw [hfetches, List.mem_singleton] at hattempt
      have hlast : s.fetches.erase attempt = [] := by
        rw [hfetches, hattempt, List.erase_cons_head]
      rw [hlast]
      refine single_of_fetches_eq_nil ?_
      simp only [World.coached]
      split_ifs
      · rfl
      · cases tip <;> rfl
  · intro hm
    simp only [World.coached, hmounted, Bool.not_false, if_true] at hm
    cases hm

/-- A round begins where nothing is fetched. -/
theorem single_loadPhrase (hs : Single s) (hmounted : s.mounted = true)
    (h : s.busy = false → s.state.coaching = none ∧ s.state.coachingLoading = false) :
    Single s.loadPhrase := by
  rcases Bool.eq_false_or_eq_true s.busy with hbusy | hbusy
  · rw [loadPhrase_of_busy hbusy]
    exact hs
  · have hnil := fetches_eq_nil hs hmounted (h hbusy).2
    exact single_of_fetches_eq_nil ((fetches_loadPhrase s).trans hnil)

theorem single_step {a : Action} (hs : Single s) (h : Settled s a t) (hstep : step s a = some t) :
    Single t := by
  cases moves_of_step hstep with
  | keeps _ _ _ hkeeps => exact hkeeps.single hs
  | loadPhrase hmounted => exact single_loadPhrase hs hmounted h
  | nextRound hmounted =>
    rcases Bool.eq_false_or_eq_true s.busy with hbusy | hbusy
    · rw [nextRound_of_busy hbusy]
      exact hs
    · rw [nextRound_of_free hbusy]
      have hkeeps : Keeps s
          { s with state := { s.state with round := s.state.round + 1, phase := .idle } } :=
        { Keeps.refl s with }
      exact single_loadPhrase (hkeeps.single hs) hmounted h
  | scored missedWords =>
    have hs' : Single { s with calls := s.calls.erase .score } := hs
    cases missedWords with
    | error failure => exact (Keeps.failed _ failure _).release.single hs'
    | ok missedWords => exact single_scored hs' missedWords h
  | coached attempt tip hattempt => exact single_coached hs hattempt tip
  | dispose => exact nofun

theorem current_of_settled {a : Action} (hs : Single s) (h : Settled s a t)
    (hstep : step s a = some t) : Current s a t := by
  cases a with
  | loadPhrase | nextRound => exact h
  | scored missedWords =>
    cases missedWords with
    | error failure => trivial
    | ok missedWords => exact fun hm => ⟨(h hm).1, fun _ => (h hm).2⟩
  | coached attempt tip =>
    cases tip with
    | none => trivial
    | some tip =>
      intro hmounted
      simp only [step] at hstep
      split_ifs at hstep with hattempt
      obtain hnil | ⟨result, hfetches, -, hresult⟩ := hs hmounted
      · rw [hnil] at hattempt
        cases hattempt
      · rw [hfetches, List.mem_singleton] at hattempt
        exact ⟨result, hresult, hattempt.symm⟩
  | _ => trivial

end single

/-- Where no round begins and no score lands beside other coaching, every tip comes back to its
result. -/
theorem coaching_belongs_of_settled (as : List Action) (h : Along step Settled World.init as) :
    Along step (fun _ _ t => Belongs t) World.init as :=
  (coaching_belongs_iff as).mpr <| along_of_invariant (I := Single) (G := Settled)
    (fun _ _ _ hs hg hstep => ⟨current_of_settled hs hg hstep, single_step hs hg hstep⟩)
    (single_of_fetches_eq_nil rfl) h

/-- The tip for the first attempt comes back to the second one. -/
theorem late_tip :
    ¬Along step (fun _ _ t => Belongs t) World.init
      [.loadPhrase, .phraseFetched (.ok "The ship sails"),
        .synthesized "The ship sails" (.ok ("SUQz", "audio/mpeg")), .record,
        .recorded (.ok true), .stopAndScore, .stopped (.ok (some [1])), .consented [1] (.ok true),
        .scored (.ok ["ship"]),
        .nextRound, .phraseFetched (.ok "Think twice"),
        .synthesized "Think twice" (.ok ("SUQz", "audio/mpeg")), .record,
        .recorded (.ok true), .stopAndScore, .stopped (.ok (some [2])), .consented [2] (.ok true),
        .scored (.ok ["think"]),
        .coached 0 (some "Short i in ship.")] := by
  intro h
  have hscored := (h _ rfl).2 _ rfl |>.2 _ rfl |>.2 _ rfl |>.2 _ rfl |>.2 _ rfl |>.2 _ rfl |>.2
  have hnext := (hscored _ rfl).2 _ rfl |>.2 _ rfl |>.2 _ rfl |>.2 _ rfl |>.2 _ rfl |>.2
  have hagain := (hnext _ rfl).2 _ rfl |>.2 _ rfl |>.2 _ rfl |>.2 _ rfl |>.2 _ rfl |>.1
  obtain ⟨result, hresult, hattempt⟩ := hagain.tip rfl ⟨0, "Short i in ship."⟩ rfl
  obtain rfl := Option.some.inj hresult
  cases hattempt

end Apm.Practice.Echo
