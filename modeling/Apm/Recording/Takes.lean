import Apm.Lib.Run
import Apm.Recording.Service
import Mathlib.Logic.Function.Basic

/-!
# The takes of the recording service

A start of `DeviceAudioRecordingService` opens a take: a stream of the plugin, its subscription,
the bytes received so far. The service has fields for one take. `start`, `stop` and `cancel` reset
them behind their awaits, whichever take they hold by then.

The service here is the one of `Apm.Recording.Service`, with its takes. An operation of the plugin
takes effect when it completes. What a take received, the bytes that each stop returned and the
last call are recorded; no method reads them.
-/

namespace Apm.Recording.Takes

open Apm.Lib

set_option autoImplicit false

/-! ## The bytes of a take -/

/-- `setUint16` and `setUint32`. -/
def littleEndian (width n : Nat) : List UInt8 :=
  (List.range width).map fun i => UInt8.ofNat (n >>> (8 * i))

/-- `_writeAscii` -/
def ascii (s : String) : List UInt8 := s.toList.map fun c => UInt8.ofNat c.toNat

def bitsPerSample : Nat := 16

def wrapPcmInWav (pcm : List UInt8) (sampleRate numChannels : Nat) : List UInt8 :=
  let byteRate := sampleRate * numChannels * bitsPerSample / 8
  let blockAlign := numChannels * bitsPerSample / 8
  let dataSize := pcm.length
  ascii "RIFF" ++ littleEndian 4 (36 + dataSize) ++ ascii "WAVE" ++
    ascii "fmt " ++ littleEndian 4 16 ++ littleEndian 2 1 ++ littleEndian 2 numChannels ++
    littleEndian 4 sampleRate ++ littleEndian 4 byteRate ++ littleEndian 2 blockAlign ++
    littleEndian 2 bitsPerSample ++ ascii "data" ++ littleEndian 4 dataSize ++ pcm

def sampleRate : Nat := 16000
def numChannels : Nat := 1

/-- What a stop returns for the chunks of a builder. -/
def recording (chunks : List (List UInt8)) : Option (List UInt8) :=
  if chunks.flatten.isEmpty then none
  else some (wrapPcmInWav chunks.flatten sampleRate numChannels)

theorem length_littleEndian (width n : Nat) : (littleEndian width n).length = width := by
  rw [littleEndian, List.length_map, List.length_range]

/-- The bytes follow a header of 44 bytes. -/
theorem drop_wrapPcmInWav (pcm : List UInt8) (sampleRate numChannels : Nat) :
    (wrapPcmInWav pcm sampleRate numChannels).drop 44 = pcm := by
  have hascii : ∀ s ∈ ["RIFF", "WAVE", "fmt ", "data"], (ascii s).length = 4 := by decide
  rw [wrapPcmInWav]
  apply List.drop_left'
  simp only [List.length_append, length_littleEndian]
  rw [hascii "RIFF" (by decide), hascii "WAVE" (by decide), hascii "fmt " (by decide),
    hascii "data" (by decide)]

/-- A recording tells the bytes of its chunks, in order. -/
theorem recording_eq_iff {chunks chunks' : List (List UInt8)} :
    recording chunks = recording chunks' ↔ chunks.flatten = chunks'.flatten := by
  refine ⟨fun h => ?_, fun h => by rw [recording, recording, h]⟩
  rw [recording, recording] at h
  split_ifs at h with hempty hempty'
  · rw [List.isEmpty_iff.mp hempty, List.isEmpty_iff.mp hempty']
  · have hdrop := congrArg (List.drop 44) (Option.some.inj h)
    rwa [drop_wrapPcmInWav, drop_wrapPcmInWav] at hdrop

/-! ## The service -/

structure Take where
  /-- the chunks in its `BytesBuilder` -/
  pcm : List (List UInt8)
  /-- its subscription has not been cancelled -/
  subscribed : Bool
  /-- its stream has closed -/
  closed : Bool
  /-- history: the chunks it received -/
  received : List (List UInt8)
  deriving DecidableEq

def Take.live (take : Take) : Bool := take.subscribed && !take.closed

inductive Call where
  /-- a stop of the take, for the plugin -/
  | stopPlugin (take : Nat)
  /-- for the end of its stream, or for the timeout -/
  | drain (take : Nat)
  /-- for the end of its subscription -/
  | closeSubscription (take : Nat)
  /-- a bound of a take, for the plugin -/
  | autoStop
  /-- a cancel, for the end of the subscription -/
  | tearDown
  /-- for the plugin -/
  | cancelPlugin
  deriving DecidableEq, Repr

inductive Request where
  | start
  | stop
  | cancel
  deriving DecidableEq, Repr

structure Service where
  /-- the take whose stream the plugin feeds -/
  mic : Option Nat
  /-- `_sub`, and with it `_pcm`, `_closed` and `_boundTimer` -/
  sub : Option Nat
  bytesSoFar : Nat
  autoStopping : Bool
  startInFlight : Option StartOnce
  calls : List Call
  timers : List Nat
  takes : Nat → Take
  opened : Nat
  lastCall : Option Request
  returned : List (Nat × Option (List UInt8))

inductive Action where
  | start
  /-- `_startOnce` goes on behind its teardown, behind `hasPermission`, behind `startStream` -/
  | startTornDown
  | permission (granted : Bool)
  | stream (opened : Bool)
  | stop
  /-- a stop goes on behind each of its awaits -/
  | pluginStopped (take : Nat)
  | drained (take : Nat)
  | subscriptionClosed (take : Nat)
  | cancel
  | cancelTornDown
  | pluginCancelled
  /-- the stream of a take -/
  | chunk (take : Nat) (bytes : List UInt8)
  | done (take : Nat)
  /-- the timer of a take -/
  | fire (take : Nat)
  | autoStopped
  deriving DecidableEq

namespace Service

def init : Service where
  mic := none
  sub := none
  bytesSoFar := 0
  autoStopping := false
  startInFlight := none
  calls := []
  timers := []
  takes := fun _ => ⟨[], false, false, []⟩
  opened := 0
  lastCall := none
  returned := []

variable (s : Service)

/-- `_reset` -/
def reset : Service := { s with sub := none, bytesSoFar := 0, autoStopping := false }

def updateTake (n : Nat) (f : Take → Take) : Service :=
  { s with takes := Function.update s.takes n (f (s.takes n)) }

/-- The subscription of a take is cancelled. -/
def unsubscribe (n : Nat) : Service := s.updateTake n fun take => { take with subscribed := false }

/-- `_teardown`, up to its await. -/
def teardown : Service :=
  match s.sub with
  | none => s
  | some n => { s.unsubscribe n with timers := s.timers.erase n }

/-- `_autoStop`, up to its await. -/
def autoStop : Service :=
  if s.autoStopping = true ∨ s.sub = none then s
  else { s with autoStopping := true, calls := .autoStop :: s.calls }

/-- The end of `_startOnce`: a take. -/
def listen : Service :=
  { s with
    mic := some s.opened
    sub := some s.opened
    bytesSoFar := 0
    autoStopping := false
    startInFlight := none
    timers := s.opened :: s.timers
    takes := Function.update s.takes s.opened ⟨[], true, false, []⟩
    opened := s.opened + 1 }

/-- A chunk of a stream, before the bound is tested. -/
def receive (n : Nat) (bytes : List UInt8) : Service :=
  { s.updateTake n fun take =>
      { take with pcm := take.pcm ++ [bytes], received := take.received ++ [bytes] } with
    bytesSoFar := s.bytesSoFar + bytes.length }

/-- The end of `stop`: whatever take the fields hold is read and forgotten. -/
def finish (n : Nat) : Service :=
  match s.sub with
  | none => { s.reset with returned := s.returned ++ [(n, none)] }
  | some m => { (s.updateTake m fun take => { take with pcm := [] }).reset with
      timers := s.timers.erase m
      returned := s.returned ++ [(n, recording (s.takes m).pcm)] }

end Service

def step (maxBytes : Nat) (s : Service) : Action → Option Service
  | .start =>
    match s.startInFlight with
    | some _ => some { s with lastCall := some .start }
    | none => some { s.teardown with lastCall := some .start, startInFlight := some .teardown }
  | .startTornDown =>
    if s.startInFlight = some .teardown then
      some { s.reset with startInFlight := some .hasPermission }
    else none
  | .permission granted =>
    if s.startInFlight = some .hasPermission then
      some { s with startInFlight := if granted then some .startStream else none }
    else none
  | .stream opened =>
    if s.startInFlight = some .startStream then
      some (if opened then s.listen else { s with startInFlight := none })
    else none
  | .stop =>
    match s.sub with
    | none => some { s with lastCall := some .stop }
    | some n =>
      if s.autoStopping then some { s with lastCall := some .stop, calls := .drain n :: s.calls }
      else some { s with
        lastCall := some .stop, autoStopping := true, calls := .stopPlugin n :: s.calls }
  | .pluginStopped n =>
    if .stopPlugin n ∈ s.calls then
      some { s with mic := none, calls := .drain n :: s.calls.erase (.stopPlugin n) }
    else none
  | .drained n =>
    if .drain n ∈ s.calls then
      some { s.unsubscribe n with calls := .closeSubscription n :: s.calls.erase (.drain n) }
    else none
  | .subscriptionClosed n =>
    if .closeSubscription n ∈ s.calls then
      some { s.finish n with calls := s.calls.erase (.closeSubscription n) }
    else none
  | .cancel => some { s.teardown with lastCall := some .cancel, calls := .tearDown :: s.calls }
  | .cancelTornDown =>
    if .tearDown ∈ s.calls then
      some { s.reset with calls := .cancelPlugin :: s.calls.erase .tearDown }
    else none
  | .pluginCancelled =>
    if .cancelPlugin ∈ s.calls then
      some { s with mic := none, calls := s.calls.erase .cancelPlugin }
    else none
  | .chunk n bytes =>
    if (s.takes n).live then
      let s := s.receive n bytes
      some (if maxBytes ≤ s.bytesSoFar then s.autoStop else s)
    else none
  | .done n =>
    if (s.takes n).live = true ∧ s.mic ≠ some n then
      some (s.updateTake n fun take => { take with closed := true })
    else none
  | .fire n =>
    if n ∈ s.timers then some { s with timers := s.timers.erase n }.autoStop else none
  | .autoStopped =>
    if .autoStop ∈ s.calls then
      some { s with mic := none, calls := s.calls.erase .autoStop }
    else none

/-! ## The property and its condition -/

/-- The take of a call of `stop`. -/
def Call.take : Call → Option Nat
  | .stopPlugin n | .drain n | .closeSubscription n => some n
  | .autoStop | .tearDown | .cancelPlugin => none

/-- A call of `stop` that is under way. -/
def Call.OfStop (c : Call) : Prop := c.take ≠ none

instance : DecidablePred Call.OfStop := fun _ => inferInstanceAs (Decidable (_ ≠ none))

/-- A call that is going to stop the plugin. -/
def Call.EndsCapture : Call → Prop
  | .stopPlugin _ | .autoStop | .tearDown | .cancelPlugin => True
  | .drain _ | .closeSubscription _ => False

instance : DecidablePred Call.EndsCapture := fun c => by
  cases c <;> simp only [Call.EndsCapture] <;> infer_instance

/-- The plugin does not capture, or is going to be stopped. -/
def Service.Ends (s : Service) : Prop := s.mic = none ∨ SomeWaits Call.EndsCapture s.calls

instance (s : Service) : Decidable s.Ends := by
  unfold Service.Ends
  infer_instance

/-- At most one subscription is live; a stop returns what its take received, and leaves the later
takes alone; what has settled behind a stop or a cancel does not capture. -/
structure Isolated (s : Service) (a : Action) (t : Service) : Prop where
  oneLive : ∀ m n, (t.takes m).live = true → (t.takes n).live = true → m = n
  /-- a stop that returns at once leaves nothing behind -/
  nothing : a = .stop → s.sub = none → ∀ n, (s.takes n).live = true → (s.takes n).received = []
  bytes : ∀ n, a = .subscriptionClosed n →
    t.returned = s.returned ++ [(n, recording (s.takes n).received)]
  later : ∀ n m, a = .pluginStopped n ∨ a = .subscriptionClosed n → n < m →
    (s.mic = some m → t.mic = some m) ∧ (s.sub = some m → t.sub = some m ∧ t.takes m = s.takes m)
  settled : t.calls = [] → t.startInFlight = none → t.lastCall = some .stop ∨
    t.lastCall = some .cancel → t.mic = none

/-- A take opens for a start that was called last, beside no stop and no teardown of a cancel; a
start is refused, and a stop finds no take, only where nothing goes on capturing; and the fields
are reset beside no other stop. -/
def Undisturbed (s : Service) (a : Action) (_ : Service) : Prop :=
  match a with
  | .stream true => s.lastCall = some .start ∧ ¬SomeWaits Call.OfStop s.calls ∧
      .tearDown ∉ s.calls
  | .permission false | .stream false => s.lastCall = some .start ∨ s.Ends
  | .stop => s.sub = none → s.startInFlight = none → s.Ends
  | .startTornDown | .cancelTornDown => ¬SomeWaits Call.OfStop s.calls
  | .subscriptionClosed n => ¬SomeWaits Call.OfStop (s.calls.erase (.closeSubscription n))
  | _ => True

instance (s t : Service) (a : Action) : Decidable (Undisturbed s a t) := by
  unfold Undisturbed
  split <;> infer_instance

/-! ## The invariant -/

/-- Only the take of the fields may be live; it is the last one that opened, and has its bytes. -/
structure TakeSound (s : Service) : Prop where
  live : ∀ n, (s.takes n).live = true → s.sub = some n
  latest : ∀ n, s.sub = some n → s.opened = n + 1
  mic : ∀ n, s.mic = some n → n < s.opened
  pcm : ∀ n, s.sub = some n → (s.takes n).pcm = (s.takes n).received

/-- The subscription of the fields has been cancelled. -/
def Service.Torn (s : Service) : Prop := ∀ n, s.sub = some n → (s.takes n).subscribed = false

/-- A stop under way is of the take of the fields; who is about to reset them has cancelled the
subscription. -/
def Service.Fits (s : Service) : Call → Prop
  | .stopPlugin n | .drain n => s.sub = some n
  | .closeSubscription n => s.sub = some n ∧ (s.takes n).subscribed = false
  | .tearDown => s.Torn
  | .autoStop | .cancelPlugin => True

structure CallSound (s : Service) : Prop where
  starting : s.startInFlight = some .hasPermission ∨ s.startInFlight = some .startStream →
    s.sub = none
  torn : s.startInFlight = some .teardown → s.Torn
  fits : ∀ c ∈ s.calls, s.Fits c

/-- A stop that is past the plugin, a bound that was reached, and a stop or a cancel that came last
end the capture. -/
structure EndSound (s : Service) : Prop where
  drains : ∀ n, .drain n ∈ s.calls ∨ .closeSubscription n ∈ s.calls → s.Ends
  auto : s.autoStopping = true → s.Ends
  last : s.lastCall ≠ some .start → s.startInFlight = none → s.Ends

structure Sound (s : Service) : Prop where
  takes : TakeSound s
  calls : CallSound s
  ends : EndSound s

theorem sound_init : Sound Service.init :=
  ⟨⟨nofun, nofun, nofun, nofun⟩, ⟨nofun, nofun, nofun⟩,
    ⟨fun _ _ => .inl rfl, nofun, fun _ _ => .inl rfl⟩⟩

/-- What an action does, branch by branch. -/
inductive Moves (maxBytes : Nat) (s : Service) : Action → Service → Prop where
  | sharesStart : Moves maxBytes s .start { s with lastCall := some .start }
  | starts : Moves maxBytes s .start
      { s.teardown with lastCall := some .start, startInFlight := some .teardown }
  | startTornDown (hflight : s.startInFlight = some .teardown) : Moves maxBytes s .startTornDown
      { s.reset with startInFlight := some .hasPermission }
  | permitted (hflight : s.startInFlight = some .hasPermission) :
      Moves maxBytes s (.permission true) { s with startInFlight := some .startStream }
  | refused : Moves maxBytes s (.permission false) { s with startInFlight := none }
  | opened (hflight : s.startInFlight = some .startStream) :
      Moves maxBytes s (.stream true) s.listen
  | notOpened : Moves maxBytes s (.stream false) { s with startInFlight := none }
  | stopsNothing (hsub : s.sub = none) : Moves maxBytes s .stop { s with lastCall := some .stop }
  | stopsDraining (n : Nat) (hsub : s.sub = some n) (hauto : s.autoStopping = true) :
      Moves maxBytes s .stop { s with lastCall := some .stop, calls := .drain n :: s.calls }
  | stopsPlugin (n : Nat) (hsub : s.sub = some n) : Moves maxBytes s .stop { s with
      lastCall := some .stop, autoStopping := true, calls := .stopPlugin n :: s.calls }
  | pluginStopped (n : Nat) (hcall : .stopPlugin n ∈ s.calls) : Moves maxBytes s (.pluginStopped n)
      { s with mic := none, calls := .drain n :: s.calls.erase (.stopPlugin n) }
  | drained (n : Nat) (hcall : .drain n ∈ s.calls) : Moves maxBytes s (.drained n)
      { s.unsubscribe n with calls := .closeSubscription n :: s.calls.erase (.drain n) }
  | subscriptionClosed (n : Nat) (hcall : .closeSubscription n ∈ s.calls) :
      Moves maxBytes s (.subscriptionClosed n)
        { s.finish n with calls := s.calls.erase (.closeSubscription n) }
  | cancels : Moves maxBytes s .cancel
      { s.teardown with lastCall := some .cancel, calls := .tearDown :: s.calls }
  | cancelTornDown (hcall : .tearDown ∈ s.calls) : Moves maxBytes s .cancelTornDown
      { s.reset with calls := .cancelPlugin :: s.calls.erase .tearDown }
  | pluginCancelled : Moves maxBytes s .pluginCancelled
      { s with mic := none, calls := s.calls.erase .cancelPlugin }
  | fills (n : Nat) (bytes : List UInt8) (hlive : (s.takes n).live = true) :
      Moves maxBytes s (.chunk n bytes) (s.receive n bytes).autoStop
  | receives (n : Nat) (bytes : List UInt8) (hlive : (s.takes n).live = true) :
      Moves maxBytes s (.chunk n bytes) (s.receive n bytes)
  | done (n : Nat) : Moves maxBytes s (.done n)
      (s.updateTake n fun take => { take with closed := true })
  | fires (n : Nat) : Moves maxBytes s (.fire n) { s with timers := s.timers.erase n }.autoStop
  | autoStopped : Moves maxBytes s .autoStopped
      { s with mic := none, calls := s.calls.erase .autoStop }

theorem moves_of_step {maxBytes : Nat} {s t : Service} {a : Action}
    (hstep : step maxBytes s a = some t) : Moves maxBytes s a t := by
  cases a with
  | start =>
    simp only [step] at hstep
    split at hstep <;> obtain rfl := Option.some.inj hstep
    · exact .sharesStart
    · exact .starts
  | permission granted =>
    simp only [step] at hstep
    split_ifs at hstep with hflight hgranted
    all_goals obtain rfl := Option.some.inj hstep
    · subst hgranted
      exact .permitted hflight
    · rw [Bool.not_eq_true] at hgranted
      subst hgranted
      exact .refused
  | stream opened =>
    simp only [step] at hstep
    split_ifs at hstep with hflight hopened
    all_goals obtain rfl := Option.some.inj hstep
    · subst hopened
      exact .opened hflight
    · rw [Bool.not_eq_true] at hopened
      subst hopened
      exact .notOpened
  | stop =>
    simp only [step] at hstep
    split at hstep
    · rename_i hsub
      obtain rfl := Option.some.inj hstep
      exact .stopsNothing hsub
    · rename_i n hsub
      split_ifs at hstep with hauto <;> obtain rfl := Option.some.inj hstep
      · exact .stopsDraining n hsub hauto
      · exact .stopsPlugin n hsub
  | cancel =>
    obtain rfl := Option.some.inj hstep
    exact .cancels
  | chunk n bytes =>
    simp only [step] at hstep
    split_ifs at hstep with hlive <;> obtain rfl := Option.some.inj hstep
    · exact .fills n bytes hlive
    · exact .receives n bytes hlive
  | startTornDown | pluginStopped | drained | subscriptionClosed | cancelTornDown =>
    simp only [step] at hstep
    split_ifs at hstep with hguard
    obtain rfl := Option.some.inj hstep
    constructor
    exact hguard
  | pluginCancelled | done | fire | autoStopped =>
    simp only [step] at hstep
    split_ifs at hstep
    obtain rfl := Option.some.inj hstep
    constructor

theorem takes_updateTake_self (s : Service) (n : Nat) (f : Take → Take) :
    (s.updateTake n f).takes n = f (s.takes n) := Function.update_self ..

theorem takes_updateTake_of_ne (s : Service) {m n : Nat} (h : m ≠ n) (f : Take → Take) :
    (s.updateTake n f).takes m = s.takes m := Function.update_of_ne h ..

theorem subscribed_unsubscribe (s : Service) (n : Nat) :
    ((s.unsubscribe n).takes n).subscribed = false :=
  congrArg Take.subscribed (takes_updateTake_self s n _)

theorem takes_receive_self (s : Service) (n : Nat) (bytes : List UInt8) :
    (s.receive n bytes).takes n = { s.takes n with
      pcm := (s.takes n).pcm ++ [bytes], received := (s.takes n).received ++ [bytes] } :=
  Function.update_self ..

theorem takes_receive_of_ne (s : Service) {m n : Nat} (h : m ≠ n) (bytes : List UInt8) :
    (s.receive n bytes).takes m = s.takes m := Function.update_of_ne h ..

section takes

variable {maxBytes : Nat} {s t : Service} {n : Nat}

theorem live_eq_false_of_subscribed {take : Take} (h : take.subscribed = false) :
    take.live = false := by
  rw [Take.live, h, Bool.false_and]

/-- The fields hold the same take, and no subscription is new. -/
structure FieldsStay (s t : Service) : Prop where
  sub : t.sub = s.sub
  subscribed : ∀ n, (s.takes n).subscribed = false → (t.takes n).subscribed = false

/-- Subscriptions end, streams close, the plugin stops: no take is new. -/
structure Quieter (s t : Service) : Prop extends FieldsStay s t where
  opened : t.opened = s.opened
  mic : ∀ n, t.mic = some n → s.mic = some n
  live : ∀ n, (t.takes n).live = true → (s.takes n).live = true
  pcm : ∀ n, (t.takes n).pcm = (s.takes n).pcm
  received : ∀ n, (t.takes n).received = (s.takes n).received

namespace Quieter

variable {u : Service}

theorem refl (s : Service) : Quieter s s :=
  ⟨⟨rfl, fun _ h => h⟩, rfl, fun _ h => h, fun _ h => h, fun _ => rfl, fun _ => rfl⟩

theorem trans (h : Quieter s t) (h' : Quieter t u) : Quieter s u where
  sub := h'.sub.trans h.sub
  opened := h'.opened.trans h.opened
  mic := fun n hn => h.mic n (h'.mic n hn)
  live := fun n hn => h.live n (h'.live n hn)
  subscribed := fun n hn => h'.subscribed n (h.subscribed n hn)
  pcm := fun n => (h'.pcm n).trans (h.pcm n)
  received := fun n => (h'.received n).trans (h.received n)

/-- A take changes, and not what it has received. -/
theorem updateTake (s : Service) (n : Nat) (f : Take → Take)
    (hlive : (f (s.takes n)).live = true → (s.takes n).live = true)
    (hsubscribed : (s.takes n).subscribed = false → (f (s.takes n)).subscribed = false)
    (hpcm : (f (s.takes n)).pcm = (s.takes n).pcm)
    (hreceived : (f (s.takes n)).received = (s.takes n).received) :
    Quieter s (s.updateTake n f) := by
  have htake : ∀ m (p : Take → Take → Prop), (∀ take, p take take) → p (s.takes n) (f (s.takes n)) →
      p (s.takes m) ((s.updateTake n f).takes m) := by
    intro m p hsame hnew
    by_cases hm : m = n
    · rw [hm, takes_updateTake_self]
      exact hnew
    · rw [takes_updateTake_of_ne s hm]
      exact hsame _
  exact {
    sub := rfl
    opened := rfl
    mic := fun _ h => h
    live := fun m => htake m (fun a b => b.live = true → a.live = true) (fun _ => id) hlive
    subscribed := fun m =>
      htake m (fun a b => a.subscribed = false → b.subscribed = false) (fun _ => id) hsubscribed
    pcm := fun m => htake m (fun a b => b.pcm = a.pcm) (fun _ => rfl) hpcm
    received := fun m => htake m (fun a b => b.received = a.received) (fun _ => rfl) hreceived }

theorem unsubscribe (s : Service) (n : Nat) : Quieter s (s.unsubscribe n) :=
  updateTake s n _ (fun h => by cases h) (fun _ => rfl) rfl rfl

theorem close (s : Service) (n : Nat) :
    Quieter s (s.updateTake n fun take => { take with closed := true }) := by
  refine updateTake s n _ (fun h => ?_) id rfl rfl
  rw [Take.live, Bool.not_true, Bool.and_false] at h
  cases h

theorem teardown (s : Service) : Quieter s s.teardown := by
  rw [Service.teardown]
  cases s.sub with
  | none => exact refl s
  | some n => exact { unsubscribe s n with }

theorem autoStop (s : Service) : Quieter s s.autoStop := by
  rw [Service.autoStop]
  split_ifs
  · exact refl s
  · exact { refl s with }

theorem takeSound (h : Quieter s t) (hs : TakeSound s) : TakeSound t where
  live := fun n hn => h.sub.trans (hs.live n (h.live n hn))
  latest := fun n hn => h.opened.trans (hs.latest n (h.sub.symm.trans hn))
  mic := fun n hn => h.opened.symm ▸ hs.mic n (h.mic n hn)
  pcm := fun n hn => by rw [h.pcm, h.received, hs.pcm n (h.sub.symm.trans hn)]

end Quieter

theorem takeSound_reset (hs : TakeSound s) (h : s.Torn) : TakeSound s.reset := by
  refine ⟨fun n hn => ?_, nofun, hs.mic, nofun⟩
  have hlive := live_eq_false_of_subscribed (h n (hs.live n hn))
  exact absurd (hlive.symm.trans hn) Bool.false_ne_true

theorem takeSound_listen (hs : TakeSound s) (h : s.sub = none) : TakeSound s.listen := by
  refine ⟨fun n hn => ?_, fun n hn => ?_, fun n hn => ?_, fun n hn => ?_⟩
  · by_cases hnew : n = s.opened
    · rw [hnew]
      rfl
    · have hlive : (s.takes n).live = true := by
        rwa [show s.listen.takes n = _ from Function.update_of_ne hnew _ _] at hn
      rw [hs.live n hlive] at h
      cases h
  · obtain rfl := Option.some.inj hn
    rfl
  · obtain rfl := Option.some.inj hn
    exact Nat.lt_succ_self _
  · obtain rfl := Option.some.inj hn
    rw [show s.listen.takes s.opened = _ from Function.update_self ..]

/-- A chunk goes to the take of the fields. -/
theorem takeSound_receive (hs : TakeSound s) (hlive : (s.takes n).live = true)
    (bytes : List UInt8) : TakeSound (s.receive n bytes) := by
  refine ⟨fun m hm => ?_, hs.latest, hs.mic, fun m hm => ?_⟩
  · by_cases hmn : m = n
    · rw [hmn]
      exact hs.live n hlive
    · exact hs.live m (takes_receive_of_ne s hmn bytes ▸ hm)
  · obtain rfl := Option.some.inj (hm.symm.trans (hs.live n hlive))
    rw [takes_receive_self]
    exact congrArg (· ++ [bytes]) (hs.pcm m hm)

/-- The take of a stop is read and forgotten. -/
theorem finish_eq (hsub : s.sub = some n) :
    s.finish n = { (s.updateTake n fun take => { take with pcm := [] }).reset with
      timers := s.timers.erase n
      returned := s.returned ++ [(n, recording (s.takes n).pcm)] } := by
  simp only [Service.finish, hsub]

theorem takeSound_finish (hs : TakeSound s) (hsub : s.sub = some n)
    (h : (s.takes n).subscribed = false) : TakeSound (s.finish n) := by
  rw [finish_eq hsub]
  refine ⟨fun m hm => ?_, nofun, hs.mic, nofun⟩
  have hm' : ((s.updateTake n fun take => { take with pcm := [] }).takes m).live = true := hm
  by_cases hmn : m = n
  · rw [hmn, takes_updateTake_self] at hm'
    exact absurd ((live_eq_false_of_subscribed h).symm.trans hm') Bool.false_ne_true
  · rw [takes_updateTake_of_ne s hmn] at hm'
    exact absurd (Option.some.inj (hsub.symm.trans (hs.live m hm'))).symm hmn

theorem takeSound_step {a : Action} (hs : Sound s) (h : Undisturbed s a t)
    (hstep : step maxBytes s a = some t) : TakeSound t := by
  have hsame : ∀ u, Quieter s u → TakeSound u := fun u hu => hu.takeSound hs.takes
  cases moves_of_step hstep with
  | starts => exact hsame _ { Quieter.teardown s with }
  | startTornDown hflight =>
    have hreset := takeSound_reset hs.takes (hs.calls.torn hflight)
    exact { hreset with }
  | opened hflight => exact takeSound_listen hs.takes (hs.calls.starting (.inr hflight))
  | pluginStopped | pluginCancelled | autoStopped =>
    exact hsame _ { Quieter.refl s with mic := nofun }
  | drained n => exact hsame _ { Quieter.unsubscribe s n with }
  | subscriptionClosed n hcall =>
    obtain ⟨hsub, hsubscribed⟩ := hs.calls.fits _ hcall
    have hfinish := takeSound_finish hs.takes hsub hsubscribed
    exact { hfinish with }
  | cancels => exact hsame _ { Quieter.teardown s with }
  | cancelTornDown hcall =>
    have hreset := takeSound_reset hs.takes (hs.calls.fits _ hcall)
    exact { hreset with }
  | fills n bytes hlive =>
    exact (Quieter.autoStop _).takeSound (takeSound_receive hs.takes hlive bytes)
  | receives n bytes hlive => exact takeSound_receive hs.takes hlive bytes
  | done n => exact hsame _ (Quieter.close s n)
  | fires n =>
    have herase : Quieter s { s with timers := s.timers.erase n } := { Quieter.refl s with }
    exact hsame _ (herase.trans (Quieter.autoStop _))
  | sharesStart | permitted | refused | notOpened | stopsNothing | stopsDraining | stopsPlugin =>
    exact hsame _ { Quieter.refl s with }

end takes

section calls

variable {maxBytes : Nat} {s t : Service} {n : Nat}

theorem FieldsStay.torn (h : FieldsStay s t) (hs : s.Torn) : t.Torn :=
  fun n hn => h.subscribed n (hs n (h.sub.symm.trans hn))

theorem FieldsStay.fits (h : FieldsStay s t) {c : Call} (hc : s.Fits c) : t.Fits c := by
  cases c with
  | stopPlugin | drain => exact h.sub.trans hc
  | closeSubscription n => exact ⟨h.sub.trans hc.1, h.subscribed n hc.2⟩
  | tearDown => exact h.torn hc
  | autoStop | cancelPlugin => trivial

/-- Calls go on beside fields that stay; what a call becomes fits them. -/
theorem callSound_of_fieldsStay (hs : CallSound s) (h : FieldsStay s t)
    (hflight : t.startInFlight = s.startInFlight) (hcalls : ∀ c ∈ t.calls, c ∈ s.calls ∨ t.Fits c) :
    CallSound t := by
  refine ⟨fun ht => ?_, fun ht => ?_, fun c hc => ?_⟩
  · rw [hflight] at ht
    exact h.sub.trans (hs.starting ht)
  · rw [hflight] at ht
    exact h.torn (hs.torn ht)
  · exact (hcalls c hc).elim (fun hold => h.fits (hs.fits c hold)) id

theorem torn_of_sub_eq_none (h : s.sub = none) : s.Torn := by
  intro n hn
  rw [h] at hn
  cases hn

/-- The fields are reset beside no stop. -/
theorem fits_of_sub_eq_none (h : s.sub = none) {c : Call} (hc : ¬c.OfStop) : s.Fits c := by
  cases c with
  | stopPlugin | drain | closeSubscription => exact absurd (Option.some_ne_none _) hc
  | tearDown => exact torn_of_sub_eq_none h
  | autoStop | cancelPlugin => trivial

theorem torn_teardown (s : Service) : s.teardown.Torn := by
  intro n hn
  rw [Service.teardown] at hn ⊢
  cases hsub : s.sub with
  | none =>
    simp only [hsub] at hn
    cases hn
  | some m =>
    simp only [hsub] at hn ⊢
    obtain rfl := Option.some.inj (hsub.symm.trans hn)
    exact subscribed_unsubscribe s m

theorem startInFlight_teardown (s : Service) : s.teardown.startInFlight = s.startInFlight := by
  rw [Service.teardown]
  cases s.sub <;> rfl

theorem sub_finish (s : Service) (n : Nat) : (s.finish n).sub = none := by
  rw [Service.finish]
  cases s.sub <;> rfl

theorem calls_teardown (s : Service) : s.teardown.calls = s.calls := by
  rw [Service.teardown]
  cases s.sub <;> rfl

theorem startInFlight_autoStop (s : Service) : s.autoStop.startInFlight = s.startInFlight := by
  rw [Service.autoStop]
  split_ifs <;> rfl

theorem mem_calls_autoStop {c : Call} (h : c ∈ s.autoStop.calls) : c ∈ s.calls ∨ c = .autoStop := by
  rw [Service.autoStop] at h
  split_ifs at h
  · exact .inl h
  · exact (List.mem_cons.mp h).symm

theorem callSound_autoStop (hs : CallSound s) : CallSound s.autoStop :=
  callSound_of_fieldsStay hs (Quieter.autoStop s).toFieldsStay (startInFlight_autoStop s) fun c hc =>
    (mem_calls_autoStop hc).imp_right fun h => by rw [h]; trivial

theorem fieldsStay_receive (s : Service) (n : Nat) (bytes : List UInt8) :
    FieldsStay s (s.receive n bytes) := by
  refine ⟨rfl, fun m hm => ?_⟩
  by_cases hmn : m = n
  · subst hmn
    rw [takes_receive_self]
    exact hm
  · rwa [takes_receive_of_ne s hmn]

theorem callSound_receive (hs : CallSound s) (n : Nat) (bytes : List UInt8) :
    CallSound (s.receive n bytes) :=
  callSound_of_fieldsStay hs (fieldsStay_receive s n bytes) rfl fun _ hc => .inl hc

/-- The end of a stop, or of a cancel's teardown. -/
theorem callSound_of_sub_eq_none (h : t.sub = none) (hcalls : ¬SomeWaits Call.OfStop t.calls) :
    CallSound t :=
  ⟨fun _ => h, fun _ => torn_of_sub_eq_none h,
    fun c hc => fits_of_sub_eq_none h fun hstop => hcalls ⟨c, hc, hstop⟩⟩

theorem callSound_step {a : Action} (hs : Sound s) (h : Undisturbed s a t)
    (hstep : step maxBytes s a = some t) : CallSound t := by
  cases moves_of_step hstep with
  | sharesStart => exact { hs.calls with }
  | starts =>
    refine ⟨fun ht => ht.elim nofun nofun, fun _ => torn_teardown s, fun c hc => ?_⟩
    have hstay : FieldsStay s { s.teardown with
      lastCall := some .start, startInFlight := some .teardown } := { Quieter.teardown s with }
    exact hstay.fits (hs.calls.fits c (calls_teardown s ▸ hc))
  | startTornDown => exact callSound_of_sub_eq_none rfl h
  | permitted hflight => exact ⟨fun _ => hs.calls.starting (.inl hflight), nofun, hs.calls.fits⟩
  | refused | notOpened => exact ⟨fun ht => ht.elim nofun nofun, nofun, hs.calls.fits⟩
  | opened =>
    obtain ⟨-, hstop, hcancel⟩ := h
    refine ⟨fun ht => ht.elim nofun nofun, nofun, fun c hc => ?_⟩
    cases c with
    | stopPlugin | drain | closeSubscription =>
      exact absurd ⟨_, hc, Option.some_ne_none _⟩ hstop
    | tearDown => exact absurd hc hcancel
    | autoStop | cancelPlugin => trivial
  | stopsNothing => exact { hs.calls with }
  | stopsDraining n hsub | stopsPlugin n hsub =>
    refine callSound_of_fieldsStay hs.calls { Quieter.refl s with } rfl fun c hc => ?_
    rcases List.mem_cons.mp hc with rfl | hc
    · exact .inr hsub
    · exact .inl hc
  | pluginStopped n hcall =>
    refine callSound_of_fieldsStay hs.calls { Quieter.refl s with } rfl fun c hc => ?_
    rcases List.mem_cons.mp hc with rfl | hc
    · exact .inr (hs.calls.fits _ hcall)
    · exact .inl (List.mem_of_mem_erase hc)
  | drained n hcall =>
    refine callSound_of_fieldsStay hs.calls { Quieter.unsubscribe s n with } rfl fun c hc => ?_
    rcases List.mem_cons.mp hc with rfl | hc
    · exact .inr ⟨hs.calls.fits _ hcall, subscribed_unsubscribe s n⟩
    · exact .inl (List.mem_of_mem_erase hc)
  | subscriptionClosed n => exact callSound_of_sub_eq_none (sub_finish s n) h
  | cancels =>
    have hstay : FieldsStay s { s.teardown with
      lastCall := some .cancel, calls := .tearDown :: s.calls } := { Quieter.teardown s with }
    refine callSound_of_fieldsStay hs.calls hstay (startInFlight_teardown s) fun c hc => ?_
    rcases List.mem_cons.mp hc with rfl | hc
    · exact .inr (torn_teardown s)
    · exact .inl hc
  | cancelTornDown =>
    refine callSound_of_sub_eq_none rfl fun ⟨c, hc, hstop⟩ => ?_
    rcases List.mem_cons.mp hc with rfl | hc
    · exact hstop rfl
    · exact h ⟨c, List.mem_of_mem_erase hc, hstop⟩
  | pluginCancelled | autoStopped =>
    exact callSound_of_fieldsStay hs.calls { Quieter.refl s with } rfl fun c hc =>
      .inl (List.mem_of_mem_erase hc)
  | fills n bytes => exact callSound_autoStop (callSound_receive hs.calls n bytes)
  | receives n bytes => exact callSound_receive hs.calls n bytes
  | done n =>
    exact callSound_of_fieldsStay hs.calls (Quieter.close s n).toFieldsStay rfl fun _ hc => .inl hc
  | fires n => exact callSound_autoStop { hs.calls with }

end calls

section ends

variable {maxBytes : Nat} {s t : Service} {n : Nat}

theorem endSound_of_ends (h : s.Ends) : EndSound s := ⟨fun _ _ => h, fun _ => h, fun _ _ => h⟩

/-- A call under way is going to stop the plugin. -/
theorem endSound_of_mem {c : Call} (hc : c ∈ s.calls) (h : c.EndsCapture) : EndSound s :=
  endSound_of_ends (.inr ⟨c, hc, h⟩)

theorem ends_congr (hmic : t.mic = s.mic) (hcalls : t.calls = s.calls) : t.Ends ↔ s.Ends := by
  rw [Service.Ends, Service.Ends, hmic, hcalls]

theorem mic_teardown (s : Service) : s.teardown.mic = s.mic := by
  rw [Service.teardown]
  cases s.sub <;> rfl

theorem autoStopping_teardown (s : Service) : s.teardown.autoStopping = s.autoStopping := by
  rw [Service.teardown]
  cases s.sub <;> rfl

theorem mic_finish (s : Service) (n : Nat) : (s.finish n).mic = s.mic := by
  rw [Service.finish]
  cases s.sub <;> rfl

theorem endSound_autoStop (hs : EndSound s) : EndSound s.autoStop := by
  rw [Service.autoStop]
  split_ifs
  · exact hs
  · exact endSound_of_mem (c := .autoStop) List.mem_cons_self trivial

/-- A start that is called last does not have to end the capture. -/
theorem endSound_start (hs : EndSound s) (hmic : t.mic = s.mic) (hcalls : t.calls = s.calls)
    (hauto : t.autoStopping = s.autoStopping) (hlast : t.lastCall = some .start) : EndSound t := by
  refine ⟨fun n hn => ?_, fun ht => ?_, fun ht => absurd hlast ht⟩
  · rw [hcalls] at hn
    exact (ends_congr hmic hcalls).mpr (hs.drains n hn)
  · rw [hauto] at ht
    exact (ends_congr hmic hcalls).mpr (hs.auto ht)

/-- A refused start. -/
theorem endSound_refused (hs : EndSound s) (h : s.lastCall = some .start ∨ s.Ends) :
    EndSound { s with startInFlight := none } :=
  ⟨hs.drains, hs.auto, fun hlast _ => h.resolve_left hlast⟩

theorem endSound_step {a : Action} (hs : Sound s) (h : Undisturbed s a t)
    (hstep : step maxBytes s a = some t) : EndSound t := by
  cases moves_of_step hstep with
  | sharesStart => exact endSound_start hs.ends rfl rfl rfl rfl
  | starts =>
    exact endSound_start hs.ends (mic_teardown s) (calls_teardown s) (autoStopping_teardown s) rfl
  | startTornDown => exact ⟨hs.ends.drains, nofun, nofun⟩
  | permitted => exact ⟨hs.ends.drains, hs.ends.auto, nofun⟩
  | refused | notOpened => exact endSound_refused hs.ends h
  | opened =>
    refine ⟨fun n hn => absurd ?_ h.2.1, nofun, fun hlast => absurd h.1 hlast⟩
    exact hn.elim (fun hc => ⟨_, hc, Option.some_ne_none n⟩) fun hc => ⟨_, hc, Option.some_ne_none n⟩
  | stopsNothing hsub => exact ⟨hs.ends.drains, hs.ends.auto, fun _ hflight => h hsub hflight⟩
  | stopsDraining n _ hauto => exact endSound_of_ends ((hs.ends.auto hauto).imp_right SomeWaits.cons)
  | stopsPlugin n => exact endSound_of_mem (c := .stopPlugin n) List.mem_cons_self trivial
  | pluginStopped | pluginCancelled | autoStopped => exact endSound_of_ends (.inl rfl)
  | drained n hcall =>
    have hends := hs.ends.drains n (.inl hcall)
    exact endSound_of_ends (hends.imp_right fun hwaits => hwaits.replace nofun)
  | subscriptionClosed n hcall =>
    have hends := hs.ends.drains n (.inr hcall)
    exact endSound_of_ends (hends.imp (mic_finish s n).trans fun hwaits => hwaits.erase nofun)
  | cancels => exact endSound_of_mem (c := .tearDown) List.mem_cons_self trivial
  | cancelTornDown => exact endSound_of_mem (c := .cancelPlugin) List.mem_cons_self trivial
  | fills n bytes =>
    apply endSound_autoStop
    exact ⟨hs.ends.drains, hs.ends.auto, hs.ends.last⟩
  | receives | done => exact ⟨hs.ends.drains, hs.ends.auto, hs.ends.last⟩
  | fires n =>
    apply endSound_autoStop
    exact ⟨hs.ends.drains, hs.ends.auto, hs.ends.last⟩

end ends

theorem sound_step {maxBytes : Nat} {s t : Service} {a : Action} (hs : Sound s)
    (h : Undisturbed s a t) (hstep : step maxBytes s a = some t) : Sound t :=
  ⟨takeSound_step hs h hstep, callSound_step hs h hstep, endSound_step hs h hstep⟩

section isolated

variable {maxBytes : Nat} {s t : Service} {n : Nat}

/-- No take is later than the one of a stop that is under way. -/
theorem not_later (hs : TakeSound s) (hsub : s.sub = some n) {m : Nat} (h : n < m) :
    s.mic ≠ some m ∧ s.sub ≠ some m := by
  have hlatest := hs.latest n hsub
  refine ⟨fun hm => ?_, fun hm => ?_⟩
  · have hopened := hs.mic m hm
    omega
  · obtain rfl := Option.some.inj (hsub.symm.trans hm)
    omega

theorem mic_eq_none_of_settled (hs : EndSound s) (hcalls : s.calls = [])
    (hflight : s.startInFlight = none) (hlast : s.lastCall ≠ some .start) : s.mic = none := by
  refine (hs.last hlast hflight).resolve_right fun hwaits => ?_
  rw [hcalls] at hwaits
  exact SomeWaits.not_nil hwaits

/-- A stop returns what its take received. -/
theorem returned_finish (hs : TakeSound s) (hsub : s.sub = some n) :
    (s.finish n).returned = s.returned ++ [(n, recording (s.takes n).received)] := by
  rw [finish_eq hsub, hs.pcm n hsub]

theorem isolated_of_undisturbed {a : Action} (hs : Sound s) (h : Undisturbed s a t)
    (hstep : step maxBytes s a = some t) : Isolated s a t := by
  have ht := sound_step hs h hstep
  refine ⟨fun m n hm hn => ?_, fun _ hsub n hlive => ?_, fun n ha => ?_, fun n m ha hlater => ?_,
    fun hcalls hflight hlast => ?_⟩
  · exact Option.some.inj ((ht.takes.live m hm).symm.trans (ht.takes.live n hn))
  · rw [hs.takes.live n hlive] at hsub
    cases hsub
  · subst ha
    cases moves_of_step hstep with
    | subscriptionClosed _ hcall => exact returned_finish hs.takes (hs.calls.fits _ hcall).1
  · have hsub : s.sub = some n := by
      rcases ha with rfl | rfl
      · cases moves_of_step hstep with
        | pluginStopped _ hcall => exact hs.calls.fits _ hcall
      · cases moves_of_step hstep with
        | subscriptionClosed _ hcall => exact (hs.calls.fits _ hcall).1
    obtain ⟨hmic, hsub'⟩ := not_later hs.takes hsub hlater
    exact ⟨fun hm => absurd hm hmic, fun hm => absurd hm hsub'⟩
  · refine mic_eq_none_of_settled ht.ends hcalls hflight fun hstart => ?_
    rw [hstart] at hlast
    rcases hlast with hlast | hlast <;> cases hlast

end isolated

/-- **The takes are isolated in the runs in which no call of the service disturbs another one.** -/
theorem takes_isolated (maxBytes : Nat) (as : List Action)
    (h : Along (step maxBytes) Undisturbed Service.init as) :
    Along (step maxBytes) Isolated Service.init as :=
  along_of_invariant (I := Sound) (G := Undisturbed)
    (fun _ _ _ hs hg hstep => ⟨isolated_of_undisturbed hs hg hstep, sound_step hs hg hstep⟩)
    sound_init h

/-- A take that reaches its bound, its stop, a second take, and its cancel. -/
theorem takes_isolated_bounded :
    Along (step 4) Isolated Service.init
      [.start, .startTornDown, .permission true, .stream true, .chunk 0 [1, 2], .chunk 0 [3, 4],
        .stop, .autoStopped, .chunk 0 [5], .done 0, .drained 0, .subscriptionClosed 0, .start, .start,
        .startTornDown, .permission true, .stream true, .chunk 1 [6], .cancel, .cancelTornDown,
        .pluginCancelled] :=
  takes_isolated 4 _ (by decide)

/-- A stop comes while the start asks for the permission: the microphone stays on. -/
theorem stopped_start :
    ¬Along (step 4194304) Isolated Service.init
      [.start, .startTornDown, .stop, .permission true, .stream true] := by
  intro h
  have hstop := (h _ rfl).2 _ rfl |>.2 _ rfl |>.2
  have hmic := (hstop _ rfl).2 _ rfl |>.1.settled rfl rfl (.inl rfl)
  cases hmic

end Apm.Recording.Takes
