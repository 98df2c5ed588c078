import Mathlib.Algebra.Order.Group.Defs
import Mathlib.Algebra.Order.Group.Unbundled.Basic
import Mathlib.Algebra.Order.Ring.Int

/-!
# The fallback chain of LLM providers

`stream_complete` tries each provider in order and leaves one only before its first chunk: when
it fails, or when the deadline that all attempts share comes first. A provider is a timed stream
of chunks; the clock is monotone, so a duration is never negative.
-/

namespace Apm.Llm.Fallback

set_option autoImplicit false

/-- What a provider raises. -/
inductive ProviderError where
  | timeoutError
  | other (className : String)
deriving DecidableEq, Repr

abbrev Duration (T : Type) [Zero T] [LE T] := {d : T // 0 ≤ d}

/-- The steps of a provider's stream, each with how long it takes. -/
inductive TimedStream (T : Type) [Zero T] [LE T] where
  | chunk (took : Duration T) (text : String) (rest : TimedStream T)
  | ends (took : Duration T)
  | fails (took : Duration T) (e : ProviderError)

/-- A provider in one call of the chain. -/
structure Provider (T : Type) [Zero T] [LE T] where
  /-- how much later the clock is read for its attempt, once the one before is left -/
  delay : Duration T
  stream : TimedStream T

/-- What `last_error` holds. -/
inductive AttemptError (T : Type) where
  | raised (e : ProviderError)
  /-- `LLM provider timed out after {remaining:.1f}s before its first chunk` -/
  | timedOut (remaining : T)
  /-- `Fallback deadline exceeded before every provider was tried` -/
  | deadlineExceeded
deriving DecidableEq, Repr

inductive ChainError (T : Type) where
  /-- the provider's own exception, raised again -/
  | provider (e : ProviderError)
  /-- `LlmProviderError`: `All LLM providers failed` -/
  | allFailed (cause : Option (AttemptError T))
deriving DecidableEq, Repr

/-- How the attempt at one provider is left. -/
inductive Attempt (T : Type) where
  | finished (emitted : List String)
  | raised (emitted : List String) (e : ProviderError)
  | failed (spent : T) (e : AttemptError T)
deriving DecidableEq, Repr

/-- What the consumer of the chain gets. -/
structure Reply (T : Type) where
  emitted : List String
  raised : Option (ChainError T)
deriving DecidableEq, Repr

variable {T : Type} [AddCommGroup T] [LinearOrder T]

/-- `asyncio.wait_for` raises `TimeoutError`: it is only there before the first chunk. -/
def timesOut (remaining : T) (emitted : Bool) (took : Duration T) : Bool :=
  !emitted && decide (remaining < took)

/-- The `while True` loop over one provider, with the flag `emitted`. -/
def pump (remaining : T) : Bool → List String → TimedStream T → Attempt T
  | emitted, chunks, .chunk took text rest =>
    if timesOut remaining emitted took then .failed remaining (.timedOut remaining)
    else pump remaining true (chunks ++ [text]) rest
  | emitted, chunks, .ends took =>
    if timesOut remaining emitted took then .failed remaining (.timedOut remaining)
    else .finished chunks
  | emitted, chunks, .fails took e =>
    if timesOut remaining emitted took then .failed remaining (.timedOut remaining)
    else if emitted then .raised chunks e
    -- a `TimeoutError` of the provider's own is caught with that of `wait_for`
    else .failed took (if e = .timeoutError then .timedOut remaining else .raised e)

/-- The loop over the providers. -/
def tryProviders (deadline : T) : T → Option (AttemptError T) → List (Provider T) → Reply T
  | _, lastError, [] => ⟨[], some (.allFailed lastError)⟩
  | clock, lastError, provider :: rest =>
    let now := clock + provider.delay
    let remaining := deadline - now
    if remaining ≤ 0 then ⟨[], some (.allFailed (lastError.or (some .deadlineExceeded)))⟩
    else
      match pump remaining false [] provider.stream with
      | .finished chunks => ⟨chunks, none⟩
      | .raised chunks e => ⟨chunks, some (.provider e)⟩
      | .failed spent e => tryProviders deadline (now + spent) (some e) rest

/-- `FallbackLlmProvider.stream_complete` -/
def streamComplete (deadlineSeconds now : T) (providers : List (Provider T)) : Reply T :=
  tryProviders (now + deadlineSeconds) now none providers

/-! ## One provider -/

namespace TimedStream

def chunks : TimedStream T → List String
  | .chunk _ text rest => text :: rest.chunks
  | .ends _ | .fails _ _ => []

/-- The error that the stream ends in, if it does. -/
def error : TimedStream T → Option ProviderError
  | .chunk _ _ rest => rest.error
  | .ends _ => none
  | .fails _ e => some e

/-- How long the first step takes. -/
def first : TimedStream T → Duration T
  | .chunk took _ _ | .ends took | .fails took _ => took

/-- The first step is a chunk or the end. -/
def opens : TimedStream T → Prop
  | .chunk _ _ _ | .ends _ => True
  | .fails _ _ => False

/-- The whole stream, behind what was emitted. -/
def attempt (emitted : List String) (stream : TimedStream T) : Attempt T :=
  stream.error.elim (.finished (emitted ++ stream.chunks)) (.raised (emitted ++ stream.chunks))

end TimedStream

open TimedStream

theorem timesOut_emitted (remaining : T) (took : Duration T) :
    timesOut remaining true took = false := rfl

theorem timesOut_waiting (remaining : T) (took : Duration T) :
    timesOut remaining false took = true ↔ remaining < took := by
  rw [timesOut, Bool.not_false, Bool.true_and, decide_eq_true_iff]

theorem attempt_chunk (emitted : List String) (took : Duration T) (text : String)
    (rest : TimedStream T) :
    attempt emitted (.chunk took text rest) = attempt (emitted ++ [text]) rest := by
  rw [attempt, attempt, chunks, error, List.append_assoc, List.singleton_append]

/-- After its first chunk nothing but the provider itself ends its stream. -/
theorem pump_emitted (remaining : T) (emitted : List String) (stream : TimedStream T) :
    pump remaining true emitted stream = attempt emitted stream := by
  induction stream generalizing emitted with
  | chunk took text rest ih =>
    rw [pump, timesOut_emitted, if_neg Bool.false_ne_true, ih, attempt_chunk]
  | ends took =>
    rw [pump, timesOut_emitted, if_neg Bool.false_ne_true]
    simp [attempt, chunks, error]
  | fails took e =>
    rw [pump, timesOut_emitted, if_neg Bool.false_ne_true, if_pos rfl]
    simp [attempt, chunks, error]

/-- A first step in time is no failure: the stream is this provider's. -/
theorem pump_opens {remaining : T} {stream : TimedStream T} (hopens : stream.opens)
    (htime : stream.first ≤ remaining) : pump remaining false [] stream = attempt [] stream := by
  have htimely : ¬ timesOut remaining false stream.first = true := by
    rw [timesOut_waiting]
    exact htime.not_gt
  cases stream with
  | chunk took text rest =>
    rw [pump, attempt_chunk, ← pump_emitted remaining]
    exact if_neg htimely
  | ends took =>
    rw [pump]
    exact if_neg htimely
  | fails took e => exact hopens.elim

theorem pump_late {remaining : T} {stream : TimedStream T} (h : remaining < stream.first) :
    pump remaining false [] stream = .failed remaining (.timedOut remaining) := by
  have hlate := (timesOut_waiting remaining stream.first).mpr h
  cases stream <;> rw [pump] <;> exact if_pos hlate

/-- Any other first step leaves the provider, with nothing emitted, no later than the deadline. -/
theorem pump_leaves {remaining : T} {stream : TimedStream T}
    (h : ¬ (stream.opens ∧ (stream.first : T) ≤ remaining)) :
    ∃ e, pump remaining false [] stream = .failed (min (stream.first : T) remaining) e := by
  by_cases htime : (stream.first : T) ≤ remaining
  · have htimely : ¬ timesOut remaining false stream.first = true := by
      rw [timesOut_waiting]
      exact htime.not_gt
    rw [min_eq_left htime]
    cases stream with
    | chunk took text rest => exact absurd ⟨trivial, htime⟩ h
    | ends took => exact absurd ⟨trivial, htime⟩ h
    | fails took e =>
      rw [pump]
      exact ⟨_, if_neg htimely⟩
  · have hlate := not_le.mp htime
    exact ⟨_, by rw [min_eq_right hlate.le, pump_late hlate]⟩

/-! ## The providers in order -/

/-- A provider's stream, and when its turn comes. -/
structure Turn (T : Type) [Zero T] [LE T] where
  start : T
  stream : TimedStream T

/-- The turns, each after the failure of the one before: a provider is left at its first step,
at the deadline at the latest, and not waited for where its turn comes after the deadline. -/
def turns (deadline : T) : T → List (Provider T) → List (Turn T)
  | _, [] => []
  | clock, provider :: rest =>
    let start := clock + provider.delay
    ⟨start, provider.stream⟩ ::
      turns deadline (max start (min (start + provider.stream.first) deadline)) rest

/-- The provider emits a chunk or ends cleanly before the deadline. -/
def Qualifies (deadline : T) (turn : Turn T) : Prop :=
  turn.stream.opens ∧ turn.start < deadline ∧ turn.start + turn.stream.first ≤ deadline

/-- The reply is that of the first turn that qualifies, whole and with its own error. -/
def RepliesFirst (deadline : T) (turns : List (Turn T)) (reply : Reply T) : Prop :=
  ∃ before turn after, turns = before ++ turn :: after ∧
    (∀ earlier ∈ before, ¬ Qualifies deadline earlier) ∧ Qualifies deadline turn ∧
    reply.emitted = turn.stream.chunks ∧ reply.raised = turn.stream.error.map .provider

/-- No turn qualifies: nothing is emitted, and `LlmProviderError` is raised. -/
def RepliesNone (deadline : T) (turns : List (Turn T)) (reply : Reply T) : Prop :=
  (∀ turn ∈ turns, ¬ Qualifies deadline turn) ∧ reply.emitted = [] ∧
    ∃ cause, reply.raised = some (.allFailed cause)

/-- A turn that does not qualify makes no difference to the reply. -/
theorem replies_cons {deadline : T} {turn : Turn T} {rest : List (Turn T)} {reply : Reply T}
    (hturn : ¬ Qualifies deadline turn)
    (h : RepliesFirst deadline rest reply ∨ RepliesNone deadline rest reply) :
    RepliesFirst deadline (turn :: rest) reply ∨ RepliesNone deadline (turn :: rest) reply := by
  obtain ⟨before, answering, after, hrest, hbefore, hanswer⟩ | ⟨hnone, hreply⟩ := h
  · refine .inl ⟨turn :: before, answering, after, by rw [hrest]; rfl, ?_, hanswer⟩
    exact List.forall_mem_cons.mpr ⟨hturn, hbefore⟩
  · exact .inr ⟨List.forall_mem_cons.mpr ⟨hturn, hnone⟩, hreply⟩

variable [IsOrderedAddMonoid T]

/-- Once the deadline is spent it stays so. -/
theorem not_qualifies_of_spent {deadline clock : T} (h : deadline ≤ clock)
    (providers : List (Provider T)) : ∀ turn ∈ turns deadline clock providers,
      ¬ Qualifies deadline turn := by
  induction providers generalizing clock with
  | nil => exact fun turn hturn => absurd hturn List.not_mem_nil
  | cons provider rest ih =>
    have hstart : deadline ≤ clock + provider.delay := le_add_of_le_of_nonneg h provider.delay.2
    intro turn hturn
    rw [turns, List.mem_cons] at hturn
    obtain rfl | hturn := hturn
    · exact fun hq => hq.2.1.not_ge hstart
    · exact ih (hstart.trans (le_max_left _ _)) turn hturn

theorem tryProviders_replies (deadline clock : T) (lastError : Option (AttemptError T))
    (providers : List (Provider T)) :
    RepliesFirst deadline (turns deadline clock providers)
        (tryProviders deadline clock lastError providers) ∨
      RepliesNone deadline (turns deadline clock providers)
        (tryProviders deadline clock lastError providers) := by
  induction providers generalizing clock lastError with
  | nil => exact .inr ⟨fun turn hturn => absurd hturn List.not_mem_nil, rfl, _, rfl⟩
  | cons provider rest ih =>
    by_cases hspent : deadline - (clock + provider.delay) ≤ 0
    · have hlate := sub_nonpos.mp hspent
      rw [tryProviders, if_pos hspent, turns]
      refine .inr ⟨List.forall_mem_cons.mpr ⟨fun hq => hq.2.1.not_ge hlate, ?_⟩, rfl, _, rfl⟩
      exact not_qualifies_of_spent (hlate.trans (le_max_left _ _)) rest
    have hstart : clock + provider.delay < deadline := by rwa [sub_nonpos, not_le] at hspent
    rw [tryProviders, if_neg hspent, turns]
    by_cases hq : provider.stream.opens ∧
        (provider.stream.first : T) ≤ deadline - (clock + provider.delay)
    · -- this provider's stream is the reply
      rw [pump_opens hq.1 hq.2, attempt, List.nil_append]
      refine .inl ⟨[], _, _, rfl, fun turn hturn => absurd hturn List.not_mem_nil,
        ⟨hq.1, hstart, le_sub_iff_add_le'.mp hq.2⟩, ?_⟩
      cases provider.stream.error with
      | none => exact ⟨rfl, rfl⟩
      | some e => exact ⟨rfl, rfl⟩
    · -- it is left at its first step or at the deadline, and the next one has its turn
      obtain ⟨e, hpump⟩ := pump_leaves hq
      have hclock : clock + provider.delay +
          min (provider.stream.first : T) (deadline - (clock + provider.delay)) =
          max (clock + provider.delay)
            (min (clock + provider.delay + provider.stream.first) deadline) := by
        rw [← min_add_add_left, add_sub_cancel, max_eq_right]
        exact le_min (le_add_of_nonneg_right provider.stream.first.2) hstart.le
      rw [hpump]
      show RepliesFirst _ _ (tryProviders deadline _ (some e) rest) ∨
        RepliesNone _ _ (tryProviders deadline _ (some e) rest)
      rw [hclock]
      refine replies_cons (fun hqualifies => hq ⟨hqualifies.1, ?_⟩) (ih _ _)
      exact le_sub_iff_add_le'.mpr hqualifies.2.2

/-- A reply is never mixed: it is that of one provider, the first that answers in time. -/
theorem streamComplete_unmixed (deadlineSeconds now : T) (providers : List (Provider T)) :
    RepliesFirst (now + deadlineSeconds) (turns (now + deadlineSeconds) now providers)
        (streamComplete deadlineSeconds now providers) ∨
      RepliesNone (now + deadlineSeconds) (turns (now + deadlineSeconds) now providers)
        (streamComplete deadlineSeconds now providers) :=
  tryProviders_replies _ _ _ _

/-- The first provider is refused after 9 of the 15 seconds; the second speaks at the deadline,
goes on past it and breaks off. -/
def refusedThenCut : List (Provider ℤ) :=
  [⟨⟨0, by decide⟩, .fails ⟨9, by decide⟩ (.other "RateLimitError")⟩,
    ⟨⟨1, by decide⟩, .chunk ⟨5, by decide⟩ "Well," (.chunk ⟨30, by decide⟩ "yes."
      (.fails ⟨1, by decide⟩ (.other "ReadError")))⟩,
    ⟨⟨0, by decide⟩, .chunk ⟨1, by decide⟩ "No." (.ends ⟨0, by decide⟩)⟩]

theorem streamComplete_unmixed_cut :
    (RepliesFirst (100 + 15) (turns (100 + 15) 100 refusedThenCut)
        (streamComplete 15 100 refusedThenCut) ∨
      RepliesNone (100 + 15) (turns (100 + 15) 100 refusedThenCut)
        (streamComplete 15 100 refusedThenCut)) ∧
      streamComplete 15 100 refusedThenCut =
        ⟨["Well,", "yes."], some (.provider (.other "ReadError"))⟩ :=
  ⟨streamComplete_unmixed 15 100 refusedThenCut, by decide⟩

end Apm.Llm.Fallback
