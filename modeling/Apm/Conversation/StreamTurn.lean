import Apm.Conversation.TurnService
import Apm.Lib.Future
import Apm.Lib.Lines

/-!
# A streamed turn, statement by statement

`stream_prepared` with its handlers: each sentence is yielded, then the clip of the one before,
while its own is synthesized; what was heard is persisted whether the LLM ends or fails. The
trace has what the stream yields, its writes and its calls of `on_persisted`, in their order.
-/

namespace Apm.Conversation.StreamTurn

open Apm.Lib

set_option autoImplicit false

/-- Whose exception it is. -/
inductive Raised where
  | llm
  | persistence
  | callback
  | corrector

inductive StreamEvent where
  | yielded (event : TurnStreamEvent)
  | persisted (reply : String)
  | onPersisted (reply : String)

/-- A sentence of the LLM, with what `synthesize` returns for it, or none where it raises. -/
structure Sentence where
  text : String
  synthesis : Option (List UInt8)

/-- What the collaborators answer during one stream. -/
structure Outside where
  sentences : List Sentence
  /-- how the stream of the LLM ends behind them -/
  llm : Except Raised Unit
  /-- whether there is a server-side voice -/
  tts : Bool
  corrector : Option (Except Raised (Option TurnCorrection))
  onPersisted : Option (Except Raised Unit)

/-- The trace, and the variables of the generator. A future is what it completes with. -/
structure Locals where
  trace : List StreamEvent
  parts : List String
  pendingAudio : Option (List UInt8)
  correctionTask : Option (Except Raised (Option TurnCorrection))

abbrev Stream := Future Raised Locals

def record (event : StreamEvent) : Stream PUnit :=
  modify fun s => { s with trace := s.trace ++ [event] }

/-- `_start_synthesis` with `_synthesize_quietly`: a failure is empty audio. -/
def startSynthesis (o : Outside) (sentence : Sentence) : Option (List UInt8) :=
  if o.tts then some (sentence.synthesis.getD []) else none

/-- `_drain_audio` -/
def drainAudio (pending : Option (List UInt8)) : Stream PUnit :=
  match pending with
  | none => pure ()
  | some audio =>
    if audio = [] then pure () else record (.yielded (.audioChunk audio "audio/mpeg"))

/-- The body of the loop over the sentences. -/
def receiveSentence (o : Outside) (sentence : Sentence) : Stream PUnit := do
  modify fun s => { s with parts := s.parts ++ [sentence.text] }
  record (.yielded (.replyChunk sentence.text))
  drainAudio (← get).pendingAudio
  modify fun s => { s with pendingAudio := startSynthesis o sentence }
  modify fun s => { s with correctionTask := s.correctionTask.or o.corrector }

def streamSentences (o : Outside) : Stream PUnit := do
  for sentence in o.sentences do
    receiveSentence o sentence
  liftExcept o.llm
  drainAudio (← get).pendingAudio
  modify fun s => { s with pendingAudio := none }

/-- The unit of work around `_persist`. -/
def persist (persistence : Except Raised Unit) (reply : String) : Stream PUnit := do
  liftExcept persistence
  record (.persisted reply)

def notify (o : Outside) (reply : String) : Stream PUnit :=
  match o.onPersisted with
  | none => pure ()
  | some answer => do
    record (.onPersisted reply)
    liftExcept answer

/-- The handler of the loop: what was heard is persisted, and the exception raised again. -/
def failTurn (o : Outside) (persistence : Except Raised Unit) (e : Raised) : Stream PUnit := do
  let parts := (← get).parts
  if parts ≠ [] then
    persist persistence (" ".intercalate parts)
    notify o (" ".intercalate parts)
  throw e

def emitCorrection : Stream PUnit := do
  match (← get).correctionTask with
  | none => pure ()
  | some task =>
    match ← liftExcept task with
    | none => pure ()
    | some correction => record (.yielded (.correctionReady correction))

/-- What follows the loop. -/
def finishTurn (o : Outside) (persistence : Except Raised Unit) : Stream PUnit := do
  let reply := " ".intercalate (← get).parts
  -- a failure of the write is only logged, and nothing is acknowledged
  let saved ← tryCatch (do persist persistence reply; pure true) fun _ => pure false
  if saved then notify o reply
  emitCorrection

def streamPrepared (o : Outside) (persistence : Except Raised Unit) : Stream PUnit :=
  tryFinally
    (do
      tryCatch (streamSentences o) (failTurn o persistence)
      finishTurn o persistence)
    -- the tasks that still run are cancelled
    (modify fun s => { s with pendingAudio := none, correctionTask := none })

/-- The stream, drained by its consumer. -/
def run (o : Outside) (persistence : Except Raised Unit) : Except Raised PUnit × Locals :=
  (streamPrepared o persistence).exec ⟨[], [], none, none⟩

/-! ## What each part adds to the trace -/

def clipEvents (pending : Option (List UInt8)) : List StreamEvent :=
  (Apm.Conversation.drainAudio pending).map .yielded

theorem exec_record (event : StreamEvent) (s : Locals) :
    (record event).exec s = (.ok ⟨⟩, { s with trace := s.trace ++ [event] }) :=
  Future.exec_modify s _

theorem exec_drainAudio (pending : Option (List UInt8)) (s : Locals) :
    (drainAudio pending).exec s = (.ok ⟨⟩, { s with trace := s.trace ++ clipEvents pending }) := by
  cases pending with
  | none => simp [drainAudio, clipEvents, Apm.Conversation.drainAudio]
  | some audio =>
    rw [drainAudio, clipEvents, Apm.Conversation.drainAudio]
    split_ifs
    · simp
    · exact exec_record _ s

/-- The variables after one sentence. -/
def received (o : Outside) (sentence : Sentence) (s : Locals) : Locals where
  trace := s.trace ++ .yielded (.replyChunk sentence.text) :: clipEvents s.pendingAudio
  parts := s.parts ++ [sentence.text]
  pendingAudio := startSynthesis o sentence
  correctionTask := s.correctionTask.or o.corrector

theorem exec_receiveSentence (o : Outside) (sentence : Sentence) (s : Locals) :
    (receiveSentence o sentence).exec s = (.ok ⟨⟩, received o sentence s) := by
  simp only [receiveSentence, Future.exec_bind, Future.exec_modify, Future.after_ok, exec_record,
    Future.exec_get, exec_drainAudio, received, List.append_assoc, List.singleton_append]

/-- The loop: each chunk, then the clip of the sentence before. -/
def spokenFrom (o : Outside) : Option (List UInt8) → List Sentence → List StreamEvent
  | _, [] => []
  | pending, sentence :: rest =>
    .yielded (.replyChunk sentence.text) ::
      (clipEvents pending ++ spokenFrom o (startSynthesis o sentence) rest)

/-- The synthesis that runs when the loop ends. -/
def lastSynthesis (o : Outside) (pending : Option (List UInt8)) :
    List Sentence → Option (List UInt8)
  | [] => pending
  | sentence :: rest => lastSynthesis o (startSynthesis o sentence) rest

theorem foldl_received (o : Outside) (sentences : List Sentence) (s : Locals) :
    sentences.foldl (fun t sentence => received o sentence t) s =
      { trace := s.trace ++ spokenFrom o s.pendingAudio sentences
        parts := s.parts ++ sentences.map Sentence.text
        pendingAudio := lastSynthesis o s.pendingAudio sentences
        correctionTask := if sentences = [] then s.correctionTask
          else s.correctionTask.or o.corrector } := by
  induction sentences generalizing s with
  | nil => simp [spokenFrom, lastSynthesis]
  | cons sentence rest ih =>
    rw [List.foldl_cons, ih]
    simp only [received, spokenFrom, lastSynthesis, List.append_assoc, List.cons_append,
      List.map_cons, List.nil_append, Option.or_assoc, Option.or_self, ite_self, reduceCtorEq,
      if_false]

/-- The reply that the sentences make. -/
def replyOf (o : Outside) : String := " ".intercalate (o.sentences.map Sentence.text)

/-- The variables when the loop has seen every sentence. -/
def heard (o : Outside) : Locals where
  trace := spokenFrom o none o.sentences
  parts := o.sentences.map Sentence.text
  pendingAudio := lastSynthesis o none o.sentences
  correctionTask := if o.sentences = [] then none else o.corrector

/-- The variables behind the loop, when the LLM ends. -/
def heardAll (o : Outside) : Locals :=
  { heard o with
    trace := (heard o).trace ++ clipEvents (heard o).pendingAudio
    pendingAudio := none }

theorem exec_streamSentences (o : Outside) :
    (streamSentences o).exec ⟨[], [], none, none⟩ =
      match o.llm with
      | .error e => (.error e, heard o)
      | .ok _ => (.ok ⟨⟩, heardAll o) := by
  have hloop : (forIn o.sentences PUnit.unit fun sentence _ => do
        receiveSentence o sentence
        pure (.yield PUnit.unit) : Stream PUnit).exec ⟨[], [], none, none⟩ =
      (.ok ⟨⟩, heard o) := by
    rw [Future.exec_forIn_total _ (exec_receiveSentence o), foldl_received]
    simp only [heard, List.nil_append, Option.none_or]
  rw [streamSentences, Future.exec_bind, hloop, Future.after_ok, Future.exec_bind,
    Future.exec_liftExcept]
  cases o.llm with
  | error e => rfl
  | ok u =>
    simp only [Future.after_ok, Future.exec_bind, Future.exec_get, exec_drainAudio,
      Future.exec_modify, heardAll]

/-- The call of `on_persisted`, where there is one. -/
def acknowledgement (o : Outside) : List StreamEvent :=
  if o.onPersisted.isSome then [.onPersisted (replyOf o)] else []

theorem exec_notify (o : Outside) (s : Locals) :
    (notify o (replyOf o)).exec s =
      (o.onPersisted.getD (.ok ()), { s with trace := s.trace ++ acknowledgement o }) := by
  rw [notify, acknowledgement]
  cases o.onPersisted with
  | none => simp
  | some answer =>
    simp only [Future.exec_bind, exec_record, Future.after_ok, Future.exec_liftExcept,
      Option.getD_some, Option.isSome_some, if_true]

theorem exec_persist (reply : String) (s : Locals) :
    (persist (.ok ()) reply).exec s =
      (.ok ⟨⟩, { s with trace := s.trace ++ [.persisted reply] }) := by
  simp only [persist, Future.exec_bind, Future.exec_liftExcept, Future.after_ok, exec_record]

/-- At most one event is left for the end: the correction. -/
def IsCorrectionTail (tail : List StreamEvent) : Prop :=
  tail = [] ∨ ∃ correction, tail = [.yielded (.correctionReady correction)]

theorem exec_emitCorrection (s : Locals) :
    ∃ ended tail, emitCorrection.exec s = (ended, { s with trace := s.trace ++ tail }) ∧
      IsCorrectionTail tail := by
  obtain ⟨trace, parts, pending, task⟩ := s
  rw [emitCorrection, Future.exec_bind, Future.exec_get, Future.after_ok]
  cases task with
  | none => exact ⟨.ok ⟨⟩, [], by simp, .inl rfl⟩
  | some task =>
    cases task with
    | error e => exact ⟨.error e, [], by simp, .inl rfl⟩
    | ok answer =>
      cases answer with
      | none => exact ⟨.ok ⟨⟩, [], by simp, .inl rfl⟩
      | some correction =>
        refine ⟨.ok ⟨⟩, [.yielded (.correctionReady correction)], ?_, .inr ⟨correction, rfl⟩⟩
        simp [exec_record]

/-- The write and the acknowledgement of the reply. -/
def saved (o : Outside) : List StreamEvent := .persisted (replyOf o) :: acknowledgement o

/-- After the loop the whole reply is persisted and acknowledged. -/
theorem exec_finishTurn (o : Outside) (s : Locals)
    (hparts : s.parts = o.sentences.map Sentence.text) :
    (finishTurn o (.ok ())).exec s = Future.after
      (o.onPersisted.getD (.ok ()), { s with trace := s.trace ++ saved o })
      fun _ => emitCorrection := by
  have hreply : " ".intercalate s.parts = replyOf o := by rw [hparts, replyOf]
  simp only [finishTurn, Future.exec_bind, Future.exec_get, Future.after_ok, Future.exec_tryCatch,
    exec_persist, Future.exec_pure, Future.handled_ok, if_true, hreply, exec_notify, saved,
    List.append_assoc, List.singleton_append]

/-- Then comes the correction, unless the acknowledgement raises. -/
theorem exec_finishTurn_tail (o : Outside) (s : Locals)
    (hparts : s.parts = o.sentences.map Sentence.text) :
    ∃ ended tail, (finishTurn o (.ok ())).exec s =
      (ended, { s with trace := s.trace ++ (saved o ++ tail) }) ∧ IsCorrectionTail tail := by
  rw [exec_finishTurn o s hparts]
  cases o.onPersisted.getD (.ok ()) with
  | error e => exact ⟨.error e, [], by rw [Future.after_error, List.append_nil], .inl rfl⟩
  | ok u =>
    obtain ⟨ended, tail, hrun, htail⟩ := exec_emitCorrection
      { s with trace := s.trace ++ saved o }
    exact ⟨ended, tail, by rw [Future.after_ok, hrun, List.append_assoc], htail⟩

/-- What was heard is persisted and acknowledged, unless nothing was, and the exception goes on. -/
theorem exec_failTurn (o : Outside) (e : Raised) (s : Locals)
    (hparts : s.parts = o.sentences.map Sentence.text) :
    ∃ e', (failTurn o (.ok ()) e).exec s = (.error e', { s with
        trace := s.trace ++ if o.sentences = [] then [] else saved o }) ∧
      ((∀ thrown, o.onPersisted ≠ some (.error thrown)) → e' = e) := by
  have hreply : " ".intercalate s.parts = replyOf o := by rw [hparts, replyOf]
  have hheard : s.parts = [] ↔ o.sentences = [] := by rw [hparts, List.map_eq_nil_iff]
  simp only [failTurn, Future.exec_bind, Future.exec_get, Future.after_ok, ne_eq, hheard]
  by_cases hempty : o.sentences = []
  · simp only [hempty, not_true_eq_false, if_false, if_true, List.append_nil, Future.exec_throw]
    exact ⟨e, rfl, fun _ => rfl⟩
  · simp only [hempty, not_false_eq_true, if_true, if_false, Future.exec_bind, exec_persist,
      Future.after_ok, hreply, exec_notify]
    cases hcallback : o.onPersisted with
    | none => exact ⟨e, by simp [saved], fun _ => rfl⟩
    | some answer =>
      cases answer with
      | error thrown => exact ⟨thrown, by simp [saved], fun h => absurd rfl (h thrown)⟩
      | ok u => exact ⟨e, by simp [saved], fun _ => rfl⟩

/-- The `finally` shows nothing. -/
theorem run_eq (o : Outside) (persistence : Except Raised Unit) :
    let ended := Future.after (Future.handled ((streamSentences o).exec ⟨[], [], none, none⟩)
      (failTurn o persistence)) (fun _ => finishTurn o persistence)
    (run o persistence).1 = ended.1 ∧ (run o persistence).2.trace = ended.2.trace := by
  rw [run, streamPrepared, Future.exec_tryFinally, Future.exec_bind, Future.exec_tryCatch]
  exact ⟨rfl, rfl⟩

section run
variable {o : Outside} {persistence : Except Raised Unit} {e e' : Raised}
variable {ended : Except Raised PUnit} {s : Locals}

theorem run_eq_finished (hllm : o.llm = .ok ())
    (hfinish : (finishTurn o persistence).exec (heardAll o) = (ended, s)) :
    (run o persistence).1 = ended ∧ (run o persistence).2.trace = s.trace := by
  obtain ⟨hended, htrace⟩ := run_eq o persistence
  rw [exec_streamSentences, hllm] at hended htrace
  simp only [Future.handled_ok, Future.after_ok, hfinish] at hended htrace
  exact ⟨hended, htrace⟩

theorem run_eq_failed (hllm : o.llm = .error e)
    (hfail : (failTurn o persistence e).exec (heard o) = (.error e', s)) :
    (run o persistence).1 = .error e' ∧ (run o persistence).2.trace = s.trace := by
  obtain ⟨hended, htrace⟩ := run_eq o persistence
  rw [exec_streamSentences, hllm] at hended htrace
  simp only [Future.handled_error, hfail, Future.after_error] at hended htrace
  exact ⟨hended, htrace⟩

end run

theorem run_finished (o : Outside) (hllm : o.llm = .ok ()) :
    ∃ tail, IsCorrectionTail tail ∧ (run o (.ok ())).2.trace =
      (heard o).trace ++ clipEvents (heard o).pendingAudio ++ (saved o ++ tail) := by
  obtain ⟨ended, tail, hfinish, htail⟩ := exec_finishTurn_tail o (heardAll o) rfl
  exact ⟨tail, htail, (run_eq_finished hllm hfinish).2⟩

theorem run_failed (o : Outside) {e : Raised} (hllm : o.llm = .error e) :
    (run o (.ok ())).2.trace = (heard o).trace ++ (if o.sentences = [] then [] else saved o) ∧
      ((∀ thrown, o.onPersisted ≠ some (.error thrown)) → (run o (.ok ())).1 = .error e) := by
  obtain ⟨e', hfail, he⟩ := exec_failTurn o e (heard o) rfl
  obtain ⟨hended, htrace⟩ := run_eq_failed hllm hfail
  exact ⟨htrace, fun h => by rw [hended, he h]⟩

/-! ## What the trace shows -/

def chunkOf : StreamEvent → Option String
  | .yielded (.replyChunk text) => some text
  | _ => none

def clipOf : StreamEvent → Option (List UInt8)
  | .yielded (.audioChunk audio _) => some audio
  | _ => none

def correctionOf : StreamEvent → Option TurnCorrection
  | .yielded (.correctionReady correction) => some correction
  | _ => none

def persistedOf : StreamEvent → Option String
  | .persisted reply => some reply
  | _ => none

def onPersistedOf : StreamEvent → Option String
  | .onPersisted reply => some reply
  | _ => none

/-- A synthesis that is not empty. -/
def audible (pending : Option (List UInt8)) : Option (List UInt8) := pending.filter (· ≠ [])

/-- The clips of the sentences that have one. -/
def clips (o : Outside) (sentences : List Sentence) : List (List UInt8) :=
  sentences.filterMap fun sentence => audible (startSynthesis o sentence)

theorem clips_cons (o : Outside) (sentence : Sentence) (rest : List Sentence) :
    clips o (sentence :: rest) =
      (audible (startSynthesis o sentence)).toList ++ clips o rest := by
  rw [clips, List.filterMap_cons, clips]
  cases audible (startSynthesis o sentence) <;> rfl

theorem clips_mono (o : Outside) {sentences more : List Sentence} (h : sentences <+: more) :
    clips o sentences <+: clips o more := h.filterMap _

theorem clipEvents_eq (pending : Option (List UInt8)) :
    clipEvents pending =
      (audible pending).toList.map fun audio => .yielded (.audioChunk audio "audio/mpeg") := by
  cases pending with
  | none => rfl
  | some audio =>
    by_cases h : audio = [] <;>
      simp [clipEvents, audible, Apm.Conversation.drainAudio, h, Option.filter]

theorem clipOf_clipEvents (pending : Option (List UInt8)) :
    (clipEvents pending).filterMap clipOf = (audible pending).toList := by
  rw [clipEvents_eq]
  cases audible pending <;> rfl

theorem chunkOf_clipEvents (pending : Option (List UInt8)) :
    (clipEvents pending).filterMap chunkOf = [] := by
  rw [clipEvents_eq]
  cases audible pending <;> rfl

/-- What the loop yields is a chunk or a clip. -/
def Spoken (event : StreamEvent) : Prop :=
  correctionOf event = none ∧ persistedOf event = none ∧ onPersistedOf event = none

theorem spoken_clipEvents {pending : Option (List UInt8)} {event : StreamEvent}
    (h : event ∈ clipEvents pending) : Spoken event := by
  rw [clipEvents_eq] at h
  obtain ⟨audio, -, rfl⟩ := List.mem_map.mp h
  exact ⟨rfl, rfl, rfl⟩

theorem spoken_spokenFrom {o : Outside} {pending : Option (List UInt8)} {sentences : List Sentence}
    {event : StreamEvent} (h : event ∈ spokenFrom o pending sentences) : Spoken event := by
  induction sentences generalizing pending with
  | nil => cases h
  | cons sentence rest ih =>
    obtain rfl | h := List.mem_cons.mp h
    · exact ⟨rfl, rfl, rfl⟩
    · exact (List.mem_append.mp h).elim spoken_clipEvents ih

theorem chunkOf_cons (text : String) (rest : List StreamEvent) :
    (StreamEvent.yielded (.replyChunk text) :: rest).filterMap chunkOf =
      text :: rest.filterMap chunkOf := rfl

theorem clipOf_cons (text : String) (rest : List StreamEvent) :
    (StreamEvent.yielded (.replyChunk text) :: rest).filterMap clipOf = rest.filterMap clipOf := rfl

theorem chunkOf_spokenFrom (o : Outside) (pending : Option (List UInt8))
    (sentences : List Sentence) :
    (spokenFrom o pending sentences).filterMap chunkOf = sentences.map Sentence.text := by
  induction sentences generalizing pending with
  | nil => rfl
  | cons sentence rest ih =>
    rw [spokenFrom, chunkOf_cons, List.filterMap_append, chunkOf_clipEvents, List.nil_append, ih,
      List.map_cons]

/-- The clip of the last sentence is left for the end of the loop. -/
theorem clipOf_spokenFrom (o : Outside) (pending : Option (List UInt8))
    (sentences : List Sentence) :
    (spokenFrom o pending sentences).filterMap clipOf ++
        (audible (lastSynthesis o pending sentences)).toList =
      (audible pending).toList ++ clips o sentences := by
  induction sentences generalizing pending with
  | nil => simp [spokenFrom, lastSynthesis, clips]
  | cons sentence rest ih =>
    rw [spokenFrom, clipOf_cons, List.filterMap_append, clipOf_clipEvents, lastSynthesis,
      List.append_assoc, ih, clips_cons]

theorem lastSynthesis_concat (o : Outside) (pending : Option (List UInt8))
    (sentences : List Sentence) (last : Sentence) :
    lastSynthesis o pending (sentences ++ [last]) = startSynthesis o last := by
  induction sentences generalizing pending with
  | nil => rfl
  | cons sentence rest ih => exact ih (startSynthesis o sentence)

theorem clipOf_spokenFrom_dropLast (o : Outside) (sentences : List Sentence) :
    (spokenFrom o none sentences).filterMap clipOf = clips o sentences.dropLast := by
  cases sentences using List.reverseRecOn with
  | nil => rfl
  | append_singleton sentences last =>
    have hclips := clipOf_spokenFrom o none (sentences ++ [last])
    have hlast : clips o (sentences ++ [last]) =
        clips o sentences ++ (audible (startSynthesis o last)).toList := by
      rw [clips, List.filterMap_append, ← clips, ← clips, clips_cons]
      exact congrArg _ (List.append_nil _)
    rw [lastSynthesis_concat, hlast] at hclips
    rw [List.dropLast_concat]
    exact List.append_cancel_right hclips

/-- At any moment only sentences whose chunk is out are heard. -/
theorem clipOf_prefix_spokenFrom {o : Outside} {pending : Option (List UInt8)}
    {sentences : List Sentence} {cut : List StreamEvent}
    (h : cut <+: spokenFrom o pending sentences) :
    cut = [] ∨ 1 ≤ (cut.filterMap chunkOf).length ∧ cut.filterMap clipOf <+:
      (audible pending).toList ++ clips o (sentences.take ((cut.filterMap chunkOf).length - 1)) := by
  induction sentences generalizing pending cut with
  | nil => exact .inl (List.prefix_nil.mp h)
  | cons sentence rest ih =>
    rw [spokenFrom] at h
    cases cut with
    | nil => exact .inl rfl
    | cons event cut =>
      obtain ⟨rfl, hrest⟩ := List.cons_prefix_cons.mp h
      rw [chunkOf_cons, clipOf_cons, List.length_cons]
      refine .inr ⟨by omega, ?_⟩
      obtain hclip | ⟨later, rfl, hlater⟩ := prefix_append_cases hrest
      · have hcut := hclip.filterMap clipOf
        rw [clipOf_clipEvents] at hcut
        exact hcut.trans (List.prefix_append _ _)
      · rw [List.filterMap_append, clipOf_clipEvents, List.filterMap_append, chunkOf_clipEvents,
          List.nil_append, List.prefix_append_right_inj]
        obtain rfl | ⟨hpos, hheard⟩ := ih hlater
        · exact List.nil_prefix
        · obtain ⟨k, hk⟩ : ∃ k, (later.filterMap chunkOf).length = k + 1 :=
            ⟨(later.filterMap chunkOf).length - 1, by omega⟩
          rw [hk] at hheard ⊢
          rw [Nat.add_sub_cancel, List.take_succ_cons, clips_cons]
          exact hheard

/-! ## What a stream promises -/

/-- The order of the events, however the LLM ends. -/
structure Ordered (o : Outside) (trace : List StreamEvent) : Prop where
  chunks : trace.filterMap chunkOf = o.sentences.map Sentence.text
  /-- a clip comes after the chunk of its sentence, and after the clips of the sentences before -/
  audioAfter : ∀ cut, cut <+: trace →
    cut.filterMap clipOf <+: clips o (o.sentences.take (cut.filterMap chunkOf).length)
  correction : (trace.filterMap correctionOf).length ≤ 1
  correctionLast : ∀ before c later, trace = before ++ .yielded (.correctionReady c) :: later →
    later = []
  acknowledged : o.onPersisted ≠ none →
    trace.filterMap onPersistedOf = trace.filterMap persistedOf
  /-- what is acknowledged has been persisted -/
  acknowledgedAfter : ∀ cut, cut <+: trace →
    cut.filterMap onPersistedOf <+: cut.filterMap persistedOf

/-- What holds of a stream whose write succeeds. -/
structure Promise (o : Outside) (ended : Except Raised PUnit) (trace : List StreamEvent) : Prop
    extends Ordered o trace where
  audio : o.llm = .ok () → trace.filterMap clipOf = clips o o.sentences
  /-- only the clip of the last sentence is missing -/
  audioFailed : o.llm ≠ .ok () → trace.filterMap clipOf = clips o o.sentences.dropLast
  noCorrection : o.llm ≠ .ok () → trace.filterMap correctionOf = []
  persisted : o.llm = .ok () ∨ o.sentences ≠ [] → trace.filterMap persistedOf = [replyOf o]
  notPersisted : o.llm ≠ .ok () → o.sentences = [] → trace.filterMap persistedOf = []
  raisedAgain : ∀ e, o.llm = .error e → (∀ thrown, o.onPersisted ≠ some (.error thrown)) →
    ended = .error e

theorem filterMap_spoken {β : Type} {seen : StreamEvent → Option β} {spoken : List StreamEvent}
    (hseen : ∀ event, Spoken event → seen event = none) (h : ∀ event ∈ spoken, Spoken event)
    (events : List StreamEvent) : (spoken ++ events).filterMap seen = events.filterMap seen := by
  have hnone : spoken.filterMap seen = [] :=
    List.filterMap_eq_nil_iff.mpr fun event hevent => hseen event (h event hevent)
  rw [List.filterMap_append, hnone, List.nil_append]

/-- What comes behind the chunks and the clips. -/
structure IsEnd (o : Outside) (events : List StreamEvent) : Prop where
  silent : events.filterMap chunkOf = [] ∧ events.filterMap clipOf = []
  acknowledged : o.onPersisted ≠ none →
    events.filterMap onPersistedOf = events.filterMap persistedOf
  acknowledgedAfter : ∀ cut, cut <+: events →
    cut.filterMap onPersistedOf <+: cut.filterMap persistedOf

theorem isEnd_nil (o : Outside) : IsEnd o [] where
  silent := ⟨rfl, rfl⟩
  acknowledged _ := rfl
  acknowledgedAfter cut h := by
    rw [List.prefix_nil.mp h]
    exact List.nil_prefix

theorem onPersistedOf_acknowledgement (o : Outside) {tail : List StreamEvent}
    (htail : IsCorrectionTail tail) :
    (acknowledgement o ++ tail).filterMap onPersistedOf =
      if o.onPersisted.isSome then [replyOf o] else [] := by
  rw [acknowledgement]
  obtain rfl | ⟨correction, rfl⟩ := htail <;> split_ifs <;> rfl

theorem isEnd_saved (o : Outside) {tail : List StreamEvent} (htail : IsCorrectionTail tail) :
    IsEnd o (saved o ++ tail) := by
  have hacknowledged := onPersistedOf_acknowledgement o htail
  refine ⟨?_, fun hcallback => ?_, fun cut hcut => ?_⟩
  · rw [saved, acknowledgement]
    obtain rfl | ⟨correction, rfl⟩ := htail <;> split_ifs <;> exact ⟨rfl, rfl⟩
  · rw [saved, acknowledgement, if_pos (Option.isSome_iff_ne_none.mpr hcallback)]
    obtain rfl | ⟨correction, rfl⟩ := htail <;> rfl
  · cases cut with
    | nil => exact List.nil_prefix
    | cons event cut =>
      rw [saved, List.cons_append] at hcut
      obtain ⟨rfl, hrest⟩ := List.cons_prefix_cons.mp hcut
      have hseen : cut.filterMap onPersistedOf <+: [replyOf o] := by
        refine (hrest.filterMap onPersistedOf).trans ?_
        rw [hacknowledged]
        split_ifs
        · exact List.prefix_rfl
        · exact List.nil_prefix
      exact hseen.trans ⟨cut.filterMap persistedOf, rfl⟩

/-- The only correction is the last event. -/
theorem correction_last (events : List StreamEvent) {tail : List StreamEvent}
    (hevents : events.filterMap correctionOf = []) (htail : IsCorrectionTail tail) :
    ((events ++ tail).filterMap correctionOf).length ≤ 1 ∧
      ∀ before c later, events ++ tail = before ++ .yielded (.correctionReady c) :: later →
        later = [] := by
  have hnone : ∀ c, StreamEvent.yielded (.correctionReady c) ∉ events := fun c hc =>
    absurd (List.filterMap_eq_nil_iff.mp hevents _ hc) (Option.some_ne_none c)
  constructor
  · rw [List.filterMap_append, hevents]
    obtain rfl | ⟨correction, rfl⟩ := htail
    · exact Nat.zero_le 1
    · exact le_rfl
  · intro before c later hsplit
    obtain rfl | ⟨correction, rfl⟩ := htail
    · refine absurd ?_ (hnone c)
      rw [← List.append_nil events, hsplit]
      simp
    · cases later using List.reverseRecOn with
      | nil => rfl
      | append_singleton later last =>
        rw [← List.cons_append, ← List.append_assoc] at hsplit
        refine absurd ?_ (hnone c)
        rw [(List.append_inj' hsplit rfl).1]
        simp

/-- The chunks and clips, then the end. -/
theorem acknowledgedAfter_append {o : Outside} {spoken events cut : List StreamEvent}
    (hspoken : ∀ event ∈ spoken, Spoken event) (hend : IsEnd o events)
    (hcut : cut <+: spoken ++ events) :
    cut.filterMap onPersistedOf <+: cut.filterMap persistedOf := by
  obtain hfirst | ⟨later, rfl, hlater⟩ := prefix_append_cases hcut
  · rw [← List.append_nil cut, filterMap_spoken (fun _ h => h.2.2) fun event he =>
      hspoken event (hfirst.subset he)]
    exact List.nil_prefix
  · rw [filterMap_spoken (fun _ h => h.2.2) hspoken, filterMap_spoken (fun _ h => h.2.1) hspoken]
    exact hend.acknowledgedAfter later hlater

theorem audioAfter_append {o : Outside} {events cut : List StreamEvent}
    (hchunks : events.filterMap chunkOf = [])
    (hclips : (spokenFrom o none o.sentences ++ events).filterMap clipOf <+: clips o o.sentences)
    (hcut : cut <+: spokenFrom o none o.sentences ++ events) :
    cut.filterMap clipOf <+: clips o (o.sentences.take (cut.filterMap chunkOf).length) := by
  obtain hfirst | ⟨later, rfl, hlater⟩ := prefix_append_cases hcut
  · obtain rfl | ⟨-, hheard⟩ := clipOf_prefix_spokenFrom hfirst
    · exact List.nil_prefix
    · exact hheard.trans (clips_mono o (List.take_prefix_take_left (by omega)))
  · have hnone : later.filterMap chunkOf = [] := by
      have hseen := hlater.filterMap chunkOf
      rw [hchunks] at hseen
      exact List.prefix_nil.mp hseen
    have hall : ((spokenFrom o none o.sentences ++ later).filterMap chunkOf).length =
        o.sentences.length := by
      rw [List.filterMap_append, hnone, List.append_nil, chunkOf_spokenFrom, List.length_map]
    rw [hall, List.take_length]
    exact (hcut.filterMap clipOf).trans hclips

theorem ordered_append {o : Outside} (clip : List StreamEvent) {events tail : List StreamEvent}
    (hclip : ∀ event ∈ clip, Spoken event) (hsilent : clip.filterMap chunkOf = [])
    (hend : IsEnd o (events ++ tail)) (hevents : events.filterMap correctionOf = [])
    (htail : IsCorrectionTail tail)
    (hclips : (spokenFrom o none o.sentences ++ (clip ++ (events ++ tail))).filterMap clipOf <+:
      clips o o.sentences) :
    Ordered o (spokenFrom o none o.sentences ++ (clip ++ (events ++ tail))) := by
  have hchunks : (clip ++ (events ++ tail)).filterMap chunkOf = [] := by
    rw [List.filterMap_append, hsilent, List.nil_append, hend.silent.1]
  have hspoken : ∀ event ∈ spokenFrom o none o.sentences ++ clip, Spoken event :=
    fun event he => (List.mem_append.mp he).elim spoken_spokenFrom (hclip event)
  have hcorrection := correction_last (spokenFrom o none o.sentences ++ clip ++ events)
    (by rw [filterMap_spoken (fun _ h => h.1) hspoken, hevents]) htail
  simp only [List.append_assoc] at hcorrection
  refine ⟨?_, fun cut hcut => audioAfter_append hchunks hclips hcut, hcorrection.1, hcorrection.2,
    fun hcallback => ?_, fun cut hcut => ?_⟩
  · rw [List.filterMap_append, hchunks, List.append_nil, chunkOf_spokenFrom]
  · rw [← List.append_assoc, filterMap_spoken (fun _ h => h.2.2) hspoken,
      filterMap_spoken (fun _ h => h.2.1) hspoken, hend.acknowledged hcallback]
  · rw [← List.append_assoc] at hcut
    exact acknowledgedAfter_append hspoken hend hcut

theorem persistedOf_saved (o : Outside) {tail : List StreamEvent} (htail : IsCorrectionTail tail) :
    (saved o ++ tail).filterMap persistedOf = [replyOf o] := by
  rw [saved, acknowledgement]
  obtain rfl | ⟨correction, rfl⟩ := htail <;> split_ifs <;> rfl

theorem correctionOf_saved (o : Outside) : (saved o).filterMap correctionOf = [] := by
  rw [saved, acknowledgement]
  split_ifs <;> rfl

theorem promise_finished {o : Outside} (hllm : o.llm = .ok ()) :
    Promise o (run o (.ok ())).1 (run o (.ok ())).2.trace := by
  obtain ⟨tail, htail, htrace⟩ := run_finished o hllm
  have hend := isEnd_saved o htail
  have hspoken : ∀ event ∈ spokenFrom o none o.sentences ++ clipEvents (heard o).pendingAudio,
      Spoken event :=
    fun event he => (List.mem_append.mp he).elim spoken_spokenFrom spoken_clipEvents
  have hclips : (spokenFrom o none o.sentences ++ (clipEvents (heard o).pendingAudio ++
      (saved o ++ tail))).filterMap clipOf = clips o o.sentences := by
    rw [List.filterMap_append, List.filterMap_append, clipOf_clipEvents, hend.silent.2,
      List.append_nil]
    exact clipOf_spokenFrom o none o.sentences
  have hheard : (heard o).trace = spokenFrom o none o.sentences := rfl
  rw [htrace, hheard, List.append_assoc]
  refine ⟨ordered_append _ (fun _ => spoken_clipEvents) (chunkOf_clipEvents _) hend
      (correctionOf_saved o) htail (hclips ▸ List.prefix_rfl), fun _ => hclips,
    fun h => absurd hllm h, fun h => absurd hllm h, fun _ => ?_, fun h => absurd hllm h,
    fun e he => ?_⟩
  · rw [← List.append_assoc, filterMap_spoken (fun _ h => h.2.1) hspoken, persistedOf_saved o htail]
  · rw [hllm] at he
    cases he

theorem promise_failed {o : Outside} {e : Raised} (hllm : o.llm = .error e) :
    Promise o (run o (.ok ())).1 (run o (.ok ())).2.trace := by
  obtain ⟨htrace, hended⟩ := run_failed o hllm
  have hnot : o.llm ≠ .ok () := by
    rw [hllm]
    exact fun h => nomatch h
  have hspoken : ∀ event ∈ spokenFrom o none o.sentences, Spoken event := fun _ =>
    spoken_spokenFrom
  have hcorrection : (if o.sentences = [] then [] else saved o).filterMap correctionOf = [] := by
    split_ifs
    · rfl
    · exact correctionOf_saved o
  have hend : IsEnd o ((if o.sentences = [] then [] else saved o) ++ []) := by
    split_ifs
    · exact isEnd_nil o
    · exact isEnd_saved o (.inl rfl)
  have hclips : (spokenFrom o none o.sentences ++
      ([] ++ ((if o.sentences = [] then [] else saved o) ++ []))).filterMap clipOf =
        clips o o.sentences.dropLast := by
    rw [List.nil_append, List.filterMap_append, hend.silent.2, List.append_nil,
      clipOf_spokenFrom_dropLast]
  have hdrop := List.dropLast_prefix o.sentences
  have hordered := ordered_append [] (fun _ h => by cases h) rfl hend hcorrection
    (.inl rfl) (hclips ▸ clips_mono o hdrop)
  have hheard : (heard o).trace = spokenFrom o none o.sentences := rfl
  rw [List.nil_append, List.append_nil] at hordered hclips
  rw [htrace, hheard]
  refine ⟨hordered, fun h => absurd h hnot, fun _ => hclips, fun _ => ?_, fun h => ?_,
    fun _ hempty => ?_, fun e' he' hcallback => ?_⟩
  · rw [filterMap_spoken (fun _ h => h.1) hspoken, hcorrection]
  · rw [filterMap_spoken (fun _ h => h.2.1) hspoken, if_neg (h.resolve_left hnot),
      ← List.append_nil (saved o), persistedOf_saved o (.inl rfl)]
  · rw [filterMap_spoken (fun _ h => h.2.1) hspoken, if_pos hempty]
    rfl
  · rw [hended hcallback, ← hllm, he']

/-- A stream that its consumer drains and whose write succeeds. -/
theorem streamPrepared_promise (o : Outside) :
    Promise o (run o (.ok ())).1 (run o (.ok ())).2.trace := by
  cases hllm : o.llm with
  | ok u => exact promise_finished hllm
  | error e => exact promise_failed hllm

/-! ## The stream of the turn service -/

/-- The collaborators of the turn service, with the sentences of one stream. -/
def outsideOf (services : StreamServices) (user : Learner) (text intensity : String)
    (sentences : List String) (failed notify : Bool) : Outside where
  sentences := sentences.map fun sentence =>
    ⟨sentence, services.tts.bind fun synthesize => synthesize sentence⟩
  llm := if failed then .error .llm else .ok ()
  tts := services.tts.isSome
  corrector := services.corrector.map fun correct =>
    .ok (correct text user.cefrLevel user.nativeLanguage intensity)
  onPersisted := if notify then some (.ok ()) else none

/-- What the turn service's model keeps of an event: `stored` is the transcript committed then. -/
def stepOf (stored : Turns) : StreamEvent → Option StreamStep
  | .yielded event => some (.yielded event)
  | .persisted _ => none
  | .onPersisted reply => some (.onPersisted reply stored)

section outside
variable (services : StreamServices) (user : Learner) (text intensity : String)
variable (sentences : List String) (failed notify : Bool)

theorem startSynthesis_outsideOf (sentence : String) :
    startSynthesis (outsideOf services user text intensity sentences failed notify)
        ⟨sentence, services.tts.bind fun synthesize => synthesize sentence⟩ =
      Apm.Conversation.startSynthesis services sentence := by
  rw [startSynthesis, Apm.Conversation.startSynthesis, outsideOf]
  cases services.tts <;> rfl

theorem spokenFrom_outsideOf (pending : Option (List UInt8)) (spoken : List String) :
    let o := outsideOf services user text intensity sentences failed notify
    let said := spoken.map fun sentence =>
      Sentence.mk sentence (services.tts.bind fun synthesize => synthesize sentence)
    spokenFrom o pending said =
        (Apm.Conversation.streamSentences services pending spoken).1.map .yielded ∧
      lastSynthesis o pending said =
        (Apm.Conversation.streamSentences services pending spoken).2 := by
  induction spoken generalizing pending with
  | nil => exact ⟨rfl, rfl⟩
  | cons sentence rest ih =>
    obtain ⟨hspoken, hlast⟩ := ih (Apm.Conversation.startSynthesis services sentence)
    simp only [List.map_cons, spokenFrom, lastSynthesis, startSynthesis_outsideOf,
      Apm.Conversation.streamSentences] at hspoken hlast ⊢
    refine ⟨?_, hlast⟩
    rw [hspoken, clipEvents, List.map_append]
    simp

theorem filterMap_stepOf (stored : Turns) (events : List TurnStreamEvent) :
    (events.map StreamEvent.yielded).filterMap (stepOf stored) =
      events.map StreamStep.yielded := by
  rw [List.filterMap_map]
  exact congrFun (List.filterMap_eq_map (f := StreamStep.yielded)) events

theorem stepOf_saved (stored : Turns) :
    (saved (outsideOf services user text intensity sentences failed notify)).filterMap
        (stepOf stored) =
      if notify then [.onPersisted (" ".intercalate sentences) stored] else [] := by
  have hreply : replyOf (outsideOf services user text intensity sentences failed notify) =
      " ".intercalate sentences := by
    rw [replyOf, outsideOf, List.map_map]
    exact congrArg _ (List.map_id _)
  rw [saved, acknowledgement, hreply]
  cases notify <;> rfl

/-- The correction of a stream whose corrector raises nothing. -/
theorem exec_emitCorrection_outsideOf (s : Locals)
    (htask : s.correctionTask = if sentences = [] then none
      else (outsideOf services user text intensity sentences failed notify).corrector) :
    emitCorrection.exec s = (.ok ⟨⟩, { s with trace := s.trace ++
      (correctionEvents services user text intensity sentences).map .yielded }) := by
  obtain ⟨trace, parts, pending, task⟩ := s
  subst htask
  rw [emitCorrection, Future.exec_bind, Future.exec_get, Future.after_ok]
  cases sentences with
  | nil => cases hc : services.corrector <;> simp [correctionEvents, hc]
  | cons sentence rest =>
    cases hcorrector : services.corrector with
    | none => simp [correctionEvents, outsideOf, hcorrector]
    | some correct =>
      cases hanswer : correct text user.cefrLevel user.nativeLanguage intensity <;>
        simp [correctionEvents, outsideOf, hcorrector, hanswer, exec_record]

/-- A write that fails lets the exception of the write go on. -/
theorem exec_failTurn_lost (o : Outside) (e e' : Raised) (s : Locals) :
    (failTurn o (.error e') e).exec s = (.error (if s.parts = [] then e else e'), s) := by
  simp only [failTurn, Future.exec_bind, Future.exec_get, Future.after_ok, ne_eq]
  by_cases hempty : s.parts = []
  · simp only [hempty, not_true_eq_false, if_false, if_true, Future.exec_throw]
  · simp only [hempty, not_false_eq_true, if_true, if_false, Future.exec_bind, persist,
      Future.exec_liftExcept, Future.after_error]

theorem exec_finishTurn_lost (o : Outside) (e : Raised) (s : Locals) :
    (finishTurn o (.error e)).exec s = emitCorrection.exec s := by
  simp only [finishTurn, Future.exec_bind, Future.exec_get, Future.after_ok, Future.exec_tryCatch,
    persist, Future.exec_liftExcept, Future.after_error, Future.handled_error, Future.exec_pure,
    Bool.false_eq_true, if_false]

/-- The turn service's stream is this one, seen without the writes. -/
theorem streamPrepared_steps (svc : TurnSettings) (prepared : PreparedTurn) (a : PersistAnswers)
    (stored : Turns) :
    let persisted := persistTurn svc.transcriptMaxMessages user.id prepared.turns text
      (" ".intercalate sentences) a (Work.opened stored)
    let streamed := run (outsideOf services user text prepared.intensity sentences failed notify)
      ((persisted.1.mapError fun _ => Raised.persistence).map fun _ => ())
    let stream := Apm.Conversation.streamPrepared svc services user text prepared sentences failed
      notify a stored
    stream.steps = streamed.2.trace.filterMap (stepOf persisted.2.committed) ∧
      (stream.raised = none ↔ ∃ u, streamed.1 = .ok u) := by
  simp only [Apm.Conversation.streamPrepared]
  generalize hreply : " ".intercalate sentences = reply
  generalize persistTurn svc.transcriptMaxMessages user.id prepared.turns text reply a
    (Work.opened stored) = persisted
  obtain ⟨result, db⟩ := persisted
  obtain ⟨hspoken, hlast⟩ := spokenFrom_outsideOf services user text prepared.intensity sentences
    failed notify none sentences
  have hsaved := stepOf_saved services user text prepared.intensity sentences failed notify
    db.committed
  have hcorrection := exec_emitCorrection_outsideOf services user text prepared.intensity sentences
    failed notify
  set o := outsideOf services user text prepared.intensity sentences failed notify
  have hheard : (heard o).trace =
      (Apm.Conversation.streamSentences services none sentences).1.map .yielded := hspoken
  have hall : (heardAll o).trace = ((Apm.Conversation.streamSentences services none sentences).1 ++
      Apm.Conversation.drainAudio
        (Apm.Conversation.streamSentences services none sentences).2).map .yielded := by
    rw [List.map_append]
    exact congrArg₂ (· ++ ·) hspoken (congrArg clipEvents hlast)
  have hempty : o.sentences = [] ↔ sentences = [] := List.map_eq_nil_iff
  have htask : (heardAll o).correctionTask = if sentences = [] then none else o.corrector := by
    simp only [heardAll, heard, hempty]
  have hllm : o.llm = if failed then .error .llm else .ok () := rfl
  have hcallback : o.onPersisted.getD (.ok ()) = .ok () := by
    cases notify <;> rfl
  cases failed with
  | true =>
    cases result with
    | error e =>
      obtain ⟨hended, htrace⟩ := run_eq_failed hllm
        (exec_failTurn_lost o .llm .persistence (heard o))
      have hsteps := congrArg (List.filterMap (stepOf db.committed)) htrace
      rw [hheard, filterMap_stepOf] at hsteps
      have hraised : ¬∃ u, (run o (.error .persistence)).1 = .ok u := by
        rintro ⟨u, hu⟩
        rw [hended] at hu
        cases hu
      cases sentences with
      | nil => exact ⟨hsteps.symm, iff_of_false (Option.some_ne_none _) hraised⟩
      | cons sentence rest => exact ⟨hsteps.symm, iff_of_false (Option.some_ne_none _) hraised⟩
    | ok turns =>
      obtain ⟨e', hfail, -⟩ := exec_failTurn o .llm (heard o) rfl
      obtain ⟨hended, htrace⟩ := run_eq_failed hllm hfail
      have hsteps := congrArg (List.filterMap (stepOf db.committed)) htrace
      rw [List.filterMap_append, hheard, filterMap_stepOf] at hsteps
      have hraised : ¬∃ u, (run o (.ok ())).1 = .ok u := by
        rintro ⟨u, hu⟩
        rw [hended] at hu
        cases hu
      cases sentences with
      | nil => exact ⟨hsteps.symm, iff_of_false (Option.some_ne_none _) hraised⟩
      | cons sentence rest =>
        rw [if_neg fun h => List.cons_ne_nil _ _ (hempty.mp h), hsaved, hreply] at hsteps
        exact ⟨hsteps.symm, iff_of_false (Option.some_ne_none _) hraised⟩
  | false =>
    cases result with
    | error e =>
      have hrun := (exec_finishTurn_lost o .persistence (heardAll o)).trans
        (hcorrection (heardAll o) htask)
      obtain ⟨hended, htrace⟩ := run_eq_finished hllm hrun
      have hsteps := congrArg (List.filterMap (stepOf db.committed)) htrace
      rw [List.filterMap_append, hall, filterMap_stepOf, filterMap_stepOf] at hsteps
      exact ⟨hsteps.symm, iff_of_true rfl ⟨_, hended⟩⟩
    | ok turns =>
      have hrun := exec_finishTurn o (heardAll o) rfl
      rw [hcallback, Future.after_ok] at hrun
      obtain ⟨hended, htrace⟩ := run_eq_finished hllm (hrun.trans (hcorrection _ htask))
      have hsteps := congrArg (List.filterMap (stepOf db.committed)) htrace
      rw [List.filterMap_append, List.filterMap_append, hall, filterMap_stepOf, filterMap_stepOf,
        hsaved, hreply] at hsteps
      exact ⟨hsteps.symm, iff_of_true rfl ⟨_, hended⟩⟩

end outside

end Apm.Conversation.StreamTurn
