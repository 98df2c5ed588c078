import Apm.Conversation.Persist

/-!
# The turn service

`take_turn` and `stream_prepared` around `persist_turn`. The LLM, the speech
synthesis and the corrector are answers of the outside: a reply or a list of
sentences cut by an error, a clip or a failure for each sentence, a correction
or none. A stream is the list of what it yields and of the calls of
`on_persisted`, each with the transcript committed at that moment.
-/

namespace Apm.Conversation

open Apm.Core Apm.Lib Apm.Sessions

set_option autoImplicit false

/-- The columns of the user a turn reads. -/
structure Learner where
  id : Int
  cefrLevel : String
  nativeLanguage : String

structure TurnSettings where
  historyMaxMessages : Int
  transcriptMaxMessages : Int

inductive TurnError where
  | notFound
  | sessionEnded
  | llm
  | persist (e : Fault CodeError)

/-- What `_prepare` reads: the session, its transcript, and the prompt and the
correction intensity the mission or the profile give. -/
structure PrepareReads where
  session : Option ConversationSession
  transcript : Turns
  systemPrompt : String
  intensity : String

structure PreparedTurn where
  turns : List Message
  systemPrompt : String
  history : List Message
  intensity : String

/-- `turns[-n:]` of the source for a positive `n`, all of them otherwise. -/
def historyWindow (n : Int) (turns : List Message) : List Message :=
  if 0 < n then turns.drop (turns.length - n.toNat) else turns

/-- `_prepare`. -/
def prepare (svc : TurnSettings) (user : Learner) (text : String) (reads : PrepareReads) :
    Except TurnError PreparedTurn :=
  match reads.session with
  | none => .error .notFound
  | some session =>
    if session.userId ≠ user.id then .error .notFound
    else if session.endedAt ≠ none then .error .sessionEnded
    else
      let turns := reads.transcript.getD []
      .ok ⟨turns, reads.systemPrompt,
        historyWindow svc.historyMaxMessages turns ++ [⟨roleUser, text⟩], reads.intensity⟩

structure TurnResult where
  reply : String
  turns : List Message

/-- `take_turn`, with the transcript row committed when it ends. The terminal
write runs on a session of its own, on the transcript stored by then. -/
def takeTurn (svc : TurnSettings) (user : Learner) (text : String) (reads : PrepareReads)
    (complete : String → List Message → Option String) (a : PersistAnswers) (stored : Turns) :
    Except TurnError TurnResult × Turns :=
  match prepare svc user text reads with
  | .error e => (.error e, stored)
  | .ok prepared =>
    match complete prepared.systemPrompt prepared.history with
    | none => (.error .llm, stored)
    | some reply =>
      match persistTurn svc.transcriptMaxMessages user.id prepared.turns text reply a
          (Work.opened stored) with
      | (.error e, db) => (.error (.persist e), db.committed)
      | (.ok turns, db) => (.ok ⟨reply, turns⟩, db.committed)

structure TurnCorrection where
  original : String
  correction : String
  rule : String
  alternatives : List String

/-- What the stream yields. A clip is kept as the bytes the source encodes. -/
inductive TurnStreamEvent where
  | replyChunk (text : String)
  | audioChunk (audio : List UInt8) (mime : String)
  | correctionReady (correction : TurnCorrection)

inductive StreamStep where
  | yielded (event : TurnStreamEvent)
  | onPersisted (reply : String) (stored : Turns)

structure StreamRun where
  steps : List StreamStep
  /-- the exception that ends the stream, if one does -/
  raised : Option TurnError

/-- The collaborators of a stream: `tts` synthesizes a sentence or fails,
`corrector` answers for the text, the level, the language and the intensity. -/
structure StreamServices where
  tts : Option (String → Option (List UInt8))
  corrector : Option (String → String → String → String → Option TurnCorrection)

/-- `_start_synthesis`: a failed synthesis is empty audio. -/
def startSynthesis (services : StreamServices) (sentence : String) : Option (List UInt8) :=
  services.tts.map fun synthesize => (synthesize sentence).getD []

/-- `_drain_audio`. -/
def drainAudio (pending : Option (List UInt8)) : List TurnStreamEvent :=
  match pending with
  | none => []
  | some audio => if audio = [] then [] else [.audioChunk audio "audio/mpeg"]

/-- The loop over the sentences: each is yielded, then the clip of the one before. -/
def streamSentences (services : StreamServices) :
    Option (List UInt8) → List String → List TurnStreamEvent × Option (List UInt8)
  | pending, [] => ([], pending)
  | pending, sentence :: rest =>
    let tail := streamSentences services (startSynthesis services sentence) rest
    (.replyChunk sentence :: drainAudio pending ++ tail.1, tail.2)

/-- The correction, started with the first sentence and awaited at the end. -/
def correctionEvents (services : StreamServices) (user : Learner) (text intensity : String)
    (sentences : List String) : List TurnStreamEvent :=
  match services.corrector, sentences with
  | some correct, _ :: _ =>
    ((correct text user.cefrLevel user.nativeLanguage intensity).map
      TurnStreamEvent.correctionReady).toList
  | _, _ => []

/-- `stream_prepared`, drained by its consumer. The LLM yields `sentences` and
then ends or, when `failed`, raises. -/
def streamPrepared (svc : TurnSettings) (services : StreamServices) (user : Learner)
    (text : String) (prepared : PreparedTurn) (sentences : List String) (failed : Bool)
    (notify : Bool) (a : PersistAnswers) (stored : Turns) : StreamRun :=
  let spoken := streamSentences services none sentences
  let reply := " ".intercalate sentences
  let persisted := persistTurn svc.transcriptMaxMessages user.id prepared.turns text reply a
    (Work.opened stored)
  if failed then
    let heard := spoken.1.map StreamStep.yielded
    match sentences with
    | [] => ⟨heard, some .llm⟩
    | _ :: _ =>
      match persisted with
      | (.error e, _) => ⟨heard, some (.persist e)⟩
      | (.ok _, db) =>
        ⟨heard ++ (if notify then [.onPersisted reply db.committed] else []), some .llm⟩
  else
    let heard := (spoken.1 ++ drainAudio spoken.2).map StreamStep.yielded
    let corrected := (correctionEvents services user text prepared.intensity sentences).map
      StreamStep.yielded
    match persisted with
    -- the reply was delivered: the failure is only logged
    | (.error _, _) => ⟨heard ++ corrected, none⟩
    | (.ok _, db) =>
      ⟨heard ++ (if notify then [.onPersisted reply db.committed] else []) ++ corrected, none⟩

/-! ## An acknowledged turn is stored -/

theorem takeTurn_stored_iff (svc : TurnSettings) (user : Learner) (text : String)
    (reads : PrepareReads) (complete : String → List Message → Option String)
    (a : PersistAnswers) (stored : Turns) :
    (∀ result after, takeTurn svc user text reads complete a stored = (.ok result, after) →
      EndsWith after text result.reply) ↔
    ∀ prepared reply, prepare svc user text reads = .ok prepared →
      complete prepared.systemPrompt prepared.history = some reply →
      keepsExchange svc.transcriptMaxMessages user.id a stored text reply := by
  simp only [takeTurn]
  cases hprep : prepare svc user text reads with
  | error e => simp
  | ok prepared =>
    cases hllm : complete prepared.systemPrompt prepared.history with
    | none =>
      refine iff_of_true (fun result after h => by simp [hllm] at h) fun p reply hp hr => ?_
      obtain rfl := Except.ok.inj hp
      rw [hllm] at hr
      cases hr
    | some reply =>
      have hkeeps := persistTurn_keeps_iff svc.transcriptMaxMessages user.id prepared.turns text
        reply a stored
      constructor
      · rintro h prepared' reply' hp hr
        obtain rfl := Except.ok.inj hp
        obtain rfl := Option.some.inj (hllm.symm.trans hr)
        refine hkeeps.mp fun saved db hrun => ?_
        simp only [hllm, hrun] at h
        exact h _ _ rfl
      · rintro h result after heq
        simp only [hllm] at heq
        split at heq
        · cases heq
        · rename_i saved db hrun
          obtain ⟨hresult, rfl⟩ := Prod.mk.inj heq
          obtain rfl := Except.ok.inj hresult
          exact hkeeps.mpr (h prepared reply rfl hllm) saved db hrun

/-- A stream acknowledges once: the joined sentences, when `persist_turn` returns. -/
theorem onPersisted_mem_iff (svc : TurnSettings) (services : StreamServices) (user : Learner)
    (text : String) (prepared : PreparedTurn) (sentences : List String) (failed notify : Bool)
    (a : PersistAnswers) (stored : Turns) (reply : String) (after : Turns) :
    .onPersisted reply after ∈
        (streamPrepared svc services user text prepared sentences failed notify a stored).steps ↔
      ¬(failed = true ∧ sentences = []) ∧ notify = true ∧ reply = " ".intercalate sentences ∧
      ∃ saved db, persistTurn svc.transcriptMaxMessages user.id prepared.turns text
        (" ".intercalate sentences) a (Work.opened stored) = (.ok saved, db) ∧
        after = db.committed := by
  simp only [streamPrepared]
  generalize " ".intercalate sentences = joined
  generalize persistTurn svc.transcriptMaxMessages user.id prepared.turns text joined a
    (Work.opened stored) = persisted
  obtain ⟨result, db⟩ := persisted
  cases failed <;> cases sentences <;> cases result <;> cases notify <;> simp

theorem streamPrepared_stored_iff (svc : TurnSettings) (services : StreamServices)
    (user : Learner) (text : String) (prepared : PreparedTurn) (sentences : List String)
    (failed notify : Bool) (a : PersistAnswers) (stored : Turns) :
    (∀ reply after, .onPersisted reply after ∈
        (streamPrepared svc services user text prepared sentences failed notify a stored).steps →
      EndsWith after text reply) ↔
    (failed = true ∧ sentences = []) ∨ notify = false ∨
      keepsExchange svc.transcriptMaxMessages user.id a stored text
        (" ".intercalate sentences) := by
  simp only [onPersisted_mem_iff]
  rw [← persistTurn_keeps_iff svc.transcriptMaxMessages user.id prepared.turns text
    (" ".intercalate sentences) a stored]
  constructor
  · intro h
    by_cases hsilent : failed = true ∧ sentences = []
    · exact .inl hsilent
    · cases notify with
      | false => exact .inr (.inl rfl)
      | true => exact .inr (.inr fun saved db hrun =>
          h _ _ ⟨hsilent, rfl, rfl, saved, db, hrun, rfl⟩)
  · rintro (hsilent | hsilent | hkeeps) reply after ⟨hvoiced, hnotify, rfl, saved, db, hrun, rfl⟩
    · exact absurd hsilent hvoiced
    · rw [hsilent] at hnotify
      cases hnotify
    · exact hkeeps saved db hrun

/-- **What an acknowledgement promises.** A reply of `take_turn` and a call of
`on_persisted` leave the transcript ending with the learner's text and that
reply, for exactly those answers of the database for which `persist_turn` keeps
the exchange; a turn or a stream that acknowledges nothing promises nothing. -/
theorem acknowledged_turn_stored_iff (svc : TurnSettings) (user : Learner) (text : String)
    (a : PersistAnswers) (stored : Turns) :
    (∀ (reads : PrepareReads) (complete : String → List Message → Option String),
      (∀ result after, takeTurn svc user text reads complete a stored = (.ok result, after) →
        EndsWith after text result.reply) ↔
      ∀ prepared reply, prepare svc user text reads = .ok prepared →
        complete prepared.systemPrompt prepared.history = some reply →
        keepsExchange svc.transcriptMaxMessages user.id a stored text reply) ∧
    ∀ (services : StreamServices) (prepared : PreparedTurn) (sentences : List String)
      (failed notify : Bool),
      (∀ reply after, .onPersisted reply after ∈
          (streamPrepared svc services user text prepared sentences failed notify a stored).steps →
        EndsWith after text reply) ↔
      (failed = true ∧ sentences = []) ∨ notify = false ∨
        keepsExchange svc.transcriptMaxMessages user.id a stored text
          (" ".intercalate sentences) :=
  ⟨fun reads complete => takeTurn_stored_iff svc user text reads complete a stored,
    fun services prepared sentences failed notify =>
      streamPrepared_stored_iff svc services user text prepared sentences failed notify a stored⟩

/-- An end commits between the first read of metering and its lock. -/
def endedMeanwhile : PersistAnswers where
  save := .ok ()
  meter := some (⟨.ok (some ⟨1, 0, 0, none, none⟩), .ok none, .ok ⟨1, 0, 0, some 9, none⟩, .done⟩,
    ⟨.ok none, .ok none, .ok ⟨1, 0, 0, none, none⟩, .done⟩)
  commit := .done

/-- The lock of the user row fails on the database. -/
def lockFails : PersistAnswers where
  save := .ok ()
  meter := some (⟨.ok (some ⟨1, 0, 0, none, none⟩), .error .database, .ok ⟨1, 0, 0, none, none⟩,
      .done⟩,
    ⟨.ok none, .ok none, .ok ⟨1, 0, 0, none, none⟩, .done⟩)
  commit := .done

/-- Both acknowledge the reply, and nothing is stored. -/
theorem acknowledged_turn_dropped :
    (∃ result, takeTurn ⟨20, 200⟩ ⟨1, "A1", "fr"⟩ "hello" ⟨some ⟨1, 0, 0, none, none⟩, none, "", "gentle"⟩
        (fun _ _ => some "hi") endedMeanwhile none = (.ok result, none) ∧ result.reply = "hi") ∧
      .onPersisted "hi" none ∈ (streamPrepared ⟨20, 200⟩ ⟨none, none⟩ ⟨1, "A1", "fr"⟩ "hello"
        ⟨[], "", [⟨roleUser, "hello"⟩], "gentle"⟩ ["hi"] false true lockFails none).steps ∧
      ¬EndsWith none "hello" "hi" := by
  refine ⟨⟨_, rfl, rfl⟩, ?_, fun h => h⟩
  exact List.mem_append_left _ (List.mem_append_right _ (List.mem_singleton.mpr rfl))

end Apm.Conversation
