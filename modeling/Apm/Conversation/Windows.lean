import Apm.Conversation.TurnService
import Apm.Lib.Window

/-!
# The windows of a conversation

Each turn reads the stored transcript, sends its end to the LLM and stores what it read with the
new exchange, cut to the cap. Over a run of turns both are ends of the whole conversation.
-/

namespace Apm.Conversation

open Apm.Core Apm.Lib Apm.Sessions

set_option autoImplicit false

/-- A setting that counts messages: a positive one is a limit. -/
def limitOf (setting : Int) : ℕ∞ := if 0 < setting then (setting.toNat : ℕ∞) else ⊤

/-- A turn that read the stored transcript, and whose exchange was persisted and committed. -/
inductive CompletedTurn (svc : TurnSettings) (text reply : String) (stored : Turns) :
    Turns → Prop where
  | done (user : Learner) (reads : PrepareReads) (prepared : PreparedTurn) (a : PersistAnswers)
      (saved : List Message) (db : Uow Turns) (hread : reads.transcript = stored)
      (hprepared : prepare svc user text reads = .ok prepared)
      (hpersisted : persistTurn svc.transcriptMaxMessages user.id prepared.turns text reply a
        (Work.opened stored) = (.ok saved, db))
      (hcommitted : db.committed = some saved) : CompletedTurn svc text reply stored db.committed

/-- The exchanges of a session so far, and the transcript it has stored. -/
inductive CompletedTurns (svc : TurnSettings) : List (String × String) → Turns → Prop where
  | start : CompletedTurns svc [] none
  | turn {exchanges : List (String × String)} {stored stored' : Turns} {text reply : String} :
      CompletedTurns svc exchanges stored → CompletedTurn svc text reply stored stored' →
      CompletedTurns svc (exchanges ++ [(text, reply)]) stored'

/-- All messages of the conversation. -/
def messagesOf (exchanges : List (String × String)) : List Message :=
  exchanges.flatMap fun e => exchange e.1 e.2

theorem length_messagesOf (exchanges : List (String × String)) :
    (messagesOf exchanges).length = 2 * exchanges.length := by
  induction exchanges with
  | nil => rfl
  | cons e exchanges ih =>
    rw [messagesOf, List.flatMap_cons, List.length_append, ← messagesOf, ih, List.length_cons]
    simp [exchange]
    omega

theorem historyWindow_eq (n : Int) (turns : List Message) :
    historyWindow n turns = window (limitOf n) turns := by
  rw [historyWindow, limitOf]
  split_ifs
  · rw [window_natCast, List.rtake]
  · rw [window_top]

theorem appendTurn_eq (cap : Int) (turns : List Message) (text reply : String) :
    appendTurn cap turns text reply = window (limitOf cap) (turns ++ exchange text reply) := by
  rw [← historyWindow_eq, historyWindow]
  change (if 0 < cap ∧ cap < ((turns ++ exchange text reply).length : Int) then
    (turns ++ exchange text reply).drop ((turns ++ exchange text reply).length - cap.toNat)
    else turns ++ exchange text reply) = _
  by_cases hcap : 0 < cap
  · rw [if_pos hcap]
    split_ifs with hlong
    · rfl
    · rw [Nat.sub_eq_zero_of_le (by omega), List.drop_zero]
  · rw [if_neg hcap, if_neg fun h => hcap h.1]

theorem prepare_ok {svc : TurnSettings} {user : Learner} {text : String} {reads : PrepareReads}
    {prepared : PreparedTurn} (h : prepare svc user text reads = .ok prepared) :
    prepared.turns = reads.transcript.getD [] ∧ prepared.history =
      historyWindow svc.historyMaxMessages (reads.transcript.getD []) ++ [⟨roleUser, text⟩] := by
  rw [prepare] at h
  split at h
  next => cases h
  next =>
    split_ifs at h
    cases h
    exact ⟨rfl, rfl⟩

/-- What `persist_turn` returns is what it was to save, whatever becomes of it. -/
theorem persistTurn_saved {cap userId : Int} {turns saved : List Message} {text reply : String}
    {a : PersistAnswers} {stored : Turns} {db : Uow Turns}
    (h : persistTurn cap userId turns text reply a (Work.opened stored) = (.ok saved, db)) :
    saved = appendTurn cap turns text reply := by
  have hout := persistTurn_outcome cap userId turns text reply a stored
  cases hfate : a.fate userId with
  | raises =>
    rw [hfate] at hout
    obtain ⟨e, db', hrun⟩ := hout
    rw [h] at hrun
    cases hrun
  | commits =>
    rw [hfate] at hout
    obtain ⟨db', hrun, -⟩ := hout
    rw [h] at hrun
    cases hrun
    rfl
  | drops =>
    rw [hfate] at hout
    obtain ⟨db', hrun, -⟩ := hout
    rw [h] at hrun
    cases hrun
    rfl

/-! ## The turns that complete -/

/-- A turn of `take_turn` that is answered and committed is a completed turn. -/
theorem takeTurn_completed {svc : TurnSettings} {user : Learner} {text : String}
    {reads : PrepareReads} {complete : String → List Message → Option String} {a : PersistAnswers}
    {result : TurnResult} {after : Turns}
    (h : takeTurn svc user text reads complete a reads.transcript = (.ok result, after))
    (hcommitted : after = some result.turns) :
    CompletedTurn svc text result.reply reads.transcript after := by
  rw [takeTurn] at h
  split at h
  next => cases h
  next prepared hprepared =>
    split at h
    next => cases h
    next reply hreply =>
      split at h
      next => cases h
      next saved db hpersisted =>
        cases h
        exact .done user reads prepared a saved db rfl hprepared hpersisted hcommitted

/-- So is a stream that acknowledges its joined sentences as they are committed. -/
theorem streamPrepared_completed {svc : TurnSettings} {services : StreamServices} {user : Learner}
    {text reply : String} {reads : PrepareReads} {prepared : PreparedTurn}
    {sentences : List String} {failed notify : Bool} {a : PersistAnswers} {after : Turns}
    (hprepared : prepare svc user text reads = .ok prepared)
    (h : .onPersisted reply after ∈ (streamPrepared svc services user text prepared sentences failed
      notify a reads.transcript).steps)
    (hcommitted : after = some (appendTurn svc.transcriptMaxMessages prepared.turns text reply)) :
    CompletedTurn svc text reply reads.transcript after := by
  obtain ⟨-, -, rfl, saved, db, hpersisted, rfl⟩ := (onPersisted_mem_iff ..).mp h
  rw [← persistTurn_saved hpersisted] at hcommitted
  exact .done user reads prepared a saved db rfl hprepared hpersisted hcommitted

/-- One turn: the stored transcript grows by the exchange and is cut to the cap. -/
theorem CompletedTurn.stored_eq {svc : TurnSettings} {text reply : String} {stored stored' : Turns}
    (h : CompletedTurn svc text reply stored stored') : stored'.getD [] =
      window (limitOf svc.transcriptMaxMessages) (stored.getD [] ++ exchange text reply) := by
  obtain ⟨user, reads, prepared, a, saved, db, hread, hprepared, hpersisted, hcommitted⟩ := h
  rw [hcommitted, Option.getD_some, persistTurn_saved hpersisted, appendTurn_eq,
    (prepare_ok hprepared).1, hread]

/-- Over a run the stored transcript is the end of the whole conversation. -/
theorem CompletedTurns.stored_eq {svc : TurnSettings} {exchanges : List (String × String)}
    {stored : Turns} (h : CompletedTurns svc exchanges stored) :
    stored.getD [] = window (limitOf svc.transcriptMaxMessages) (messagesOf exchanges) := by
  induction h with
  | start => exact (window_nil _).symm
  | turn _ hturn ih =>
    rw [hturn.stored_eq, ih, window_append, messagesOf, messagesOf, List.flatMap_append,
      List.flatMap_singleton]

/-- The last messages: `count` of them, up to the limit. -/
noncomputable def lastMessages (count : ℕ) (limit : ℕ∞) (messages : List Message) : List Message :=
  messages.rtake (min (count : ℕ∞) limit).toNat

/-- **Both windows are ends of the conversation.** After `n` turns the stored transcript is the
last `min(2n, C)` messages; the next turn sends its last `H` messages and the new utterance, which
for `H ≤ C` are the last `min(2n, H)` messages of the conversation. -/
theorem completedTurns_windows (svc : TurnSettings) {exchanges : List (String × String)}
    {stored : Turns} (h : CompletedTurns svc exchanges stored) :
    stored.getD [] = lastMessages (2 * exchanges.length) (limitOf svc.transcriptMaxMessages)
        (messagesOf exchanges) ∧
      ∀ (user : Learner) (text : String) (reads : PrepareReads) (prepared : PreparedTurn),
        reads.transcript = stored → prepare svc user text reads = .ok prepared →
        prepared.history =
            window (limitOf svc.historyMaxMessages) (stored.getD []) ++ [⟨roleUser, text⟩] ∧
          (limitOf svc.historyMaxMessages ≤ limitOf svc.transcriptMaxMessages →
            prepared.history = lastMessages (2 * exchanges.length) (limitOf svc.historyMaxMessages)
              (messagesOf exchanges) ++ [⟨roleUser, text⟩]) := by
  have hstored := h.stored_eq
  rw [← length_messagesOf]
  refine ⟨hstored, fun user text reads prepared hread hprepared => ?_⟩
  have hhistory := (prepare_ok hprepared).2
  rw [hread, historyWindow_eq] at hhistory
  refine ⟨hhistory, fun hle => ?_⟩
  rw [hhistory, hstored, window_window hle]
  rfl

/-- An open session of the learner, with this transcript. -/
def openReads (stored : Turns) : PrepareReads :=
  ⟨some ⟨1, 0, 0, none, none⟩, stored, "", "gentle"⟩

/-- A cap of three messages keeps the second exchange and half of the first. -/
def keptOfTwo : List Message := [⟨roleAssistant, "a"⟩, ⟨roleUser, "2"⟩, ⟨roleAssistant, "b"⟩]

theorem twoTurns_completed :
    CompletedTurns ⟨2, 3⟩ [("1", "a"), ("2", "b")] (some keptOfTwo) := by
  have hfirst : CompletedTurn ⟨2, 3⟩ "1" "a" none (some (exchange "1" "a")) :=
    .done ⟨1, "A1", "fr"⟩ (openReads none) ⟨[], "", [⟨roleUser, "1"⟩], "gentle"⟩
      ⟨.ok (), none, .done⟩ _ _ rfl rfl rfl rfl
  have hsecond : CompletedTurn ⟨2, 3⟩ "2" "b" (some (exchange "1" "a")) (some keptOfTwo) :=
    .done ⟨1, "A1", "fr"⟩ (openReads (some (exchange "1" "a")))
      ⟨exchange "1" "a", "", exchange "1" "a" ++ [⟨roleUser, "2"⟩], "gentle"⟩
      ⟨.ok (), none, .done⟩ _ _ rfl rfl rfl rfl
  exact .turn (.turn .start hfirst) hsecond

theorem completedTurns_windows_odd :
    keptOfTwo = lastMessages (2 * 2) (limitOf 3) (messagesOf [("1", "a"), ("2", "b")]) ∧
      [⟨roleUser, "2"⟩, ⟨roleAssistant, "b"⟩, ⟨roleUser, "3"⟩] =
        lastMessages (2 * 2) (limitOf 2) (messagesOf [("1", "a"), ("2", "b")]) ++
          [⟨roleUser, "3"⟩] := by
  obtain ⟨hstored, hnext⟩ := completedTurns_windows ⟨2, 3⟩ twoTurns_completed
  refine ⟨hstored, (hnext ⟨1, "A1", "fr"⟩ "3" (openReads (some keptOfTwo)) _ rfl rfl).2 ?_⟩
  show limitOf 2 ≤ limitOf 3
  rw [limitOf, limitOf, if_pos (by decide), if_pos (by decide)]
  exact Nat.cast_le.mpr (by decide)

end Apm.Conversation
