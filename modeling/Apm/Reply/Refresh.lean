import Apm.Conversation.Persist
import Apm.Lib.Run
import Apm.Reply.State

/-!
# Corrections stay with their utterance

When the offline queue shrinks, `_refreshTurnsFromServer` puts the server's transcript in place of
the turns on the screen. The server does not keep the corrections; each is carried over to the turn
at the same position, behind the opening bubble that only the screen has.

A line stands for its text, and a correction comes with the utterance it was computed for. No
method reads either: the refresh compares roles and positions. Turns come one after another; what
a cancelled one still does is the subject of `Apm.Reply.Cancelled`.
-/

namespace Apm.Reply.Refresh

open Apm.Lib

set_option autoImplicit false

section refresh

variable {γ κ : Type}

/-- `hasClientOpening` -/
def hasClientOpening (localTurns : List (ConversationTurn γ κ)) (serverTurns : List (Role × γ)) :
    Bool :=
  localTurns.head?.any (·.role = .assistant) && serverTurns.head?.all (·.1 = .user)

def headOffset (localTurns : List (ConversationTurn γ κ)) (serverTurns : List (Role × γ)) : Nat :=
  if hasClientOpening localTurns serverTurns then 1 else 0

/-- The correction of the local turn at a position, where the roles agree. -/
def carried (localTurns : List (ConversationTurn γ κ)) (i : Nat) (role : Role) : Option κ :=
  match localTurns[i]? with
  | some turn => if turn.role = role then turn.correction else none
  | none => none

/-- The turns of `_refreshTurnsFromServer`. -/
def refreshTurns (localTurns : List (ConversationTurn γ κ)) (serverTurns : List (Role × γ)) :
    List (ConversationTurn γ κ) :=
  let headOffset := headOffset localTurns serverTurns
  localTurns.take headOffset ++ serverTurns.mapIdx fun i turn =>
    ⟨turn.1, turn.2, carried localTurns (headOffset + i) turn.1⟩

end refresh

/-- A text of the conversation: who said it, in which turn. -/
inductive Line (ι : Type) where
  | opening
  | utterance (i : ι)
  | reply (i : ι)
  deriving DecidableEq, Repr

structure World (ι α : Type) where
  /-- the session that is active on the server -/
  session : Int
  state : ConversationState (Line ι) (ι × α)
  /-- the turn under way -/
  current : Option ι
  said : List ι
  /-- the streamed turns that the server may have received -/
  requests : List ι
  /-- the turns that wait for the network -/
  queue : List ι
  /-- the transcript, and the turns whose replies are cached -/
  server : List (Role × Line ι)
  persisted : List ι
  /-- calls of `getActiveSession`, and the transcripts on their way back -/
  fetches : Nat
  snapshots : List (List (Role × Line ι))

inductive Action (ι α : Type) where
  | request
  | answer
  /-- `_activateSession`, for a new session or a resumed one -/
  | activate (snapshot : Nat)
  /-- `_refreshTurnsFromServer` goes on -/
  | land (snapshot : Nat)
  | listen
  | giveUp
  | say (i : ι)
  | sentence
  | correct (correction : α)
  /-- the stream of the turn is over, or has failed -/
  | finish (offline : Bool) (error : Option String)
  | persist (i : ι)
  /-- the head of the queue is sent, or dropped -/
  | replay
  | discard
  | leave
  deriving DecidableEq

variable {ι α : Type} [DecidableEq ι]

/-- The transcript after `persist_turn`. -/
def appended (cap : Int) (turns : List (Role × Line ι)) (i : ι) : List (Role × Line ι) :=
  let turns := turns ++ [(.user, .utterance i), (.assistant, .reply i)]
  if 0 < cap ∧ cap < turns.length then turns.drop (turns.length - cap.toNat) else turns

namespace World

def init (session : Int) : World ι α := ⟨session, .new, none, [], [], [], [], [], 0, []⟩

/-- A turn is persisted once, whichever request comes first. -/
def persist (cap : Int) (w : World ι α) (i : ι) : World ι α :=
  if i ∈ w.persisted then w
  else { w with server := appended cap w.server i, persisted := i :: w.persisted }

/-- What `_refreshTurnsFromServer` tests behind its await. -/
def Refreshes (w : World ι α) : Prop :=
  w.state.sessionId = some w.session ∧ w.state.status = .idle

instance (w : World ι α) : Decidable w.Refreshes := by
  unfold Refreshes
  infer_instance

def activate (w : World ι α) (turns : List (Role × Line ι)) : World ι α :=
  { w with state :=
    { sessionId := some w.session
      turns := if turns.isEmpty then [⟨.assistant, .opening, none⟩]
        else turns.map fun turn => ⟨turn.1, turn.2, none⟩
      status := .idle
      error := none } }

def refresh (w : World ι α) (turns : List (Role × Line ι)) : World ι α :=
  if w.Refreshes then { w with state := { w.state with turns := refreshTurns w.state.turns turns } }
  else w

end World

def step (cap : Int) (w : World ι α) : Action ι α → Option (World ι α)
  | .request =>
    -- a resume asks before there is a session, a refresh while it is idle
    if w.state.sessionId ≠ none ∧ w.state.status ≠ .idle then none
    else some { w with fetches := w.fetches + 1 }
  | .answer =>
    if w.fetches = 0 then none
    else some { w with fetches := w.fetches - 1, snapshots := w.snapshots ++ [w.server] }
  | .activate k =>
    if w.state.sessionId ≠ none then none
    else w.snapshots[k]?.map fun turns =>
      { w.activate turns with snapshots := w.snapshots.eraseIdx k }
  | .land k => w.snapshots[k]?.map fun turns =>
      { w.refresh turns with snapshots := w.snapshots.eraseIdx k }
  | .listen =>
    if w.state.sessionId = none ∨ w.state.status ≠ .idle then none
    else some { w with state := w.state.listen }
  | .giveUp =>
    if w.state.status = .listening then some { w with state := w.state.withStatus .idle }
    else none
  | .say i =>
    if w.state.sessionId = none ∨ w.current ≠ none ∨ i ∈ w.said then none
    else some { w with
      state := w.state.say (.utterance i)
      current := some i
      said := i :: w.said
      requests := i :: w.requests }
  | .sentence => w.current.map fun i => { w with state := w.state.setAssistantReply (.reply i) }
  | .correct c => w.current.map fun i => { w with state := w.state.attachCorrection (i, c) }
  | .finish offline error => w.current.map fun i =>
      { w with
        state := w.state.fail error
        current := none
        queue := if offline then w.queue ++ [i] else w.queue }
  | .persist i =>
    if i ∈ w.requests then some { w.persist cap i with requests := w.requests.erase i } else none
  | .replay =>
    match w.queue with
    | [] => none
    | i :: rest => some { w.persist cap i with queue := rest }
  | .discard =>
    match w.queue with
    | [] => none
    | _ :: rest => some { w with queue := rest }
  | .leave => some { w with state := .new, current := none }

/-! ## The property and its condition -/

/-- Every correction is shown at the utterance it was computed for. -/
def Shown (turns : List (ConversationTurn (Line ι) (ι × α))) : Prop :=
  ∀ turn ∈ turns, ∀ c, turn.correction = some c →
    turn.role = .user ∧ turn.content = .utterance c.1

/-- The corrections of the turns that the server still has are still shown. -/
def Kept (turns : List (ConversationTurn (Line ι) (ι × α))) (server : List (Role × Line ι))
    (turns' : List (ConversationTurn (Line ι) (ι × α))) : Prop :=
  ∀ turn ∈ turns, ∀ c, turn.correction = some c → (.user, .utterance c.1) ∈ server →
    ∃ turn' ∈ turns', turn'.content = .utterance c.1 ∧ turn'.correction = some c

/-- After a refresh the corrections are where they belong, and none is lost. -/
def CorrectionsStay (s : World ι α) (a : Action ι α) (t : World ι α) : Prop :=
  match a with
  | .land _ => Shown t.state.turns ∧ Kept s.state.turns s.server t.state.turns
  | _ => True

/-- A corrected turn does not face another utterance in the snapshot, and stands there at its own
position if the server still has it. -/
structure AlignedWith (turns : List (ConversationTurn (Line ι) (ι × α)))
    (server snapshot : List (Role × Line ι)) : Prop where
  faces : ∀ k turn c m, turns[headOffset turns snapshot + k]? = some turn →
    turn.correction = some c → snapshot[k]? = some m → m.1 = turn.role → m.2 = turn.content
  stands : ∀ turn ∈ turns, ∀ c, turn.correction = some c → (turn.role, turn.content) ∈ server →
    ∃ k, snapshot[k]? = some (turn.role, turn.content) ∧
      turns[headOffset turns snapshot + k]? = some turn

/-- The transcript that a refresh puts on the screen is aligned with the corrected turns there. -/
def Aligned (s : World ι α) (a : Action ι α) (_ : World ι α) : Prop :=
  match a with
  | .land k => s.Refreshes → ∀ snapshot, s.snapshots[k]? = some snapshot →
      AlignedWith s.state.turns s.server snapshot
  | _ => True

/-- The turns on the screen, behind the opening bubble, are the first ones of the transcript that
is put there. -/
def Prefixed (s : World ι α) (a : Action ι α) (_ : World ι α) : Prop :=
  match a with
  | .land k => s.Refreshes → ∀ snapshot, s.snapshots[k]? = some snapshot →
      (s.state.turns.drop (headOffset s.state.turns snapshot)).map
        (fun turn => (turn.role, turn.content)) <+: snapshot
  | _ => True

/-! ## The server's transcript -/

/-- A turn of the transcript as the backend stores it. -/
def message (text : Line ι → String) (turn : Role × Line ι) : Conversation.Message :=
  ⟨match turn.1 with
    | .user => Conversation.roleUser
    | .assistant => Conversation.roleAssistant, text turn.2⟩

omit [DecidableEq ι] in
/-- The transcript grows as the backend's `persist_turn` makes it grow. -/
theorem map_message_appended (text : Line ι → String) (cap : Int) (turns : List (Role × Line ι))
    (i : ι) :
    (appended cap turns i).map (message text) =
      Conversation.appendTurn cap (turns.map (message text)) (text (.utterance i))
        (text (.reply i)) := by
  have hmessages :
      (turns ++ [(Role.user, Line.utterance i), (Role.assistant, Line.reply i)]).map (message text) =
        turns.map (message text) ++ [⟨Conversation.roleUser, text (.utterance i)⟩,
          ⟨Conversation.roleAssistant, text (.reply i)⟩] := List.map_append
  rw [appended, Conversation.appendTurn, ← hmessages, List.length_map, apply_ite (List.map _),
    List.map_drop]

/-! ## The turns of the screen -/

section turns

variable {γ κ : Type}

theorem carried_eq_some_iff {localTurns : List (ConversationTurn γ κ)} {i : Nat} {role : Role}
    {c : κ} :
    carried localTurns i role = some c ↔
      ∃ turn, localTurns[i]? = some turn ∧ turn.role = role ∧ turn.correction = some c := by
  rw [carried]
  cases hturn : localTurns[i]? with
  | none => simp
  | some turn =>
    by_cases hrole : turn.role = role
    · simp [hrole]
    · simp [hrole]

theorem mem_refreshTurns_iff {localTurns : List (ConversationTurn γ κ)}
    {serverTurns : List (Role × γ)} {turn : ConversationTurn γ κ} :
    turn ∈ refreshTurns localTurns serverTurns ↔
      turn ∈ localTurns.take (headOffset localTurns serverTurns) ∨
        ∃ k m, serverTurns[k]? = some m ∧
          turn = ⟨m.1, m.2, carried localTurns (headOffset localTurns serverTurns + k) m.1⟩ := by
  rw [refreshTurns, List.mem_append, List.mem_mapIdx]
  refine or_congr_right ⟨?_, ?_⟩
  · intro ⟨k, hk, hturn⟩
    exact ⟨k, serverTurns[k], List.getElem?_eq_getElem hk, hturn.symm⟩
  · intro ⟨k, m, hm, hturn⟩
    obtain ⟨hk, rfl⟩ := List.getElem?_eq_some_iff.mp hm
    exact ⟨k, hk, hturn.symm⟩

/-- What stays in front of the server's turns is an assistant's. -/
theorem role_of_mem_take {localTurns : List (ConversationTurn γ κ)}
    {serverTurns : List (Role × γ)} {turn : ConversationTurn γ κ}
    (h : turn ∈ localTurns.take (headOffset localTurns serverTurns)) : turn.role = .assistant := by
  rw [headOffset] at h
  split_ifs at h with hopening
  · cases localTurns with
    | nil => cases h
    | cons head rest =>
      have hhead := (Bool.and_eq_true_iff.mp hopening).1
      rw [List.take_succ_cons, List.take_zero, List.mem_singleton] at h
      exact h ▸ of_decide_eq_true hhead
  · cases h

/-- Behind the last learner turn, only the reply changes. -/
theorem replyTurns_append (content : γ) (before rest : List (ConversationTurn γ κ))
    {turn : ConversationTurn γ κ} (hturn : turn.role = .user)
    (hrest : ∀ u ∈ rest, u.role = .assistant ∧ u.correction = none) :
    ∃ rest', replyTurns content (before ++ turn :: rest) = before ++ turn :: rest' ∧
      ∀ u ∈ rest', u.role = .assistant ∧ u.correction = none := by
  rcases List.eq_nil_or_concat' rest with rfl | ⟨rest, last, rfl⟩
  · refine ⟨[⟨.assistant, content, none⟩], ?_, ?_⟩
    · have huser : ¬turn.role = .assistant := by
        rw [hturn]
        nofun
      simp only [replyTurns, List.getLast?_append, List.getLast?_singleton, Option.some_or, huser,
        if_false, List.append_assoc, List.cons_append, List.nil_append]
    · intro u hu
      rw [List.mem_singleton.mp hu]
      exact ⟨rfl, rfl⟩
  · have hlast := (hrest last (List.mem_append_right _ (List.mem_singleton_self last))).1
    refine ⟨rest ++ [⟨.assistant, content, none⟩], ?_, ?_⟩
    · have hend : before ++ turn :: (rest ++ [last]) = (before ++ turn :: rest) ++ [last] := by
        rw [List.append_assoc, List.cons_append]
      rw [hend, replyTurns, List.getLast?_concat]
      simp only [hlast, if_true]
      rw [List.dropLast_concat, List.append_assoc, List.cons_append]
    · intro u hu
      rcases List.mem_append.mp hu with hu | hu
      · exact hrest u (List.mem_append_left _ hu)
      · rw [List.mem_singleton.mp hu]
        exact ⟨rfl, rfl⟩

theorem correctFirst_append (c : κ) (before : List (ConversationTurn γ κ))
    {turn : ConversationTurn γ κ} (hturn : turn.role = .user) :
    ∀ rest : List (ConversationTurn γ κ), (∀ u ∈ rest, u.role = .assistant) →
      correctFirst c (rest ++ turn :: before) = rest ++ { turn with correction := some c } :: before
  | [], _ => by rw [List.nil_append, correctFirst, if_pos hturn]; rfl
  | u :: rest, h => by
    have hu : ¬u.role = .user := by
      rw [h u List.mem_cons_self]
      nofun
    rw [List.cons_append, correctFirst, if_neg hu, List.cons_append,
      correctFirst_append c before hturn rest fun v hv => h v (List.mem_cons_of_mem u hv)]

/-- A correction goes to the last learner turn. -/
theorem correctTurns_append (c : κ) (before rest : List (ConversationTurn γ κ))
    {turn : ConversationTurn γ κ} (hturn : turn.role = .user)
    (hrest : ∀ u ∈ rest, u.role = .assistant) :
    correctTurns c (before ++ turn :: rest) =
      before ++ { turn with correction := some c } :: rest := by
  rw [correctTurns, List.reverse_append, List.reverse_cons, List.append_assoc,
    List.singleton_append, correctFirst_append c before.reverse hturn rest.reverse
      fun u hu => hrest u (List.mem_reverse.mp hu),
    List.reverse_append, List.reverse_cons, List.reverse_reverse, List.reverse_reverse,
    List.append_assoc, List.singleton_append]

end turns

/-! ## The invariant -/

/-- The turn under way is the last learner turn, and nothing refreshes before it is over. -/
def OnScreen (i : ι) (state : ConversationState (Line ι) (ι × α)) : Prop :=
  state.sessionId ≠ none ∧ (state.status = .thinking ∨ state.status = .speaking) ∧
    ∃ before turn rest, state.turns = before ++ turn :: rest ∧ turn.role = .user ∧
      turn.content = .utterance i ∧ ∀ u ∈ rest, u.role = .assistant ∧ u.correction = none

structure Sound (s : World ι α) : Prop where
  shown : Shown s.state.turns
  current : ∀ i, s.current = some i → OnScreen i s.state

section sound

variable {cap : Int} {s t : World ι α}

omit [DecidableEq ι] in
theorem sound_init (session : Int) : Sound (World.init session : World ι α) := ⟨nofun, nofun⟩

omit [DecidableEq ι] in
theorem shown_of_correction_eq_none {turns : List (ConversationTurn (Line ι) (ι × α))}
    (h : ∀ turn ∈ turns, turn.correction = none) : Shown turns := by
  intro turn hturn c hc
  rw [h turn hturn] at hc
  cases hc

omit [DecidableEq ι] in
theorem sound_say (hs : Sound s) (hsession : s.state.sessionId ≠ none) (i : ι)
    (said requests : List ι) :
    Sound { s with
      state := s.state.say (.utterance i), current := some i, said := said, requests := requests } := by
  refine ⟨fun turn hturn c hc => ?_, fun j hj => ?_⟩
  · rcases List.mem_append.mp hturn with hturn | hturn
    · exact hs.shown turn hturn c hc
    · rw [List.mem_singleton.mp hturn] at hc
      cases hc
  · obtain rfl := Option.some.inj hj
    exact ⟨hsession, .inl rfl, s.state.turns, ⟨.user, .utterance i, none⟩, [], rfl, rfl, rfl, nofun⟩

omit [DecidableEq ι] in
theorem sound_sentence (hs : Sound s) {i : ι} (hi : s.current = some i) :
    Sound { s with state := s.state.setAssistantReply (.reply i) } := by
  obtain ⟨hsession, -, before, turn, rest, hturns, huser, hcontent, hrest⟩ := hs.current i hi
  obtain ⟨rest', hreply, hrest'⟩ := replyTurns_append (.reply i) before rest huser hrest
  have hturns' : (s.state.setAssistantReply (.reply i)).turns = before ++ turn :: rest' := by
    rw [ConversationState.setAssistantReply, hturns, hreply]
  refine ⟨?_, fun j hj => ?_⟩
  · intro u hu c hc
    rw [show _ = _ from hturns', List.mem_append, List.mem_cons] at hu
    have hmem : u ∈ s.state.turns := by
      rw [hturns, List.mem_append, List.mem_cons]
      rcases hu with hu | hu | hu
      · exact .inl hu
      · exact .inr (.inl hu)
      · rw [(hrest' u hu).2] at hc
        cases hc
    exact hs.shown u hmem c hc
  · rw [show s.current = _ from hj] at hi
    obtain rfl := Option.some.inj hi
    exact ⟨hsession, .inr rfl, before, turn, rest', hturns', huser, hcontent, hrest'⟩

omit [DecidableEq ι] in
theorem sound_correct (hs : Sound s) {i : ι} (hi : s.current = some i) (c : α) :
    Sound { s with state := s.state.attachCorrection (i, c) } := by
  obtain ⟨hsession, hstatus, before, turn, rest, hturns, huser, hcontent, hrest⟩ := hs.current i hi
  have hturns' : (s.state.attachCorrection (i, c)).turns =
      before ++ { turn with correction := some (i, c) } :: rest := by
    rw [ConversationState.attachCorrection, hturns,
      correctTurns_append (i, c) before rest huser fun u hu => (hrest u hu).1]
  refine ⟨?_, fun j hj => ?_⟩
  · intro u hu c' hc
    rw [show _ = _ from hturns', List.mem_append, List.mem_cons] at hu
    rcases hu with hu | rfl | hu
    · exact hs.shown u (hturns ▸ List.mem_append_left _ hu) c' hc
    · obtain rfl := Option.some.inj hc
      exact ⟨huser, hcontent⟩
    · rw [(hrest u hu).2] at hc
      cases hc
  · rw [show s.current = _ from hj] at hi
    obtain rfl := Option.some.inj hi
    exact ⟨hsession, hstatus, before, { turn with correction := some (j, c) }, rest, hturns', huser,
      hcontent, hrest⟩

omit [DecidableEq ι] in
theorem sound_of_shown (hshown : Shown t.state.turns) (h : t.current = none) : Sound t :=
  ⟨hshown, fun i hi => by rw [h] at hi; cases hi⟩

theorem sound_persist (hs : Sound s) (cap : Int) (i : ι) : Sound (s.persist cap i) := by
  rw [World.persist]
  split_ifs
  · exact hs
  · exact ⟨hs.shown, hs.current⟩

omit [DecidableEq ι] in
theorem shown_activate (w : World ι α) (turns : List (Role × Line ι)) :
    Shown (w.activate turns).state.turns := by
  refine shown_of_correction_eq_none fun turn hturn => ?_
  simp only [World.activate] at hturn
  split_ifs at hturn
  · rw [List.mem_singleton.mp hturn]
  · obtain ⟨m, -, rfl⟩ := List.mem_map.mp hturn
    rfl

omit [DecidableEq ι] in
/-- No turn is under way where nothing is on the screen, or where it listens or is idle. -/
theorem current_eq_none (hs : Sound s)
    (h : s.state.sessionId = none ∨ s.state.status = .idle ∨ s.state.status = .listening) :
    s.current = none := by
  cases hi : s.current with
  | none => rfl
  | some i =>
    obtain ⟨hsession, hstatus, -⟩ := hs.current i hi
    rcases h with h | h | h
    · exact absurd h hsession
    · rw [h] at hstatus
      rcases hstatus with hstatus | hstatus <;> cases hstatus
    · rw [h] at hstatus
      rcases hstatus with hstatus | hstatus <;> cases hstatus

omit [DecidableEq ι] in
/-- A corrected turn is determined by its correction. -/
theorem eq_of_shown {turns : List (ConversationTurn (Line ι) (ι × α))} (h : Shown turns)
    {turn : ConversationTurn (Line ι) (ι × α)} (hturn : turn ∈ turns) {c : ι × α}
    (hc : turn.correction = some c) : turn = ⟨.user, .utterance c.1, some c⟩ := by
  obtain ⟨hrole, hcontent⟩ := h turn hturn c hc
  rw [← hrole, ← hcontent, ← hc]

omit [DecidableEq ι] in
theorem shown_refreshTurns {turns : List (ConversationTurn (Line ι) (ι × α))}
    {server snapshot : List (Role × Line ι)} (hs : Shown turns)
    (h : AlignedWith turns server snapshot) : Shown (refreshTurns turns snapshot) := by
  intro turn hturn c hc
  rcases mem_refreshTurns_iff.mp hturn with hturn | ⟨k, m, hm, rfl⟩
  · exact hs turn (List.mem_of_mem_take hturn) c hc
  · obtain ⟨turn, hlocal, hrole, hc⟩ := carried_eq_some_iff.mp hc
    obtain ⟨huser, hcontent⟩ := hs turn (List.mem_of_getElem? hlocal) c hc
    exact ⟨hrole.symm.trans huser, (h.faces k turn c m hlocal hc hm hrole.symm).trans hcontent⟩

omit [DecidableEq ι] in
theorem kept_refreshTurns {turns : List (ConversationTurn (Line ι) (ι × α))}
    {server snapshot : List (Role × Line ι)} (hs : Shown turns)
    (h : AlignedWith turns server snapshot) : Kept turns server (refreshTurns turns snapshot) := by
  intro turn hturn c hc hserver
  obtain rfl := eq_of_shown hs hturn hc
  obtain ⟨k, hm, hlocal⟩ := h.stands _ hturn c hc hserver
  refine ⟨⟨.user, .utterance c.1, some c⟩, mem_refreshTurns_iff.mpr (.inr ⟨k, _, hm, ?_⟩), rfl, rfl⟩
  have hcarried : carried turns (headOffset turns snapshot + k) .user = some c :=
    carried_eq_some_iff.mpr ⟨_, hlocal, rfl, rfl⟩
  rw [hcarried]

omit [DecidableEq ι] in
/-- Corrections that belong where they are after the refresh were aligned before it. -/
theorem aligned_of_refreshTurns {turns : List (ConversationTurn (Line ι) (ι × α))}
    {server snapshot : List (Role × Line ι)} (hs : Shown turns)
    (hshown : Shown (refreshTurns turns snapshot))
    (hkept : Kept turns server (refreshTurns turns snapshot)) :
    AlignedWith turns server snapshot := by
  refine ⟨fun k turn c m hlocal hc hm hrole => ?_, fun turn hturn c hc hserver => ?_⟩
  · have hcarried := carried_eq_some_iff.mpr ⟨turn, hlocal, hrole.symm, hc⟩
    obtain ⟨-, hcontent⟩ := hshown _ (mem_refreshTurns_iff.mpr (.inr ⟨k, m, hm, rfl⟩)) c hcarried
    exact hcontent.trans (hs turn (List.mem_of_getElem? hlocal) c hc).2.symm
  · obtain rfl := eq_of_shown hs hturn hc
    obtain ⟨turn', hturn', hcontent, hc'⟩ := hkept _ hturn c hc hserver
    rcases mem_refreshTurns_iff.mp hturn' with hhead | ⟨k, m, hm, rfl⟩
    · -- what stays in front is not corrected
      have huser := (hs turn' (List.mem_of_mem_take hhead) c hc').1
      rw [role_of_mem_take hhead] at huser
      cases huser
    · obtain ⟨turn', hlocal, hrole, hc'⟩ := carried_eq_some_iff.mp hc'
      obtain rfl := eq_of_shown hs (List.mem_of_getElem? hlocal) hc'
      refine ⟨k, ?_, hlocal⟩
      rw [hm, ← hcontent, show Role.user = _ from hrole]

omit [DecidableEq ι] in
theorem refresh_of_refreshes {w : World ι α} (h : w.Refreshes) (turns : List (Role × Line ι)) :
    w.refresh turns = { w with
      state := { w.state with turns := refreshTurns w.state.turns turns } } := if_pos h

omit [DecidableEq ι] in
theorem refresh_of_not_refreshes {w : World ι α} (h : ¬w.Refreshes)
    (turns : List (Role × Line ι)) : w.refresh turns = w := if_neg h

/-- The corrections stay in a refresh exactly where the snapshot is aligned with them. -/
theorem correctionsStay_iff_aligned (hs : Sound s) {a : Action ι α}
    (hstep : step cap s a = some t) : CorrectionsStay s a t ↔ Aligned s a t := by
  cases a with
  | land k =>
    simp only [step] at hstep
    obtain ⟨snapshot, hsnapshot, rfl⟩ := Option.map_eq_some_iff.mp hstep
    by_cases hrefreshes : s.Refreshes
    · rw [refresh_of_refreshes hrefreshes]
      constructor
      · intro ⟨hshown, hkept⟩ _ snapshot' hsnapshot'
        rw [hsnapshot] at hsnapshot'
        obtain rfl := Option.some.inj hsnapshot'
        exact aligned_of_refreshTurns hs.shown hshown hkept
      · intro h
        have haligned := h hrefreshes snapshot hsnapshot
        exact ⟨shown_refreshTurns hs.shown haligned, kept_refreshTurns hs.shown haligned⟩
    · rw [refresh_of_not_refreshes hrefreshes]
      refine iff_of_true ⟨hs.shown, fun turn hturn c hc _ => ?_⟩ fun h => absurd h hrefreshes
      exact ⟨turn, hturn, (hs.shown turn hturn c hc).2, hc⟩
  | _ => exact Iff.rfl

omit [DecidableEq ι] in
/-- A transcript that continues the turns on the screen is aligned with them. -/
theorem aligned_of_prefixed (hs : Sound s) {a : Action ι α} (h : Prefixed s a t) :
    Aligned s a t := by
  cases a with
  | land k =>
    intro hrefreshes snapshot hsnapshot
    have hcontinues := List.prefix_iff_getElem?.mp (h hrefreshes snapshot hsnapshot)
    have hget : ∀ k turn, s.state.turns[headOffset s.state.turns snapshot + k]? = some turn →
        snapshot[k]? = some (turn.role, turn.content) := by
      intro k turn hlocal
      rw [← List.getElem?_drop] at hlocal
      obtain ⟨hk, rfl⟩ := List.getElem?_eq_some_iff.mp hlocal
      rw [hcontinues k (by rwa [List.length_map]), List.getElem_map]
    refine ⟨fun k turn c m hlocal _ hm _ => ?_, fun turn hturn c hc _ => ?_⟩
    · rw [hget k turn hlocal] at hm
      obtain rfl := Option.some.inj hm
      rfl
    · rw [← List.take_append_drop (headOffset s.state.turns snapshot) s.state.turns] at hturn
      rcases List.mem_append.mp hturn with hhead | hbehind
      · have huser := (hs.shown turn (List.mem_of_mem_take hhead) c hc).1
        rw [role_of_mem_take hhead] at huser
        cases huser
      · obtain ⟨k, hk⟩ := List.mem_iff_getElem?.mp hbehind
        rw [List.getElem?_drop] at hk
        exact ⟨k, hget k turn hk, hk⟩
  | _ => trivial

theorem sound_land (hs : Sound s) {k : Nat} (h : Aligned s (.land k) t)
    (hstep : step cap s (.land k) = some t) : Sound t := by
  have hstay := (correctionsStay_iff_aligned hs hstep).mpr h
  simp only [step] at hstep
  obtain ⟨snapshot, -, rfl⟩ := Option.map_eq_some_iff.mp hstep
  by_cases hrefreshes : s.Refreshes
  · have hnone := current_eq_none hs (.inr (.inl hrefreshes.2))
    refine sound_of_shown hstay.1 ?_
    rw [refresh_of_refreshes hrefreshes]
    exact hnone
  · rw [refresh_of_not_refreshes hrefreshes]
    exact ⟨hs.shown, hs.current⟩

theorem sound_step {a : Action ι α} (hs : Sound s) (h : Aligned s a t)
    (hstep : step cap s a = some t) : Sound t := by
  cases a with
  | land k => exact sound_land hs h hstep
  | request | answer =>
    simp only [step] at hstep
    split_ifs at hstep
    obtain rfl := Option.some.inj hstep
    exact ⟨hs.shown, hs.current⟩
  | activate k =>
    simp only [step] at hstep
    split_ifs at hstep with hsession
    obtain ⟨turns, -, rfl⟩ := Option.map_eq_some_iff.mp hstep
    have hnone := current_eq_none hs (.inl (not_ne_iff.mp hsession))
    exact sound_of_shown (shown_activate s turns) hnone
  | listen =>
    simp only [step] at hstep
    split_ifs at hstep with hbusy
    obtain rfl := Option.some.inj hstep
    have hnone := current_eq_none hs (.inr (.inl (not_ne_iff.mp (not_or.mp hbusy).2)))
    exact sound_of_shown hs.shown hnone
  | giveUp =>
    simp only [step] at hstep
    split_ifs at hstep with hlistening
    obtain rfl := Option.some.inj hstep
    have hnone := current_eq_none hs (.inr (.inr hlistening))
    exact sound_of_shown hs.shown hnone
  | say i =>
    simp only [step] at hstep
    split_ifs at hstep with hbusy
    obtain rfl := Option.some.inj hstep
    exact sound_say hs (not_or.mp hbusy).1 i _ _
  | sentence =>
    simp only [step] at hstep
    obtain ⟨i, hi, rfl⟩ := Option.map_eq_some_iff.mp hstep
    exact sound_sentence hs hi
  | correct c =>
    simp only [step] at hstep
    obtain ⟨i, hi, rfl⟩ := Option.map_eq_some_iff.mp hstep
    exact sound_correct hs hi c
  | finish offline error =>
    simp only [step] at hstep
    obtain ⟨i, -, rfl⟩ := Option.map_eq_some_iff.mp hstep
    exact sound_of_shown hs.shown rfl
  | persist i =>
    simp only [step] at hstep
    split_ifs at hstep
    obtain rfl := Option.some.inj hstep
    have hpersist := sound_persist hs cap i
    exact ⟨hpersist.shown, hpersist.current⟩
  | replay =>
    simp only [step] at hstep
    split at hstep
    · cases hstep
    · rename_i i _ _
      obtain rfl := Option.some.inj hstep
      have hpersist := sound_persist hs cap i
      exact ⟨hpersist.shown, hpersist.current⟩
  | discard =>
    simp only [step] at hstep
    split at hstep
    · cases hstep
    · obtain rfl := Option.some.inj hstep
      exact ⟨hs.shown, hs.current⟩
  | leave =>
    obtain rfl := Option.some.inj hstep
    exact sound_of_shown nofun rfl

end sound

/-- As long as the screen is behind the server and never beside it, the corrections stay. -/
theorem correctionsStay_of_prefixed (cap session : Int) (as : List (Action ι α))
    (h : Along (step cap) Prefixed (World.init session) as) :
    Along (step cap) CorrectionsStay (World.init session : World ι α) as :=
  along_of_invariant (I := Sound) (G := Prefixed)
    (fun _ _ _ hs hg hstep =>
      have haligned := aligned_of_prefixed hs hg
      ⟨(correctionsStay_iff_aligned hs hstep).mpr haligned, sound_step hs haligned hstep⟩)
    (sound_init session) h

end Apm.Reply.Refresh
