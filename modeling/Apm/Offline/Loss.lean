import Apm.Offline.TurnEndpoint

/-!
# What a sync drops

The refusals of `/turn` with their causes, the one refresh behind a 401, and what a run
of `sync` makes of any sequence of responses. A turn leaves the queue by an answer to
its key. That answer is a reply or a definitive refusal, unless the attempt was turned
away by a rate limiter or for its authentication, which `sync` takes for definitive too.
-/

namespace Apm.Offline

set_option autoImplicit false

/-- What refuses a turn. -/
inductive Refusal where
  | payloadTooLarge
  | authentication (message : String)
  | rateLimited (message : String)
  | requestValidation (message : String)
  | keyInFlight
  | turnInProgress
  | sessionNotFound
  | sessionEnded
  | llmProvider (message : String)
  | dataError
  | integrityError
  | unhandled
  deriving DecidableEq, Repr

def Refusal.exception : Refusal → ApiException
  | .payloadTooLarge => errorResponse .payloadTooLarge "Request body too large"
  | .authentication message => errorResponse .authentication message
  | .rateLimited message => errorResponse .rateLimited message
  | .requestValidation message => errorResponse .requestValidation message
  | .keyInFlight =>
    errorResponse .conflict "This request is already being processed; retry shortly"
  | .turnInProgress => errorResponse .conflict "A turn is already in progress for this session"
  | .sessionNotFound => errorResponse .notFound "Session not found"
  | .sessionEnded => errorResponse .conflict "Session already ended"
  | .llmProvider message => errorResponse .llmProvider message
  | .dataError => errorResponse .dataError "Invalid input"
  | .integrityError => errorResponse .integrityError "Conflicting data"
  | .unhandled => errorResponse .unhandled "Internal server error"

/-- The refusal meets every later retry of the turn by the same learner: an ended,
deleted or foreign session, or a payload that is not valid. -/
def Refusal.definitive : Refusal → Bool
  | .payloadTooLarge | .requestValidation _ | .sessionNotFound | .sessionEnded | .dataError => true
  | _ => false

/-- The response to one request for a turn. Without a normalized error body, or without
any response, the client knows the status only. -/
inductive Response where
  | reply (text : String)
  | refused (why : Refusal)
  | network (status : Int)
  deriving DecidableEq, Repr

def Response.answer : Response → Answer
  | .reply text => .ok text
  | .refused why => .error why.exception
  | .network status => .error (networkError status)

/-- How `_refreshAccessToken` ends. -/
inductive Refresh where
  | refreshed
  | notAuthenticated
  | rejected (message : String)
  | superseded
  | rateLimited (message : String)
  | unhandled
  | network (status : Int)
  deriving DecidableEq, Repr

/-- The exception of `_refreshAccessToken`, if it throws. -/
def Refresh.exception : Refresh → Option ApiException
  | .refreshed => none
  | .notAuthenticated => some ⟨401, "AuthenticationError", "Not authenticated"⟩
  | .rejected message => some ⟨401, "InvalidRefreshTokenError", message⟩
  | .superseded => some ⟨401, "AuthenticationError", "Session ended"⟩
  | .rateLimited message => some (errorResponse .rateLimited message)
  | .unhandled => some (errorResponse .unhandled "Internal server error")
  | .network status => some (networkError status)

/-- `_withRefresh`: one refresh and one retry after a 401. -/
def withRefresh (first : Response) (refresh : Refresh) (second : Response) : Answer :=
  match first.answer with
  | .ok reply => .ok reply
  | .error e =>
    if e.statusCode ≠ 401 then .error e
    else
      match refresh.exception with
      | some e => .error e
      | none => second.answer

/-- One attempt of `sync`, with the responses it meets. -/
structure Attempt where
  cancelled : Bool
  first : Response
  refresh : Refresh
  second : Response
  cancelledMeanwhile : Bool
  enqueued : List PendingTurn

def Attempt.answer (x : Attempt) : Answer := withRefresh x.first x.refresh x.second

/-- The responses in the order in which `sync` meets them. -/
def send (responses : Nat → Attempt) (_ : PendingTurn) (n : Nat) : Exchange × Nat :=
  (⟨(responses n).cancelled, (responses n).answer, (responses n).cancelledMeanwhile,
    (responses n).enqueued⟩, n + 1)

/-- The server has processed the turn, or has refused it for good. -/
def Definitive (answer : Answer) : Prop :=
  (∃ reply, answer = .ok reply) ∨ ∃ why : Refusal, why.definitive = true ∧ answer = .error why.exception

/-- Sessions end and are deleted, and no new one takes the id of an old one. -/
def SessionsAge (w w' : Server) : Prop :=
  ∀ sessionId session', w'.sessions sessionId = some session' →
    ∃ session, w.sessions sessionId = some session ∧ session'.userId = session.userId ∧
      (session.ended = true → session'.ended = true)

/-- What `_prepare` refuses is definitive: it refuses the turn ever after. -/
theorem prepare_definitive {S : Setup} {w w' : Server} {t : PendingTurn} {e : ApiException}
    (h : prepare S w t = some e) (hage : SessionsAge w w') :
    (∃ why : Refusal, why.definitive = true ∧ e = why.exception) ∧ prepare S w' t ≠ none := by
  constructor
  · rw [prepare] at h
    split at h
    · exact ⟨.sessionNotFound, rfl, (Option.some.inj h).symm⟩
    · split at h
      · exact ⟨.sessionNotFound, rfl, (Option.some.inj h).symm⟩
      · split at h
        · exact ⟨.sessionEnded, rfl, (Option.some.inj h).symm⟩
        · cases h
  · intro hnone
    cases hsession' : w'.sessions t.sessionId with
    | none => simp [prepare, hsession'] at hnone
    | some session' =>
      obtain ⟨session, hsession, howner, hended⟩ := hage _ _ hsession'
      rw [prepare, hsession'] at hnone
      by_cases howned : session'.userId = S.userId
      · by_cases hend : session'.ended = true
        · simp [howned, hend] at hnone
        · have hopen : session.ended = false := by
            rw [← Bool.not_eq_true]
            exact fun he => hend (hended he)
          rw [prepare, hsession] at h
          simp [← howner, howned, hopen] at h
      · simp [howned] at hnone

/-- Turns leave the queue by an answer to their key, and every such answer is definitive. A key
stands for its turn, as it does for `remove`: it is the session and the microsecond of one attempt. -/
structure Lossless (queue : List PendingTurn) (s : Sync) : Prop where
  left : ∀ t ∈ queue, t ∉ s.queue → ∃ r ∈ s.removed, r.1.idempotencyKey = t.idempotencyKey
  removed : ∀ r ∈ s.removed, Definitive r.2

/-- The response is a rate limiter's refusal or one for the authentication. -/
def Response.turnsAway : Response → Bool
  | .refused (.rateLimited _) | .refused (.authentication _) => true
  | _ => false

/-- A 401. -/
def Response.unauthorized : Response → Bool
  | .refused (.authentication _) => true
  | .network status => status = 401
  | _ => false

def Refresh.turnsAway : Refresh → Bool
  | .notAuthenticated | .rejected _ | .superseded | .rateLimited _ => true
  | _ => false

/-- The attempt ends at a rate limiter, or the learner is not authenticated after the
one refresh. -/
def Attempt.turnedAway (x : Attempt) : Bool :=
  if x.first.unauthorized then
    x.refresh.turnsAway || x.refresh.exception.isNone && x.second.turnsAway
  else x.first.turnsAway

/-- `sync` returns at the attempt. -/
def Attempt.stops (x : Attempt) : Bool :=
  x.cancelled || match x.answer with
    | .ok _ => x.cancelledMeanwhile
    | .error e => retryLater e

/-- The exception of a rate limiter, or of the authentication. -/
structure ApiException.TurnsAway (e : ApiException) : Prop where
  status : e.statusCode = 401 ∨ e.statusCode = 429
  body : e.code ≠ "network"

/-- A normalized error body does not read as a failure of the network. -/
theorem errorResponse_code_ne (e : ServerError) (message : String) :
    (errorResponse e message).code ≠ "network" := by
  show e.code ≠ "network"
  cases e <;> decide

theorem ApiException.TurnsAway.not_retryLater {e : ApiException} (h : e.TurnsAway) :
    retryLater e = false := by
  have hbody := h.body
  rcases h.status with hstatus | hstatus <;> simp [retryLater, hstatus, hbody]

theorem ApiException.TurnsAway.not_definitive {e : ApiException} (h : e.TurnsAway) :
    ¬Definitive (.error e) := by
  rintro (⟨reply, hreply⟩ | ⟨why, hdefinitive, he⟩)
  · cases hreply
  · cases he
    have hstatus := h.status
    cases why with
    | authentication | rateLimited | keyInFlight | turnInProgress | llmProvider | integrityError
    | unhandled => cases hdefinitive
    | payloadTooLarge | requestValidation | sessionNotFound | sessionEnded | dataError =>
      rcases hstatus with hstatus | hstatus <;> cases hstatus

/-- An answer that is no reply is definitive, is retried later or turns the turn away. -/
theorem Response.answer_cases (r : Response) :
    if r.turnsAway then ∃ e, r.answer = .error e ∧ e.TurnsAway
    else Definitive r.answer ∨ ∃ e, r.answer = .error e ∧ retryLater e = true := by
  cases r with
  | reply text => exact .inl (.inl ⟨text, rfl⟩)
  | network status => exact .inr ⟨_, rfl, by simp [retryLater, networkError]⟩
  | refused why =>
    cases why with
    | authentication message => exact ⟨_, rfl, .inl rfl, errorResponse_code_ne _ _⟩
    | rateLimited message => exact ⟨_, rfl, .inr rfl, errorResponse_code_ne _ _⟩
    | payloadTooLarge | requestValidation | sessionNotFound | sessionEnded | dataError =>
      exact .inl (.inr ⟨_, rfl, rfl⟩)
    | keyInFlight | turnInProgress | llmProvider | integrityError | unhandled =>
      exact .inr ⟨_, rfl, rfl⟩

theorem Refresh.exception_cases {r : Refresh} {e : ApiException} (h : r.exception = some e) :
    if r.turnsAway then e.TurnsAway else retryLater e = true := by
  cases r with
  | refreshed => cases h
  | notAuthenticated => cases h; exact ⟨.inl rfl, by decide⟩
  | rejected message => cases h; exact ⟨.inl rfl, by simp⟩
  | superseded => cases h; exact ⟨.inl rfl, by decide⟩
  | rateLimited message => cases h; exact ⟨.inr rfl, errorResponse_code_ne _ _⟩
  | unhandled => cases h; rfl
  | network status => cases h; simp [Refresh.turnsAway, retryLater, networkError]

theorem Attempt.answer_eq (x : Attempt) :
    x.answer = if x.first.unauthorized then
        match x.refresh.exception with
        | some e => .error e
        | none => x.second.answer
      else x.first.answer := by
  rw [Attempt.answer, withRefresh]
  cases x.first with
  | reply text => rfl
  | refused why => cases why <;> rfl
  | network status =>
    by_cases h : status = 401
    · simp [Response.answer, Response.unauthorized, networkError, h]
    · simp [Response.answer, Response.unauthorized, networkError, h]

/-- An attempt that is not turned away is answered for good, or the turn is kept. -/
theorem Attempt.answer_cases (x : Attempt) :
    if x.turnedAway then ∃ e, x.answer = .error e ∧ e.TurnsAway
    else Definitive x.answer ∨ ∃ e, x.answer = .error e ∧ retryLater e = true := by
  rw [x.answer_eq, Attempt.turnedAway]
  by_cases hfirst : x.first.unauthorized = true
  · rw [if_pos hfirst, if_pos hfirst]
    cases he : x.refresh.exception with
    | some e =>
      have hcases := Refresh.exception_cases he
      by_cases haway : x.refresh.turnsAway = true
      · rw [if_pos haway] at hcases
        simpa [haway] using hcases
      · rw [if_neg haway] at hcases
        simpa [haway] using .inr hcases
    | none =>
      have hrefreshed : x.refresh.turnsAway = false := by
        cases hr : x.refresh with
        | refreshed | unhandled | network => rfl
        | notAuthenticated | rejected | superseded | rateLimited => rw [hr] at he; cases he
      simpa [hrefreshed] using x.second.answer_cases
  · rw [if_neg hfirst, if_neg hfirst]
    exact x.first.answer_cases

variable {responses : Nat → Attempt}

/-- One turn of the loop: it returns at the attempt, or drops the turn and goes on. -/
theorem syncFrom_send_cons (t : PendingTurn) (rest : List PendingTurn) (n : Nat) (s : Sync) :
    ((responses n).stops = true ∧
      (syncFrom (send responses) (t :: rest) n s).2.removed = s.removed ∧
      ∃ turns, (syncFrom (send responses) (t :: rest) n s).2.queue = s.queue ++ turns) ∨
    ((responses n).stops = false ∧ ∃ s' : Sync,
      syncFrom (send responses) (t :: rest) n s = syncFrom (send responses) rest (n + 1) s' ∧
      s'.removed = s.removed ++ [(t, (responses n).answer)] ∧
      s'.queue = (s.queue ++ (responses n).enqueued).filter
        fun p => p.idempotencyKey ≠ t.idempotencyKey) := by
  rw [syncFrom, send, Attempt.stops]
  by_cases hcancelled : (responses n).cancelled = true
  · left
    simp only [hcancelled, if_true, Bool.true_or, true_and]
    exact ⟨[], (List.append_nil _).symm⟩
  · simp only [Bool.not_eq_true] at hcancelled
    simp only [hcancelled, Bool.false_eq_true, if_false, Bool.false_or]
    cases hanswer : (responses n).answer with
    | ok reply =>
      by_cases hmeanwhile : (responses n).cancelledMeanwhile = true
      · left
        simp only [hmeanwhile, if_true, true_and]
        exact ⟨rfl, _, rfl⟩
      · right
        simp only [Bool.not_eq_true] at hmeanwhile
        simp only [hmeanwhile, Bool.false_eq_true, if_false, true_and]
        exact ⟨_, rfl, rfl, rfl⟩
    | error e =>
      by_cases hlater : retryLater e = true
      · left
        simp only [hlater, if_true, true_and]
        exact ⟨rfl, _, rfl⟩
      · right
        simp only [Bool.not_eq_true] at hlater
        simp only [hlater, Bool.false_eq_true, if_false, true_and]
        exact ⟨_, rfl, rfl, rfl⟩

/-- Of the attempts from the `n`-th on, none that `sync` reaches is turned away. -/
def Admitted (responses : Nat → Attempt) (turns n : Nat) : Prop :=
  ∀ k < turns, (∀ j < k, (responses (n + j)).stops = false) →
    (responses (n + k)).cancelled = false → (responses (n + k)).turnedAway = false

theorem admitted_succ_iff {turns n : Nat} :
    Admitted responses (turns + 1) n ↔
      ((responses n).cancelled = false → (responses n).turnedAway = false) ∧
        ((responses n).stops = false → Admitted responses turns (n + 1)) := by
  constructor
  · refine fun h => ⟨h 0 (Nat.succ_pos _) (fun j hj => absurd hj (Nat.not_lt_zero j)),
      fun hgoes k hk hbefore => ?_⟩
    have hshift : n + 1 + k = n + (k + 1) := by omega
    rw [hshift]
    refine h (k + 1) (Nat.succ_lt_succ hk) fun j hj => ?_
    cases j with
    | zero => exact hgoes
    | succ j =>
      have hj' := hbefore j (Nat.lt_of_succ_lt_succ hj)
      rwa [Nat.add_assoc, Nat.add_comm 1 j] at hj'
  · rintro ⟨hfirst, hrest⟩ k hk hbefore
    cases k with
    | zero => exact hfirst
    | succ k =>
      have hshift : n + (k + 1) = n + 1 + k := by omega
      rw [hshift]
      refine hrest (hbefore 0 (Nat.succ_pos _)) k (Nat.lt_of_succ_lt_succ hk) fun j hj => ?_
      have hj' := hbefore (j + 1) (Nat.succ_lt_succ hj)
      rwa [Nat.add_comm j 1, ← Nat.add_assoc] at hj'

/-- An attempt at which `sync` returns with an answer was not turned away. -/
theorem Attempt.admitted_of_stops {x : Attempt} (hstops : x.stops = true)
    (hsent : x.cancelled = false) : x.turnedAway = false := by
  by_contra haway
  rw [Bool.not_eq_false] at haway
  have hcases := x.answer_cases
  rw [if_pos haway] at hcases
  obtain ⟨e, he, haway⟩ := hcases
  rw [Attempt.stops, hsent, he] at hstops
  have hlater : retryLater e = true := hstops
  rw [haway.not_retryLater] at hlater
  cases hlater

/-- An attempt after which `sync` goes on is answered for good unless it was turned away. -/
theorem Attempt.definitive_iff {x : Attempt} (hgoes : x.stops = false) :
    Definitive x.answer ↔ x.turnedAway = false := by
  have hcases := x.answer_cases
  by_cases haway : x.turnedAway = true
  · rw [if_pos haway] at hcases
    obtain ⟨e, he, haway'⟩ := hcases
    rw [he, haway]
    exact ⟨fun h => absurd h haway'.not_definitive, fun h => by cases h⟩
  · rw [if_neg haway] at hcases
    rw [Bool.not_eq_true] at haway
    refine ⟨fun _ => haway, fun _ => ?_⟩
    rcases hcases with hdefinitive | ⟨e, he, hlater⟩
    · exact hdefinitive
    · rw [Attempt.stops, he] at hgoes
      have hkept : (x.cancelled || retryLater e) = false := hgoes
      rw [hlater, Bool.or_true] at hkept
      cases hkept

theorem cancelled_of_stops {x : Attempt} (h : x.stops = false) : x.cancelled = false :=
  (Bool.or_eq_false_iff.mp h).1

/-- What the loop has removed is definitive if it was before, and no attempt that the
loop reaches is turned away. By induction on the turns. -/
theorem removed_definitive_iff (responses : Nat → Attempt) (turns : List PendingTurn) (n : Nat)
    (s : Sync) :
    (∀ r ∈ (syncFrom (send responses) turns n s).2.removed, Definitive r.2) ↔
      (∀ r ∈ s.removed, Definitive r.2) ∧ Admitted responses turns.length n := by
  induction turns generalizing n s with
  | nil => exact ⟨fun h => ⟨h, fun k hk => absurd hk (Nat.not_lt_zero k)⟩, And.left⟩
  | cons t rest ih =>
    rw [List.length_cons, admitted_succ_iff]
    rcases syncFrom_send_cons t rest n s with ⟨hstops, hremoved, -⟩ | ⟨hgoes, s', heq, hremoved, -⟩
    · rw [hremoved, hstops]
      exact ⟨fun h => ⟨h, fun hsent => Attempt.admitted_of_stops hstops hsent, fun h => by cases h⟩,
        And.left⟩
    · have hone : (∀ r ∈ s'.removed, Definitive r.2) ↔
          (∀ r ∈ s.removed, Definitive r.2) ∧ (responses n).turnedAway = false := by
        rw [hremoved, List.forall_mem_append, List.forall_mem_singleton]
        exact and_congr_right fun _ => Attempt.definitive_iff hgoes
      have hsent := cancelled_of_stops hgoes
      rw [heq, ih, hone, and_assoc]
      exact and_congr_right fun _ => ⟨fun ⟨h, h'⟩ => ⟨fun _ => h, fun _ => h'⟩,
        fun ⟨h, h'⟩ => ⟨h hsent, h' hgoes⟩⟩

/-- A turn that was pending is still queued, or an answer to its key removed it. -/
theorem queued_or_removed {turns : List PendingTurn} {n : Nat} {s : Sync} {t : PendingTurn}
    (h : t ∈ s.queue ∨ ∃ r ∈ s.removed, r.1.idempotencyKey = t.idempotencyKey) :
    t ∈ (syncFrom (send responses) turns n s).2.queue ∨
      ∃ r ∈ (syncFrom (send responses) turns n s).2.removed,
        r.1.idempotencyKey = t.idempotencyKey := by
  induction turns generalizing n s with
  | nil => exact h
  | cons head rest ih =>
    rcases syncFrom_send_cons head rest n s with
      ⟨-, hremoved, turns, hqueue⟩ | ⟨-, s', heq, hremoved, hqueue⟩
    · rw [hremoved, hqueue]
      exact h.imp_left fun ht => List.mem_append_left _ ht
    · rw [heq]
      refine ih ?_
      rw [hremoved, hqueue]
      by_cases hkey : head.idempotencyKey = t.idempotencyKey
      · exact .inr ⟨_, List.mem_append_right _ List.mem_cons_self, hkey⟩
      · refine h.imp (fun ht => ?_) fun ⟨r, hr, hk⟩ => ⟨r, List.mem_append_left _ hr, hk⟩
        exact List.mem_filter.mpr ⟨List.mem_append_left _ ht, decide_eq_true fun he => hkey he.symm⟩

/-- **When a sync loses no turn.** For every queue and every sequence of responses: turns
leave the queue only by an answer to their key that is a reply or a definitive refusal,
exactly if no attempt that the run reaches is turned away by a rate limiter or for its
authentication. -/
theorem lossless_iff (responses : Nat → Attempt) (queue : List PendingTurn) :
    Lossless queue (sync (send responses) queue 0).2 ↔
      ∀ k < queue.length, (∀ j < k, (responses j).stops = false) →
        (responses k).cancelled = false → (responses k).turnedAway = false := by
  have hremoved := removed_definitive_iff responses queue 0 ⟨queue, 0, []⟩
  simp only [Admitted, Nat.zero_add] at hremoved
  constructor
  · exact fun h => (hremoved.mp h.removed).2
  · refine fun h => ⟨fun t ht hleft => ?_, hremoved.mpr ⟨nofun, h⟩⟩
    exact (queued_or_removed (.inl ht)).resolve_left hleft

/-- A turn that the limiter refuses, and one whose learner can no longer be refreshed. -/
def turnedAwayTwice (n : Nat) : Attempt where
  cancelled := false
  first := .refused (if n = 0 then .rateLimited "Too many attempts, please retry later"
    else .authentication "Invalid token")
  refresh := .rejected "Refresh token expired"
  second := .reply ""
  cancelledMeanwhile := false
  enqueued := []

/-- Neither turn was processed, and the queue is empty. -/
theorem turned_away_turns_are_lost :
    ¬Lossless [⟨5, "hello", "5-1", none⟩, ⟨5, "again", "5-2", none⟩]
        (sync (send turnedAwayTwice) [⟨5, "hello", "5-1", none⟩, ⟨5, "again", "5-2", none⟩] 0).2 ∧
      (sync (send turnedAwayTwice)
        [⟨5, "hello", "5-1", none⟩, ⟨5, "again", "5-2", none⟩] 0).2.queue = [] ∧
      (sync (send turnedAwayTwice)
        [⟨5, "hello", "5-1", none⟩, ⟨5, "again", "5-2", none⟩] 0).2.sent = 0 := by
  refine ⟨fun h => ?_, by decide +kernel, by decide +kernel⟩
  have hfirst := h.removed
    (⟨5, "hello", "5-1", none⟩, .error (Refusal.exception (.rateLimited _))) List.mem_cons_self
  exact ApiException.TurnsAway.not_definitive ⟨.inr rfl, errorResponse_code_ne _ _⟩ hfirst

end Apm.Offline
