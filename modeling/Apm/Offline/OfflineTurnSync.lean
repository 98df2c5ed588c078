import Apm.Core.Time

/-!
# The replay of queued turns

The queue of the turns a learner spoke offline, the errors a server maps its
exceptions to, and `sync`, which sends the pending turns in order. A turn leaves the
queue when it was sent or refused for good; a failure that may pass stops the run.
-/

namespace Apm.Offline

open Apm.Core

set_option autoImplicit false

/-- The exceptions that reach the handlers of `errors.py`. -/
inductive ServerError where
  | authentication
  | invalidCredentials
  | authorization
  | notFound
  | quotaExhausted
  | rateLimited
  | validation
  | payloadTooLarge
  | conflict
  | debriefAnalysis
  | llmProvider
  | domain
  | dataError
  | integrityError
  | requestValidation
  | unhandled
  deriving DecidableEq, Repr

/-- `_STATUS_BY_EXCEPTION`, and the handlers registered beside it. -/
def ServerError.status : ServerError → Int
  | .authentication => 401
  | .invalidCredentials => 401
  | .authorization => 403
  | .notFound => 404
  | .quotaExhausted => 402
  | .rateLimited => 429
  | .validation => 422
  | .payloadTooLarge => 413
  | .conflict => 409
  | .debriefAnalysis => 502
  | .llmProvider => 502
  | .domain => 400
  | .dataError => 422
  | .integrityError => 409
  | .requestValidation => 422
  | .unhandled => 500

def ServerError.code : ServerError → String
  | .authentication => "AuthenticationError"
  | .invalidCredentials => "InvalidCredentialsError"
  | .authorization => "AuthorizationError"
  | .notFound => "NotFoundError"
  | .quotaExhausted => "QuotaExhaustedError"
  | .rateLimited => "RateLimitedError"
  | .validation => "ValidationError"
  | .payloadTooLarge => "PayloadTooLargeError"
  | .conflict => "ConflictError"
  | .debriefAnalysis => "DebriefAnalysisError"
  | .llmProvider => "LlmProviderError"
  | .domain => "DomainError"
  | .dataError => "DataError"
  | .integrityError => "IntegrityError"
  | .requestValidation => "ValidationError"
  | .unhandled => "InternalServerError"

structure ApiException where
  statusCode : Int
  code : String
  message : String
  deriving DecidableEq, Repr

/-- `_error_response`, as the client reads it. -/
def errorResponse (e : ServerError) (message : String) : ApiException := ⟨e.status, e.code, message⟩

/-- No answer, or one without the normalized error body. -/
def networkError (status : Int) : ApiException := ⟨status, "network", "Problème de réseau. Réessaie."⟩

/-- `_retryLater`. -/
def retryLater (e : ApiException) : Bool :=
  e.statusCode = 0 || e.code = "network" || 500 ≤ e.statusCode || e.statusCode = 409

structure PendingTurn where
  sessionId : Int
  text : String
  idempotencyKey : String
  practicedAt : Option Instant
  deriving DecidableEq, Repr

/-- What `sendTurn` returns or throws. -/
abbrev Answer := Except ApiException String

/-- One attempt of `sync`: whether it was cancelled before the turn was sent or while
the answer was awaited, and the turns that were enqueued meanwhile. -/
structure Exchange where
  cancelled : Bool
  answer : Answer
  cancelledMeanwhile : Bool
  enqueued : List PendingTurn

/-- The queue and the count of `sync`, with the turns it removed and why. -/
structure Sync where
  queue : List PendingTurn
  sent : Nat
  removed : List (PendingTurn × Answer)

/-- `enqueue`. -/
def Sync.enqueue (s : Sync) (turns : List PendingTurn) : Sync :=
  { s with queue := s.queue ++ turns }

/-- `remove`: every turn with the key leaves the queue. -/
def Sync.remove (s : Sync) (turn : PendingTurn) (answer : Answer) : Sync :=
  { s with
    queue := s.queue.filter fun t => t.idempotencyKey ≠ turn.idempotencyKey
    removed := s.removed ++ [(turn, answer)] }

variable {σ : Type}

/-- The loop of `sync` over the turns it read, against a server and its surroundings. -/
def syncFrom (send : PendingTurn → σ → Exchange × σ) : List PendingTurn → σ → Sync → σ × Sync
  | [], env, s => (env, s)
  | turn :: rest, env, s =>
    match send turn env with
    | (x, env') =>
      if x.cancelled then (env, s)
      else
        match x.answer with
        | .ok reply =>
          if x.cancelledMeanwhile then (env', s.enqueue x.enqueued)
          else
            let s := (s.enqueue x.enqueued).remove turn (.ok reply)
            syncFrom send rest env' { s with sent := s.sent + 1 }
        | .error e =>
          if retryLater e then (env', s.enqueue x.enqueued)
          else syncFrom send rest env' ((s.enqueue x.enqueued).remove turn (.error e))

/-- `sync`. -/
def sync (send : PendingTurn → σ → Exchange × σ) (queue : List PendingTurn) (env : σ) : σ × Sync :=
  syncFrom send queue env ⟨queue, 0, []⟩

end Apm.Offline
