import Apm.Lib.Lease
import Apm.Lib.Run
import Apm.Idempotency.Repository
import Apm.Conversation.Persist

/-!
# The turn endpoints as interleaved requests

`/turn` and `/turn/stream` share the idempotency table and the transcripts. A
request resolves its `Idempotency-Key` by a lookup, a claim and a second lookup,
acquires the turn lock of its session, reads the base transcript, generates its
reply, persists, and then finalises what it claimed. Each of these is one step,
and the steps of any number of requests interleave.

`/turn` finalises its lock before its key, `/turn/stream` its key before its
lock. A final operation that fails or never comes leaves its row as it is. A claim
that was committed and whose answer was lost is one that is taken by a request which
goes no further. The tenures record what became of each claim; no operation of the
source reads them.
-/

namespace Apm.Conversation

open Apm.Core Apm.Lib Apm.Idempotency

set_option autoImplicit false

inductive Endpoint where
  | turn
  | stream
  deriving DecidableEq, Repr

structure Request where
  userId : Int
  sessionId : Int
  endpoint : Endpoint
  /-- the header, as it came -/
  idempotencyKey : Option String
  text : String

/-- The key the endpoints act on: an empty header carries none. -/
def Request.key (r : Request) : Option String := r.idempotencyKey.filter (· ≠ "")

/-- The two claims a request can hold. -/
inductive Role where
  | key
  | lock
  deriving DecidableEq, Repr

/-- The row of a claim. -/
def Request.ref (r : Request) : Role → Ref
  | .key => (r.userId, r.key.getD "")
  | .lock => (r.userId, turnLockKey r.sessionId)

/-- The operations that finalise a claim. -/
inductive Final where
  | releaseTurnLock
  | release
  | complete (response : String)
  deriving DecidableEq, Repr

def Final.role : Final → Role
  | .releaseTurnLock => .lock
  | .release => .key
  | .complete _ => .key

@[simp] theorem role_releaseTurnLock : Final.releaseTurnLock.role = .lock := rfl
@[simp] theorem role_release : Final.release.role = .key := rfl
@[simp] theorem role_complete (response : String) : (Final.complete response).role = .key := rfl

def Final.apply (table : Table) (r : Ref) : Final → Table
  | .releaseTurnLock => Idempotency.release table r
  | .release => Idempotency.release table r
  | .complete response => Idempotency.complete table r response

/-- What the client gets. -/
inductive Outcome where
  | cached (response : String)
  | replied (reply : String)
  | inFlight
  | turnInProgress
  | failed
  deriving DecidableEq, Repr

inductive Phase where
  | lookup
  | claim
  | reread
  | acquire
  | prepare
  | generate (base : List Message)
  | persist (base : List Message) (reply : String) (partialReply : Bool)
  | finish (todo : List Final) (outcome : Outcome)
  deriving DecidableEq

/-- What the LLM made of the turn. Only a stream can be cut after some sentences. -/
inductive Generated where
  | reply (text : String)
  | cut (text : String)
  | failed
  deriving DecidableEq

/-- An operation on the key of the request, if it has one. -/
def Request.onKey (r : Request) (op : Final) : List Final :=
  match r.key with
  | none => []
  | some _ => [op]

/-- The lock is refused: a fresh key is released. -/
def Request.afterRefusal (r : Request) : List Final := r.onKey .release

/-- `acquire_turn_lock` raises: only `run_once` releases the key. -/
def Request.afterAcquireError (r : Request) : List Final :=
  match r.endpoint with
  | .turn => r.onKey .release
  | .stream => []

/-- `_prepare` raises. -/
def Request.afterPrepareError (r : Request) : List Final := .releaseTurnLock :: r.onKey .release

/-- The LLM raises before any sentence. -/
def Request.afterLlmError (r : Request) : List Final :=
  match r.endpoint with
  | .turn => .releaseTurnLock :: r.onKey .release
  | .stream => r.onKey .release ++ [.releaseTurnLock]

/-- `persist_turn` returns. -/
def Request.afterPersist (r : Request) (reply : String) : List Final :=
  match r.endpoint with
  | .turn => .releaseTurnLock :: r.onKey (.complete reply)
  | .stream => r.onKey (.complete reply) ++ [.releaseTurnLock]

/-- `persist_turn` raises. A stream whose full reply was delivered leaves its key
as it is. -/
def Request.afterPersistError (r : Request) (partialReply : Bool) : List Final :=
  match r.endpoint, partialReply with
  | .turn, _ => .releaseTurnLock :: r.onKey .release
  | .stream, true => r.onKey .release ++ [.releaseTurnLock]
  | .stream, false => [.releaseTurnLock]

/-- `persist_turn` has committed and did not return: it raised, or was cancelled. -/
def Request.afterLoss (r : Request) (partialReply cancelled : Bool) : List Final :=
  if cancelled then [.releaseTurnLock] else r.afterPersistError partialReply

/-- A cancelled `prepare_turn` of a stream also releases the key. -/
def Request.afterPrepareCancel (r : Request) : List Final :=
  match r.endpoint with
  | .turn => [.releaseTurnLock]
  | .stream => .releaseTurnLock :: r.onKey .release

structure Setup (ι : Type) where
  request : ι → Request
  /-- the owner of an open session -/
  owner : Int → Option Int
  transcriptMaxMessages : Int

structure World (ι : Type) where
  clock : Instant
  table : Table
  phase : ι → Phase
  transcripts : Int → List Message
  tenure : ι × Role → Tenure Instant
  /-- the requests whose `persist_turn` committed -/
  persisted : ι → Bool
  /-- session, text and reply of each turn committed with its metering, in commit order -/
  commits : List (Int × String × String)

inductive Action (ι : Type) where
  | tick (micros : Nat)
  | lookup (i : ι)
  /-- `readAt` is the clock of `stale_before`, `stamp` the start of the transaction -/
  | claim (i : ι) (readAt stamp : Instant)
  | reread (i : ι)
  | acquire (i : ι) (readAt stamp : Instant)
  | prepare (i : ι) (ok : Bool)
  | generate (i : ι) (result : Generated)
  | persist (i : ι) (result : PersistEnd)
  /-- the next final operation -/
  | finalise (i : ι)
  /-- the next final operation fails or is never run -/
  | skip (i : ι)
  /-- the database operation of the phase raises -/
  | error (i : ι)
  /-- the request is cancelled -/
  | cancel (i : ι)
  deriving DecidableEq

/-- The request that takes the step. -/
def Action.request {ι : Type} : Action ι → Option ι
  | .tick _ => none
  | .lookup i | .claim i _ _ | .reread i | .acquire i _ _ | .prepare i _ | .generate i _
  | .persist i _ | .finalise i | .skip i | .error i | .cancel i => some i

variable {ι : Type} [DecidableEq ι]

def Setup.ref (S : Setup ι) (k : ι × Role) : Ref := (S.request k.1).ref k.2

def World.setPhase (w : World ι) (i : ι) (p : Phase) : World ι :=
  { w with phase := Function.update w.phase i p }

/-- A successful claim, by insertion or by reclaim. -/
def World.take (S : Setup ι) (w : World ι) (k : ι × Role) (stamp : Instant) (table : Table) :
    World ι :=
  { w with
    table := table
    tenure := if w.table (S.ref k) = none then Tenure.take w.tenure k stamp
      else Tenure.seize S.ref w.tenure k stamp }

/-- `persist_turn` commits: the whole column is rewritten from the base. -/
def World.store (S : Setup ι) (w : World ι) (i : ι) (base : List Message) (reply : String) :
    World ι :=
  let r := S.request i
  { w with
    transcripts := Function.update w.transcripts r.sessionId
      (appendTurn S.transcriptMaxMessages base r.text reply)
    persisted := Function.update w.persisted i true
    commits := w.commits ++ [(r.sessionId, r.text, reply)] }

/-- A final operation runs and ends its claim. -/
def World.finalise (S : Setup ι) (w : World ι) (i : ι) (op : Final) : World ι :=
  { w with
    table := op.apply w.table (S.ref (i, op.role))
    tenure := Tenure.leave w.tenure (i, op.role) }

/-- The database operation of a phase raises. -/
def onError (r : Request) : Phase → Option Phase
  | .lookup | .claim | .reread => some (.finish [] .failed)
  | .acquire => some (.finish r.afterAcquireError .failed)
  | _ => none

/-- A cancellation while a phase runs. The lock is freed by its `finally`. -/
def onCancel (r : Request) : Phase → Phase
  | .lookup | .claim | .reread | .acquire => .finish [] .failed
  | .prepare => .finish r.afterPrepareCancel .failed
  | .generate _ | .persist .. => .finish [.releaseTurnLock] .failed
  | .finish todo outcome => .finish (todo.filter (· = .releaseTurnLock)) outcome

def step (S : Setup ι) (w : World ι) : Action ι → Option (World ι)
  | .tick micros => some { w with clock := w.clock + micros }
  | .lookup i =>
    match w.phase i with
    | .lookup =>
      match Idempotency.lookup w.table (S.ref (i, .key)) with
      | (_, some response) => some (w.setPhase i (.finish [] (.cached response)))
      | (_, none) => some (w.setPhase i .claim)
    | _ => none
  | .claim i readAt stamp =>
    match w.phase i with
    | .claim =>
      if readAt ≤ w.clock ∧ stamp ≤ w.clock then
        match Idempotency.claim w.table (S.ref (i, .key)) (readAt - staleClaim) stamp with
        | some table => some ((w.take S (i, .key) stamp table).setPhase i .acquire)
        | none => some (w.setPhase i .reread)
      else none
    | _ => none
  | .reread i =>
    match w.phase i with
    | .reread =>
      match (Idempotency.lookup w.table (S.ref (i, .key))).2 with
      | some response => some (w.setPhase i (.finish [] (.cached response)))
      | none => some (w.setPhase i (.finish [] .inFlight))
    | _ => none
  | .acquire i readAt stamp =>
    match w.phase i with
    | .acquire =>
      if readAt ≤ w.clock ∧ stamp ≤ w.clock then
        match Idempotency.claim w.table (S.ref (i, .lock)) (readAt - staleClaim) stamp with
        | some table => some ((w.take S (i, .lock) stamp table).setPhase i .prepare)
        | none => some (w.setPhase i (.finish (S.request i).afterRefusal .turnInProgress))
      else none
    | _ => none
  | .prepare i ok =>
    match w.phase i with
    | .prepare =>
      if ok then
        if S.owner (S.request i).sessionId = some (S.request i).userId then
          some (w.setPhase i (.generate (w.transcripts (S.request i).sessionId)))
        else none
      else some (w.setPhase i (.finish (S.request i).afterPrepareError .failed))
    | _ => none
  | .generate i result =>
    match w.phase i with
    | .generate base =>
      match result, (S.request i).endpoint with
      | .reply text, _ => some (w.setPhase i (.persist base text false))
      | .cut text, .stream => some (w.setPhase i (.persist base text true))
      | .cut _, .turn => none
      | .failed, _ => some (w.setPhase i (.finish (S.request i).afterLlmError .failed))
    | _ => none
  | .persist i result =>
    match w.phase i with
    | .persist base reply partialReply =>
      match result with
      | .committed => some ((w.store S i base reply).setPhase i
          (.finish ((S.request i).afterPersist reply) (.replied reply)))
      | .lost cancelled => some ((w.store S i base reply).setPhase i
          (.finish ((S.request i).afterLoss partialReply cancelled) .failed))
      | .discarded => some (w.setPhase i
          (.finish ((S.request i).afterPersist reply) (.replied reply)))
      | .raised => some (w.setPhase i
          (.finish ((S.request i).afterPersistError partialReply) .failed))
    | _ => none
  | .finalise i =>
    match w.phase i with
    | .finish (op :: rest) outcome => some ((w.finalise S i op).setPhase i (.finish rest outcome))
    | _ => none
  | .skip i =>
    match w.phase i with
    | .finish (_ :: rest) outcome => some (w.setPhase i (.finish rest outcome))
    | _ => none
  | .error i => (onError (S.request i) (w.phase i)).map (w.setPhase i)
  | .cancel i => some (w.setPhase i (onCancel (S.request i) (w.phase i)))

/-- No request has begun. Rows and transcripts of the past are as they are. -/
def World.init (S : Setup ι) (clock : Instant) (table : Table)
    (transcripts : Int → List Message) : World ι where
  clock := clock
  table := table
  phase := fun i => if (S.request i).key = none then .acquire else .lookup
  transcripts := transcripts
  tenure := fun _ => .free
  persisted := fun _ => false
  commits := []

/-! ## What a step can do -/

/-- The phase still relies on the claim, or still has it to finalise. -/
def Phase.acts (keyed : Bool) : Phase → Role → Bool
  | .lookup, _ | .claim, _ | .reread, _ | .acquire, .lock => false
  | .acquire, .key | .prepare, .key | .generate _, .key | .persist .., .key => keyed
  | .prepare, .lock | .generate _, .lock | .persist .., .lock => true
  | .finish todo _, role => todo.any fun op => op.role = role

/-- Each claim is finalised by at most one of the operations to come. -/
def Phase.Distinct : Phase → Prop
  | .finish todo _ => (todo.map Final.role).Nodup
  | _ => True

/-- The base transcript in memory. -/
def Phase.base : Phase → Option (List Message)
  | .generate base => some base
  | .persist base .. => some base
  | _ => none

def Request.keyed (r : Request) : Bool := r.key.isSome

/-- A step of one request that claims, stores and finalises nothing. -/
structure Quiet (S : Setup ι) (w : World ι) (i : ι) (p : Phase) : Prop where
  acts : ∀ role, p.acts (S.request i).keyed role = true →
    (w.phase i).acts (S.request i).keyed role = true
  distinct : (w.phase i).Distinct → p.Distinct
  base : ∀ base, p.base = some base → (w.phase i).base = some base ∨
    w.phase i = .prepare ∧ base = w.transcripts (S.request i).sessionId ∧
      S.owner (S.request i).sessionId = some (S.request i).userId
  settled : ∀ todo outcome, w.phase i = .finish todo outcome →
    ∃ rest, p = .finish rest outcome ∧ rest ⊆ todo
  completes : ∀ todo outcome response, p = .finish todo outcome → .complete response ∈ todo →
    outcome = .replied response ∨
      ∃ todo', w.phase i = .finish todo' outcome ∧ .complete response ∈ todo'

/-- The phase in which a role is claimed, and the one after it. -/
def Role.claimed : Role → Phase × Phase
  | .key => (.claim, .acquire)
  | .lock => (.acquire, .prepare)

inductive Moves (S : Setup ι) (w : World ι) : Action ι → World ι → Prop where
  | tick (micros : Nat) : Moves S w (.tick micros) { w with clock := w.clock + micros }
  | quiet {a : Action ι} (i : ι) (p : Phase) (hquiet : Quiet S w i p) (hi : a.request = some i)
      (ha : ∀ j, a ≠ .finalise j) : Moves S w a (w.setPhase i p)
  | take {a : Action ι} (i : ι) (role : Role) (readAt stamp : Instant) (table : Table)
      (hphase : w.phase i = role.claimed.1) (hread : readAt ≤ w.clock) (hstamp : stamp ≤ w.clock)
      (hclaim : Idempotency.claim w.table (S.ref (i, role)) (readAt - staleClaim) stamp =
        some table) (hi : a.request = some i) (ha : ∀ j, a ≠ .finalise j) :
      Moves S w a ((w.take S (i, role) stamp table).setPhase i role.claimed.2)
  | store (i : ι) (base : List Message) (reply : String) (partialReply : Bool)
      (hphase : w.phase i = .persist base reply partialReply) :
      Moves S w (.persist i .committed) ((w.store S i base reply).setPhase i
        (.finish ((S.request i).afterPersist reply) (.replied reply)))
  | lost (i : ι) (base : List Message) (reply : String) (partialReply cancelled : Bool)
      (hphase : w.phase i = .persist base reply partialReply) :
      Moves S w (.persist i (.lost cancelled)) ((w.store S i base reply).setPhase i
        (.finish ((S.request i).afterLoss partialReply cancelled) .failed))
  | finalise (i : ι) (op : Final) (rest : List Final) (outcome : Outcome)
      (hphase : w.phase i = .finish (op :: rest) outcome) :
      Moves S w (.finalise i) ((w.finalise S i op).setPhase i (.finish rest outcome))

/-- Final operations a request may have to come: on the key only with a key, at
most one for each claim, and a response only as it was replied. -/
structure Request.Finals (r : Request) (outcome : Outcome) (todo : List Final) : Prop where
  keyed : (todo.any fun op => op.role = .key) = true → r.keyed = true
  distinct : (todo.map Final.role).Nodup
  completes : ∀ response, .complete response ∈ todo → outcome = .replied response

section finals

variable (r : Request) {outcome : Outcome} {op : Final}

theorem finals_nil : r.Finals outcome [] := ⟨by simp, by simp, by simp⟩

theorem finals_lock : r.Finals outcome [.releaseTurnLock] := ⟨by simp, by simp, by simp⟩

theorem finals_onKey (hop : ∀ response, op = .complete response → outcome = .replied response) :
    r.Finals outcome (r.onKey op) := by
  unfold Request.onKey
  cases hk : r.key with
  | none => exact finals_nil r
  | some key =>
    refine ⟨fun _ => by simp [Request.keyed, hk], by simp, fun response h => ?_⟩
    exact hop response (List.mem_singleton.mp h).symm

theorem finals_lock_onKey (h : op.role = .key)
    (hop : ∀ response, op = .complete response → outcome = .replied response) :
    r.Finals outcome (.releaseTurnLock :: r.onKey op) := by
  have hkey := finals_onKey r hop
  unfold Request.onKey at hkey ⊢
  cases hk : r.key with
  | none => exact finals_lock r
  | some key =>
    rw [hk] at hkey
    exact ⟨fun _ => by simp [Request.keyed, hk], by simp [h], fun response hr =>
      hkey.completes response (by simpa using hr)⟩

theorem finals_onKey_lock (h : op.role = .key)
    (hop : ∀ response, op = .complete response → outcome = .replied response) :
    r.Finals outcome (r.onKey op ++ [.releaseTurnLock]) := by
  have hkey := finals_onKey r hop
  unfold Request.onKey at hkey ⊢
  cases hk : r.key with
  | none => exact finals_lock r
  | some key =>
    rw [hk] at hkey
    exact ⟨fun _ => by simp [Request.keyed, hk], by simp [h], fun response hr =>
      hkey.completes response (by simpa using hr)⟩

theorem finals_afterPrepareError : r.Finals outcome r.afterPrepareError :=
  finals_lock_onKey r rfl (by simp)

theorem finals_afterLlmError : r.Finals outcome r.afterLlmError := by
  unfold Request.afterLlmError
  split
  · exact finals_lock_onKey r rfl (by simp)
  · exact finals_onKey_lock r rfl (by simp)

theorem finals_afterPersist (reply : String) :
    r.Finals (.replied reply) (r.afterPersist reply) := by
  unfold Request.afterPersist
  split
  · exact finals_lock_onKey r rfl (by simp)
  · exact finals_onKey_lock r rfl (by simp)

theorem finals_afterPersistError (partialReply : Bool) :
    r.Finals outcome (r.afterPersistError partialReply) := by
  unfold Request.afterPersistError
  split
  · exact finals_lock_onKey r rfl (by simp)
  · exact finals_onKey_lock r rfl (by simp)
  · exact finals_lock r

theorem finals_afterLoss (partialReply cancelled : Bool) :
    r.Finals outcome (r.afterLoss partialReply cancelled) := by
  unfold Request.afterLoss
  split
  · exact finals_lock r
  · exact finals_afterPersistError r partialReply

theorem finals_afterPrepareCancel : r.Finals outcome r.afterPrepareCancel := by
  unfold Request.afterPrepareCancel
  split
  · exact finals_lock r
  · exact finals_lock_onKey r rfl (by simp)

theorem finals_afterAcquireError : r.Finals outcome r.afterAcquireError := by
  unfold Request.afterAcquireError
  split
  · exact finals_onKey r (by simp)
  · exact finals_nil r

/-- Before the lock is acquired there is no lock to release. -/
theorem onKey_no_lock {op : Final} (h : op.role = .key) :
    ((r.onKey op).any fun o => o.role = .lock) = false := by
  unfold Request.onKey
  cases r.key <;> simp [h]

theorem afterAcquireError_no_lock :
    (r.afterAcquireError.any fun op => op.role = .lock) = false := by
  unfold Request.afterAcquireError
  split
  · exact onKey_no_lock r rfl
  · rfl

end finals

section quiet

variable {S : Setup ι} {w : World ι} {i : ι} {todo : List Final} {outcome : Outcome}

omit [DecidableEq ι] in
/-- A request gives up before it has claimed anything. -/
theorem Quiet.abandon (hphase : w.phase i = .lookup ∨ w.phase i = .claim ∨ w.phase i = .reread)
    (outcome : Outcome) : Quiet S w i (.finish [] outcome) where
  acts := fun role h => by simp [Phase.acts] at h
  distinct := fun _ => by simp [Phase.Distinct]
  base := fun base hb => by cases hb
  settled := fun todo outcome h => by rcases hphase with h' | h' | h' <;> rw [h'] at h <;> cases h
  completes := fun todo outcome response h hop => by
    cases h
    cases hop

omit [DecidableEq ι] in
/-- A request goes on before it has claimed anything. -/
theorem Quiet.seek {p : Phase} (hphase : w.phase i = .lookup ∨ w.phase i = .claim)
    (hp : p = .claim ∨ p = .reread) : Quiet S w i p where
  acts := fun role h => by rcases hp with rfl | rfl <;> simp [Phase.acts] at h
  distinct := fun _ => by rcases hp with rfl | rfl <;> trivial
  base := fun base hb => by rcases hp with rfl | rfl <;> cases hb
  settled := fun todo outcome h => by rcases hphase with h' | h' <;> rw [h'] at h <;> cases h
  completes := fun todo outcome response h => by rcases hp with rfl | rfl <;> cases h

omit [DecidableEq ι] in
/-- A request without the lock goes to its final operation. -/
theorem Quiet.refuse (hphase : w.phase i = .acquire) (hfinals : (S.request i).Finals outcome todo)
    (hlock : (todo.any fun op => op.role = .lock) = false) :
    Quiet S w i (.finish todo outcome) where
  acts := fun role h => by
    rw [hphase]
    cases role with
    | key => exact hfinals.keyed h
    | lock => exact absurd (hlock.symm.trans h) (by simp)
  distinct := fun _ => hfinals.distinct
  base := fun base hb => by cases hb
  settled := fun todo outcome h => by rw [hphase] at h; cases h
  completes := fun todo outcome response h hop => by
    cases h
    exact .inl (hfinals.completes response hop)

omit [DecidableEq ι] in
/-- A request with the lock goes to its final operations. -/
theorem Quiet.finish (hphase : w.phase i = .prepare ∨ (∃ base, w.phase i = .generate base) ∨
      ∃ base reply partialReply, w.phase i = .persist base reply partialReply)
    (hfinals : (S.request i).Finals outcome todo) : Quiet S w i (.finish todo outcome) where
  acts := fun role h => by
    obtain h' | ⟨_, h'⟩ | ⟨_, _, _, h'⟩ := hphase <;> rw [h'] <;> cases role <;>
      first | exact hfinals.keyed h | rfl
  distinct := fun _ => hfinals.distinct
  base := fun base hb => by cases hb
  settled := fun todo outcome h => by
    obtain h' | ⟨_, h'⟩ | ⟨_, _, _, h'⟩ := hphase <;> rw [h'] at h <;> cases h
  completes := fun todo outcome response h hop => by
    cases h
    exact .inl (hfinals.completes response hop)

omit [DecidableEq ι] in
/-- The prompt is built on the transcript of the caller's own session. -/
theorem Quiet.prepared (hphase : w.phase i = .prepare)
    (howner : S.owner (S.request i).sessionId = some (S.request i).userId) :
    Quiet S w i (.generate (w.transcripts (S.request i).sessionId)) where
  acts := fun role h => by
    rw [hphase]
    cases role <;> exact h
  distinct := fun _ => by simp [Phase.Distinct]
  base := fun base hb => .inr ⟨hphase, (Option.some.inj hb).symm, howner⟩
  settled := fun todo outcome h => by rw [hphase] at h; cases h
  completes := fun todo outcome response h => by cases h

omit [DecidableEq ι] in
/-- A reply is at hand for the transcript it was asked for. -/
theorem Quiet.replied {base : List Message} {reply : String} {cut : Bool}
    (hphase : w.phase i = .generate base) : Quiet S w i (.persist base reply cut) where
  acts := fun role h => by
    rw [hphase]
    cases role <;> exact h
  distinct := fun _ => by simp [Phase.Distinct]
  base := fun base' hb => by
    rw [hphase]
    exact .inl hb
  settled := fun todo outcome h => by rw [hphase] at h; cases h
  completes := fun todo outcome response h => by cases h

omit [DecidableEq ι] in
/-- Final operations are dropped. -/
theorem Quiet.drop {rest : List Final} (hphase : w.phase i = .finish todo outcome)
    (hsub : rest.Sublist todo) : Quiet S w i (.finish rest outcome) where
  acts := fun role h => by
    rw [hphase]
    simp only [Phase.acts, List.any_eq_true] at h ⊢
    obtain ⟨op, hop, hrole⟩ := h
    exact ⟨op, hsub.subset hop, hrole⟩
  distinct := fun h => by
    rw [hphase] at h
    exact h.sublist (hsub.map _)
  base := fun base hb => by cases hb
  settled := fun todo' outcome' h => by
    rw [hphase] at h
    cases h
    exact ⟨rest, rfl, hsub.subset⟩
  completes := fun todo' outcome' response h hop => by
    cases h
    exact .inr ⟨todo, hphase, hsub.subset hop⟩

omit [DecidableEq ι] in
theorem onError_quiet {p : Phase} (h : onError (S.request i) (w.phase i) = some p) :
    Quiet S w i p := by
  cases hphase : w.phase i with
  | lookup =>
    rw [hphase] at h
    obtain rfl := Option.some.inj h
    exact .abandon (.inl hphase) _
  | claim =>
    rw [hphase] at h
    obtain rfl := Option.some.inj h
    exact .abandon (.inr (.inl hphase)) _
  | reread =>
    rw [hphase] at h
    obtain rfl := Option.some.inj h
    exact .abandon (.inr (.inr hphase)) _
  | acquire =>
    rw [hphase] at h
    obtain rfl := Option.some.inj h
    exact .refuse hphase (finals_afterAcquireError _) (afterAcquireError_no_lock _)
  | prepare | generate | persist | finish => simp [hphase, onError] at h

omit [DecidableEq ι] in
theorem onCancel_quiet : Quiet S w i (onCancel (S.request i) (w.phase i)) := by
  cases hphase : w.phase i with
  | lookup => exact .abandon (.inl hphase) _
  | claim => exact .abandon (.inr (.inl hphase)) _
  | reread => exact .abandon (.inr (.inr hphase)) _
  | acquire => exact .refuse hphase (finals_nil _) rfl
  | prepare => exact .finish (.inl hphase) (finals_afterPrepareCancel _)
  | generate base => exact .finish (.inr (.inl ⟨_, hphase⟩)) (finals_lock _)
  | persist base reply cut => exact .finish (.inr (.inr ⟨_, _, _, hphase⟩)) (finals_lock _)
  | finish todo outcome => exact .drop hphase List.filter_sublist

end quiet

/-- Every step is one of the six moves. -/
theorem step_moves {S : Setup ι} {w w' : World ι} {a : Action ι} (h : step S w a = some w') :
    Moves S w a w' := by
  cases a with
  | tick micros =>
    obtain rfl := Option.some.inj h
    exact .tick micros
  | lookup i =>
    simp only [step] at h
    split at h
    · rename_i hphase
      split at h
      · obtain rfl := Option.some.inj h
        exact .quiet i _ (.abandon (.inl hphase) _) rfl (by simp)
      · obtain rfl := Option.some.inj h
        exact .quiet i _ (.seek (.inl hphase) (.inl rfl)) rfl (by simp)
    · cases h
  | claim i readAt stamp =>
    simp only [step] at h
    split at h
    · rename_i hphase
      split_ifs at h with hclock
      split at h
      · rename_i table hclaim
        obtain rfl := Option.some.inj h
        exact .take i .key readAt stamp table hphase hclock.1 hclock.2 hclaim rfl (by simp)
      · obtain rfl := Option.some.inj h
        exact .quiet i _ (.seek (.inr hphase) (.inr rfl)) rfl (by simp)
    · cases h
  | reread i =>
    simp only [step] at h
    split at h
    · rename_i hphase
      split at h
      · obtain rfl := Option.some.inj h
        exact .quiet i _ (.abandon (.inr (.inr hphase)) _) rfl (by simp)
      · obtain rfl := Option.some.inj h
        exact .quiet i _ (.abandon (.inr (.inr hphase)) _) rfl (by simp)
    · cases h
  | acquire i readAt stamp =>
    simp only [step] at h
    split at h
    · rename_i hphase
      split_ifs at h with hclock
      split at h
      · rename_i table hclaim
        obtain rfl := Option.some.inj h
        exact .take i .lock readAt stamp table hphase hclock.1 hclock.2 hclaim rfl (by simp)
      · obtain rfl := Option.some.inj h
        exact .quiet i _ (.refuse hphase (finals_onKey _ (by simp)) (onKey_no_lock _ rfl)) rfl (by simp)
    · cases h
  | prepare i ok =>
    simp only [step] at h
    split at h
    · rename_i hphase
      split_ifs at h with hok howner
      · obtain rfl := Option.some.inj h
        exact .quiet i _ (.prepared hphase howner) rfl (by simp)
      · obtain rfl := Option.some.inj h
        exact .quiet i _ (.finish (.inl hphase) (finals_afterPrepareError _)) rfl (by simp)
    · cases h
  | generate i result =>
    simp only [step] at h
    split at h
    · rename_i base hphase
      split at h
      · obtain rfl := Option.some.inj h
        exact .quiet i _ (.replied hphase) rfl (by simp)
      · obtain rfl := Option.some.inj h
        exact .quiet i _ (.replied hphase) rfl (by simp)
      · cases h
      · obtain rfl := Option.some.inj h
        exact .quiet i _ (.finish (.inr (.inl ⟨base, hphase⟩)) (finals_afterLlmError _)) rfl
          (by simp)
    · cases h
  | persist i result =>
    simp only [step] at h
    split at h
    · rename_i base reply cut hphase
      have hat : w.phase i = .prepare ∨ (∃ base, w.phase i = .generate base) ∨
          ∃ base reply partialReply, w.phase i = .persist base reply partialReply :=
        .inr (.inr ⟨_, _, _, hphase⟩)
      split at h
      · obtain rfl := Option.some.inj h
        exact .store i base reply cut hphase
      · obtain rfl := Option.some.inj h
        exact .lost i base reply cut _ hphase
      · obtain rfl := Option.some.inj h
        exact .quiet i _ (.finish hat (finals_afterPersist _ _)) rfl (by simp)
      · obtain rfl := Option.some.inj h
        exact .quiet i _ (.finish hat (finals_afterPersistError _ _)) rfl (by simp)
    · cases h
  | finalise i =>
    simp only [step] at h
    split at h
    · rename_i op rest outcome hphase
      obtain rfl := Option.some.inj h
      exact .finalise i op rest outcome hphase
    · cases h
  | skip i =>
    simp only [step] at h
    split at h
    · rename_i op rest outcome hphase
      obtain rfl := Option.some.inj h
      exact .quiet i _ (.drop hphase (List.sublist_cons_self _ _)) rfl (by simp)
    · cases h
  | error i =>
    simp only [step, Option.map_eq_some_iff] at h
    obtain ⟨p, hp, rfl⟩ := h
    exact .quiet i p (onError_quiet hp) rfl (by simp)
  | cancel i =>
    obtain rfl := Option.some.inj h
    exact .quiet i _ onCancel_quiet rfl (by simp)

end Apm.Conversation
