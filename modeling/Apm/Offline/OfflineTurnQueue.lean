import Mathlib
import Apm.Lib.AsyncMutex
import Apm.Lib.Run
import Apm.Offline.OfflineTurnSync

/-!
# The offline turn queue of each user

`SecureOfflineTurnQueue` keeps one list of pending turns for each user, under a key of its
own. Its operations are chained on one lock. An operation finds out who is signed in when
it starts, which can be long after its call, and its read and its write of the storage
are separate steps.
-/

namespace Apm.Offline

open Apm.Lib

set_option autoImplicit false

inductive QueueOp where
  | enqueue (turn : PendingTurn)
  | pending
  | remove (idempotencyKey : String)
  | purgeCurrentUser
  deriving DecidableEq, Repr

/-- A call, and who was signed in when it was made. -/
structure QueueCall where
  operation : QueueOp
  caller : Option Int
  deriving DecidableEq, Repr

inductive QueueResult where
  | completed
  | turns (turns : List PendingTurn)
  | stateError (message : String)
  deriving DecidableEq, Repr

/-- The message of `_requireCurrentUser`. -/
def notSignedIn : String :=
  "OfflineTurnQueue accessed with no signed-in user (#349) — " ++
    "AuthViewModel must call setCurrentUser before this queue is used."

/-- `_keyFor`. -/
def keyFor (userId : Int) : String := s!"offline_turn_queue:{userId}"

/-- The end of a call, and who it ran as. -/
structure Completion extends QueueCall where
  ranAs : Option Int
  result : QueueResult
  deriving DecidableEq, Repr

/-- Where the call that holds the lock is. -/
inductive Progress where
  | waiting
  | reading (userId : Int)
  | writing (userId : Int) (turns : List PendingTurn)
  | deleting (userId : Int)
  deriving DecidableEq, Repr

def Progress.userId : Progress → Option Int
  | .waiting => none
  | .reading userId | .writing userId _ | .deleting userId => some userId

/-- The queue and its storage. The operations read neither `caller`, `calls` nor
`completions`. -/
structure TurnQueue where
  store : String → Option (List PendingTurn)
  currentUserId : Option Int
  lock : AsyncMutex QueueCall
  progress : Progress
  calls : List QueueCall
  completions : List Completion

/-- `_read`. -/
def TurnQueue.read (s : TurnQueue) (userId : Int) : List PendingTurn :=
  (s.store (keyFor userId)).getD []

/-- The completer of a call completes, and the lock passes on. -/
def TurnQueue.complete (s : TurnQueue) (call : QueueCall) (ranAs : Option Int)
    (result : QueueResult) : TurnQueue :=
  { s with
    lock := s.lock.leave
    progress := .waiting
    completions := s.completions ++ [{ call with ranAs := ranAs, result := result }] }

inductive QueueAction where
  | setCurrentUser (userId : Option Int)
  | call (operation : QueueOp)
  /-- the action of the next call starts -/
  | start
  /-- the read of the storage lands -/
  | read
  | write
  | delete
  deriving DecidableEq, Repr

def queueStep (s : TurnQueue) : QueueAction → Option TurnQueue
  | .setCurrentUser userId => some { s with currentUserId := userId }
  | .call operation =>
    let call := ⟨operation, s.currentUserId⟩
    some { s with lock := s.lock.enter call, calls := s.calls ++ [call] }
  | .start =>
    match s.lock.queue, s.progress with
    | call :: _, .waiting =>
      match call.operation, s.currentUserId with
      | .purgeCurrentUser, none => some (s.complete call none .completed)
      | .purgeCurrentUser, some userId => some { s with progress := .deleting userId }
      | _, none => some (s.complete call none (.stateError notSignedIn))
      | _, some userId => some { s with progress := .reading userId }
    | _, _ => none
  | .read =>
    match s.lock.queue, s.progress with
    | call :: _, .reading userId =>
      let turns := s.read userId
      match call.operation with
      | .enqueue turn => some { s with progress := .writing userId (turns ++ [turn]) }
      | .remove key =>
        some { s with progress := .writing userId (turns.filter (·.idempotencyKey ≠ key)) }
      | .pending => some (s.complete call (some userId) (.turns turns))
      | .purgeCurrentUser => none
    | _, _ => none
  | .write =>
    match s.lock.queue, s.progress with
    | call :: _, .writing userId turns =>
      some ({ s with store := Function.update s.store (keyFor userId) (some turns) }.complete
        call (some userId) .completed)
    | _, _ => none
  | .delete =>
    match s.lock.queue, s.progress with
    | call :: _, .deleting userId =>
      some ({ s with store := Function.update s.store (keyFor userId) none }.complete
        call (some userId) .completed)
    | _, _ => none

/-- The app starts. -/
def TurnQueue.init (store : String → Option (List PendingTurn)) : TurnQueue where
  store := store
  currentUserId := none
  lock := .free
  progress := .waiting
  calls := []
  completions := []

/-! ## What the queue is for -/

/-- What an operation makes of the list of its user. -/
def QueueOp.apply : QueueOp → List PendingTurn → List PendingTurn
  | .enqueue turn, turns => turns ++ [turn]
  | .pending, turns => turns
  | .remove key, turns => turns.filter (·.idempotencyKey ≠ key)
  | .purgeCurrentUser, _ => []

/-- What the caller gets. -/
def QueueOp.answer : QueueOp → Option Int → List PendingTurn → QueueResult
  | .purgeCurrentUser, _, _ => .completed
  | _, none, _ => .stateError notSignedIn
  | .pending, some _, turns => .turns turns
  | _, some _, _ => .completed

/-- The list of a user after the user's own calls, one after the other. -/
def replay (start : String → Option (List PendingTurn)) (calls : List QueueCall) (userId : Int) :
    List PendingTurn :=
  calls.foldl (fun turns c => if c.caller = some userId then c.operation.apply turns else turns)
    ((start (keyFor userId)).getD [])

/-- The calls that have completed, in that order. -/
def TurnQueue.completed (s : TurnQueue) : List QueueCall := s.completions.map Completion.toQueueCall

/-- The calls take effect in their order, each for its caller, and nothing else does. -/
structure Linearised (start : String → Option (List PendingTurn)) (s : TurnQueue) : Prop where
  order : s.calls = s.completed ++ s.lock.queue
  ranAs : ∀ c ∈ s.completions, c.ranAs = c.caller
  running : ∀ call userId, s.lock.Holds call → s.progress.userId = some userId →
    call.caller = some userId
  stored : ∀ userId, s.read userId = replay start s.completed userId
  answers : ∀ before c after, s.completions = before ++ c :: after → c.result =
    c.operation.answer c.caller
      (c.caller.elim [] (replay start (before.map Completion.toQueueCall)))
  others : ∀ key, (∀ c ∈ s.calls, ∀ userId, c.caller = some userId → key ≠ keyFor userId) →
    s.store key = start key

/-- A call that starts finds its caller still signed in. -/
def startsAsCaller (s : TurnQueue) (a : QueueAction) (_ : TurnQueue) : Prop :=
  a = .start → ∀ call, s.lock.Holds call → s.currentUserId = call.caller

theorem keyFor_inj {u v : Int} : keyFor u = keyFor v ↔ u = v := by
  constructor
  · intro h
    have hrepr : Int.repr u = Int.repr v := (String.append_right_inj _).mp h
    exact Int.repr_inj.mp hrepr
  · rintro rfl
    rfl

@[simp] theorem replay_append (start : String → Option (List PendingTurn)) (calls : List QueueCall)
    (c : QueueCall) (userId : Int) : replay start (calls ++ [c]) userId =
      if c.caller = some userId then c.operation.apply (replay start calls userId)
      else replay start calls userId := by
  simp [replay]

/-! ## One step -/

/-- What the call that holds the lock has found and is about to write. -/
structure Underway (s : TurnQueue) : Prop where
  idle : s.lock.queue = [] → s.progress = .waiting
  writing : ∀ call userId turns, s.lock.Holds call → s.progress = .writing userId turns →
    call.operation.answer call.caller turns = .completed ∧
      turns = call.operation.apply (s.read userId)
  deleting : ∀ call userId, s.lock.Holds call → s.progress = .deleting userId →
    call.operation = .purgeCurrentUser

section steps

variable {start : String → Option (List PendingTurn)} {s s' : TurnQueue} {call : QueueCall}
  {rest : List QueueCall}

theorem holds_of_queue (hqueue : s.lock.queue = call :: rest) : s.lock.Holds call := by
  simp [AsyncMutex.Holds, hqueue]

theorem underway_of_waiting (h : s.progress = .waiting) : Underway s where
  idle := fun _ => h
  writing := fun _ _ _ _ hp => by rw [h] at hp; cases hp
  deleting := fun _ _ _ hp => by rw [h] at hp; cases hp

/-- A call that completes as its caller, with its effect on the list of the caller, is the
next one of the order. -/
theorem Linearised.complete (h : Linearised start s) (hqueue : s.lock.queue = call :: rest)
    {store : String → Option (List PendingTurn)} {result : QueueResult}
    (hresult : result = call.operation.answer call.caller
      (call.caller.elim [] fun userId => s.read userId))
    (hstored : ∀ userId, (store (keyFor userId)).getD [] =
      if call.caller = some userId then call.operation.apply (s.read userId) else s.read userId)
    (hothers : ∀ key, (∀ userId, call.caller = some userId → key ≠ keyFor userId) →
      store key = s.store key) :
    Linearised start ({ s with store := store }.complete call call.caller result) := by
  have hcompleted : ({ s with store := store }.complete call call.caller result).completed =
      s.completed ++ [call] := by
    simp [TurnQueue.completed, TurnQueue.complete]
  have hread : (fun userId => s.read userId) = replay start s.completed := funext h.stored
  refine ⟨?_, ?_, ?_, fun userId => ?_, ?_, ?_⟩
  · rw [hcompleted]
    simp [TurnQueue.complete, AsyncMutex.leave, h.order, hqueue]
  · intro c hc
    obtain hc | hc := List.mem_append.mp hc
    · exact h.ranAs c hc
    · rw [List.mem_singleton.mp hc]
  · intro c userId _ hp
    cases hp
  · rw [hcompleted, replay_append, ← h.stored]
    exact hstored userId
  · intro before c after hsplit
    obtain rfl | ⟨after', last, rfl⟩ := after.eq_nil_or_concat
    · obtain ⟨rfl, hlast⟩ := List.append_inj' hsplit rfl
      obtain rfl := List.singleton_inj.mp hlast
      rw [hresult, hread]
      rfl
    · rw [List.concat_eq_append, ← List.cons_append, ← List.append_assoc] at hsplit
      exact h.answers before c after' (List.append_inj' hsplit rfl).1
  · intro key hkey
    have hcall : call ∈ s.calls := by
      rw [h.order, hqueue]
      simp
    exact (hothers key fun userId => hkey call hcall userId).trans (h.others key hkey)

/-- A call that completes as its caller and leaves the storage alone. -/
theorem Linearised.completeUnstored (h : Linearised start s)
    (hqueue : s.lock.queue = call :: rest) {result : QueueResult}
    (hresult : result = call.operation.answer call.caller
      (call.caller.elim [] fun userId => s.read userId))
    (hstored : ∀ userId, s.read userId =
      if call.caller = some userId then call.operation.apply (s.read userId) else s.read userId) :
    Linearised start (s.complete call call.caller result) := by
  have hsame : ∀ key, (∀ userId, call.caller = some userId → key ≠ keyFor userId) →
      s.store key = s.store key := fun _ _ => rfl
  exact h.complete hqueue hresult hstored hsame

/-- What the start of a call does. -/
theorem start_cases (hstep : queueStep s .start = some s') : ∃ call rest,
    s.lock.queue = call :: rest ∧ s.progress = .waiting ∧
      ((s.currentUserId = none ∧
          s' = s.complete call none (call.operation.answer none [])) ∨
        ∃ userId, s.currentUserId = some userId ∧
          ((call.operation = .purgeCurrentUser ∧ s' = { s with progress := .deleting userId }) ∨
            call.operation ≠ .purgeCurrentUser ∧ s' = { s with progress := .reading userId })) := by
  simp only [queueStep] at hstep
  split at hstep
  · rename_i call rest hqueue hwaiting
    refine ⟨call, rest, hqueue, hwaiting, ?_⟩
    split at hstep <;> obtain rfl := Option.some.inj hstep
    · rename_i hop huser
      exact .inl ⟨huser, by rw [hop]; rfl⟩
    · rename_i userId hop huser
      exact .inr ⟨userId, huser, .inl ⟨hop, rfl⟩⟩
    · rename_i huser hother
      refine .inl ⟨huser, ?_⟩
      cases hcall : call.operation <;> first | rfl | exact absurd hcall hother
    · rename_i userId huser hother
      exact .inr ⟨userId, huser, .inr ⟨hother, rfl⟩⟩
  · cases hstep

/-- A step of the call that holds the lock runs as its caller. -/
theorem Linearised.caller (h : Linearised start s) (hqueue : s.lock.queue = call :: rest)
    {userId : Int} (hp : s.progress.userId = some userId) : call.caller = some userId :=
  h.running call userId (holds_of_queue hqueue) hp

/-- The call that holds the lock goes on, for its caller. -/
theorem Linearised.setProgress (h : Linearised start s) (hqueue : s.lock.queue = call :: rest)
    {userId : Int} (hcaller : call.caller = some userId) (p : Progress)
    (hp : p.userId = some userId) : Linearised start { s with progress := p } where
  order := h.order
  ranAs := h.ranAs
  running := fun c v hc hv => by
    obtain rfl := (holds_of_queue hqueue).unique hc
    exact hcaller.trans (hp.symm.trans hv)
  stored := h.stored
  answers := h.answers
  others := h.others

/-- A call joins the queue at its end. -/
theorem holds_enter (hu : Underway s) {new c : QueueCall} (hc : (s.lock.enter new).Holds c) :
    s.lock.Holds c ∨ s.progress = .waiting := by
  cases hqueue : s.lock.queue with
  | nil => exact .inr (hu.idle hqueue)
  | cons head rest =>
    have hhead : s.lock.Holds head := holds_of_queue hqueue
    obtain rfl := (AsyncMutex.Holds.enter hhead).unique hc
    exact .inl hhead

theorem Linearised.enter (h : Linearised start s) (hu : Underway s) (new : QueueCall) :
    Linearised start { s with lock := s.lock.enter new, calls := s.calls ++ [new] } where
  order := by
    change s.calls ++ [new] = s.completed ++ (s.lock.queue ++ [new])
    rw [h.order, List.append_assoc]
  ranAs := h.ranAs
  running := fun c v hc hv => by
    obtain hold | hwaiting := holds_enter hu hc
    · exact h.running c v hold hv
    · change s.progress.userId = some v at hv
      rw [hwaiting] at hv
      cases hv
  stored := h.stored
  answers := h.answers
  others := fun key hkey => h.others key fun c hc => hkey c (List.mem_append_left _ hc)

theorem Underway.enter (hu : Underway s) (new : QueueCall) :
    Underway { s with lock := s.lock.enter new, calls := s.calls ++ [new] } where
  idle := fun hnil => by simp [AsyncMutex.enter] at hnil
  writing := fun c v turns hc hp => by
    obtain hold | hwaiting := holds_enter hu hc
    · exact hu.writing c v turns hold hp
    · rw [hwaiting] at hp
      cases hp
  deleting := fun c v hc hp => by
    obtain hold | hwaiting := holds_enter hu hc
    · exact hu.deleting c v hold hp
    · rw [hwaiting] at hp
      cases hp

theorem linearised_read (h : Linearised start s)
    (hstep : queueStep s .read = some s') : Linearised start s' ∧ Underway s' := by
  simp only [queueStep] at hstep
  split at hstep
  · rename_i call rest userId hqueue hreading
    have hcaller : call.caller = some userId := h.caller hqueue (by rw [hreading]; rfl)
    -- the caller's list is read, and nothing is written yet
    have hwriting : ∀ turns, call.operation.answer call.caller turns = .completed →
        turns = call.operation.apply (s.read userId) →
        Linearised start { s with progress := .writing userId turns } ∧
          Underway { s with progress := .writing userId turns } := by
      intro turns hanswer hturns
      refine ⟨h.setProgress hqueue hcaller _ rfl, ⟨fun hnil => ?_, fun c v turns' hc hv => ?_, ?_⟩⟩
      · rw [hqueue] at hnil
        cases hnil
      · obtain rfl := (holds_of_queue hqueue).unique hc
        cases hv
        exact ⟨hanswer, hturns⟩
      · rintro c v - ⟨⟩
    cases hop : call.operation with
    | enqueue turn =>
      simp only [hop] at hstep
      obtain rfl := Option.some.inj hstep
      exact hwriting _ (by rw [hop, hcaller]; rfl) (by rw [hop]; rfl)
    | remove key =>
      simp only [hop] at hstep
      obtain rfl := Option.some.inj hstep
      exact hwriting _ (by rw [hop, hcaller]; rfl) (by rw [hop]; rfl)
    | pending =>
      simp only [hop] at hstep
      obtain rfl := Option.some.inj hstep
      refine ⟨?_, underway_of_waiting rfl⟩
      rw [← hcaller]
      refine h.completeUnstored hqueue ?_ fun v => ?_
      · rw [hop, hcaller]
        rfl
      · rw [hop]
        exact (ite_self _).symm
    | purgeCurrentUser =>
      simp only [hop] at hstep
      cases hstep
  · cases hstep

/-- A write or a deletion of the caller's key. -/
theorem Linearised.completeAs (h : Linearised start s) (hqueue : s.lock.queue = call :: rest)
    {userId : Int} (hcaller : call.caller = some userId) {turns : Option (List PendingTurn)}
    (hanswer : call.operation.answer (some userId) (s.read userId) = .completed)
    (hturns : turns.getD [] = call.operation.apply (s.read userId)) :
    Linearised start ({ s with store := Function.update s.store (keyFor userId) turns }.complete
      call (some userId) .completed) := by
  rw [← hcaller]
  refine h.complete hqueue ?_ (fun v => ?_) fun key hkey => Function.update_of_ne (hkey userId hcaller) ..
  · rw [hcaller]
    exact hanswer.symm
  · simp only [hcaller, Option.some.injEq]
    by_cases hv : userId = v
    · subst hv
      rw [if_pos rfl, Function.update_self, hturns]
    · have hne : keyFor v ≠ keyFor userId := fun he => hv (keyFor_inj.mp he).symm
      rw [if_neg hv, Function.update_of_ne hne]
      rfl

/-- While every call starts as its caller the queue stays linearised. -/
theorem linearised_step {a : QueueAction} (h : Linearised start s) (hu : Underway s)
    (hg : startsAsCaller s a s') (hstep : queueStep s a = some s') :
    Linearised start s' ∧ Underway s' := by
  cases a with
  | setCurrentUser userId =>
    obtain rfl := Option.some.inj hstep
    exact ⟨⟨h.order, h.ranAs, h.running, h.stored, h.answers, h.others⟩,
      ⟨hu.idle, hu.writing, hu.deleting⟩⟩
  | call operation =>
    obtain rfl := Option.some.inj hstep
    exact ⟨h.enter hu _, hu.enter _⟩
  | start =>
    obtain ⟨call, rest, hqueue, hwaiting, hcases⟩ := start_cases hstep
    have hcaller := hg rfl call (holds_of_queue hqueue)
    obtain ⟨huser, rfl⟩ | ⟨userId, huser, ⟨hop, rfl⟩ | ⟨-, rfl⟩⟩ := hcases
    · rw [huser] at hcaller
      refine ⟨?_, underway_of_waiting rfl⟩
      rw [hcaller]
      refine h.completeUnstored hqueue ?_ fun v => ?_
      · rw [← hcaller]
        rfl
      · rw [if_neg (by rw [← hcaller]; simp)]
    · have hset := h.setProgress hqueue (hcaller.symm.trans huser) (.deleting userId) rfl
      refine ⟨hset, ⟨fun hnil => absurd (hqueue.symm.trans hnil) (List.cons_ne_nil _ _), ?_, ?_⟩⟩
      · rintro c v turns - ⟨⟩
      · rintro c v hc -
        obtain rfl := (holds_of_queue hqueue).unique hc
        exact hop
    · have hset := h.setProgress hqueue (hcaller.symm.trans huser) (.reading userId) rfl
      refine ⟨hset, ⟨fun hnil => absurd (hqueue.symm.trans hnil) (List.cons_ne_nil _ _), ?_, ?_⟩⟩
      · rintro c v turns - ⟨⟩
      · rintro c v - ⟨⟩
  | read => exact linearised_read h hstep
  | write =>
    simp only [queueStep] at hstep
    split at hstep
    · rename_i call rest userId turns hqueue hwriting
      obtain rfl := Option.some.inj hstep
      have hcaller : call.caller = some userId := h.caller hqueue (by rw [hwriting]; rfl)
      obtain ⟨hanswer, hturns⟩ := hu.writing call userId turns (holds_of_queue hqueue) hwriting
      refine ⟨h.completeAs hqueue hcaller ?_ hturns, underway_of_waiting rfl⟩
      rw [hcaller] at hanswer
      cases hop : call.operation <;> rw [hop] at hanswer <;> first | rfl | cases hanswer
    · cases hstep
  | delete =>
    simp only [queueStep] at hstep
    split at hstep
    · rename_i call rest userId hqueue hdeleting
      obtain rfl := Option.some.inj hstep
      have hcaller : call.caller = some userId := h.caller hqueue (by rw [hdeleting]; rfl)
      have hop := hu.deleting call userId (holds_of_queue hqueue) hdeleting
      refine ⟨h.completeAs hqueue hcaller ?_ ?_, underway_of_waiting rfl⟩
      · rw [hop]
        rfl
      · rw [hop]
        rfl
    · cases hstep

/-- A call that starts as somebody else already breaks the order of its caller. -/
theorem startsAsCaller_of_linearised {a : QueueAction} (h : Linearised start s')
    (hstep : queueStep s a = some s') : startsAsCaller s a s' := by
  rintro rfl c hc
  obtain ⟨call, rest, hqueue, -, hcases⟩ := start_cases hstep
  obtain rfl := (holds_of_queue hqueue).unique hc
  obtain ⟨huser, rfl⟩ | ⟨userId, huser, ⟨-, rfl⟩ | ⟨-, rfl⟩⟩ := hcases
  · rw [huser]
    exact h.ranAs _ (List.mem_append_right _ (List.mem_singleton_self _))
  · rw [huser]
    exact (h.running call userId hc rfl).symm
  · rw [huser]
    exact (h.running call userId hc rfl).symm

end steps

theorem linearised_init (start : String → Option (List PendingTurn)) :
    Linearised start (.init start) where
  order := rfl
  ranAs := fun _ hc => absurd hc List.not_mem_nil
  running := fun _ _ hc => by cases hc
  stored := fun _ => rfl
  answers := fun before c after h => by cases before <;> cases h
  others := fun _ _ => rfl

/-- **When the queues of the users are linearised.** For every interleaving of calls, user
switches and steps of the storage, every call acts on the queue of its caller, and each
stored list is the one its user's calls make of it in their order, at every moment, if and
only if every call starts while its caller is still signed in. -/
theorem queue_linearised_iff (start : String → Option (List PendingTurn))
    (as : List QueueAction) :
    Along queueStep (fun _ _ s' => Linearised start s') (.init start) as ↔
      Along queueStep startsAsCaller (.init start) as :=
  along_iff_of_invariant (I := fun s => Linearised start s ∧ Underway s)
    (fun _ _ _ hi (hs : queueStep _ _ = some _) =>
      ⟨fun hl => startsAsCaller_of_linearised hl hs, fun hg => (linearised_step hi.1 hi.2 hg hs).1⟩)
    (fun _ _ _ hi hg (hs : queueStep _ _ = some _) => linearised_step hi.1 hi.2 hg hs)
    ⟨linearised_init start, underway_of_waiting rfl⟩

/-- The turn that user 1 could not send. -/
def spoken : PendingTurn := ⟨5, "my own words", "k", none⟩

/-- User 1 queues the turn, and user 2 signs in before the queue has got to it. -/
def switchedMeanwhile : List QueueAction :=
  [.setCurrentUser (some 1), .call (.enqueue spoken), .setCurrentUser (some 2), .start, .read,
    .write]

/-- The turn of user 1 is stored in the queue of user 2. -/
theorem turn_queued_for_another :
    ∃ s, run queueStep (.init fun _ => none) switchedMeanwhile = some s ∧
      s.calls = [⟨.enqueue spoken, some 1⟩] ∧ s.read 1 = [] ∧ s.read 2 = [spoken] ∧
      ¬Linearised (fun _ => none) s := by
  obtain ⟨s, hs, hd⟩ := exists_run_of_check queueStep (.init fun _ => none) switchedMeanwhile
    (fun s => decide (s.calls = [⟨.enqueue spoken, some 1⟩] ∧ s.read 1 = [] ∧ s.read 2 = [spoken] ∧
      s.completed = [⟨.enqueue spoken, some 1⟩])) (by decide +kernel)
  obtain ⟨hcalls, hfirst, hsecond, hcompleted⟩ := of_decide_eq_true hd
  refine ⟨s, hs, hcalls, hfirst, hsecond, fun h => ?_⟩
  have hstored := h.stored 1
  rw [hfirst, hcompleted] at hstored
  cases hstored

end Apm.Offline
