import Apm.Lib.AsyncMutex
import Apm.Lib.Calls
import Apm.Lib.Run
import Mathlib.Data.List.Nodup

/-!
# What a login costs

A login verifies its password against the hash of the user it finds. Where it finds none it takes
the dummy hash of its worker, which the first such login computes behind a lock; the others wait for
it. So that a login does not tell whether its email is known, each one is to cost one verification.

One worker: its calls of `login` interleave at every `await`. The database answers what it likes.
The argon2 operations that complete are recorded; no call reads them.
-/

namespace Apm.Auth.Login

open Apm.Lib

set_option autoImplicit false

structure Request where
  email : String
  password : String
  deriving DecidableEq, Repr

/-- A row of users, as far as a login reads it. -/
structure User where
  id : Nat
  hashedPassword : String
  isActive : Option Bool
  deriving DecidableEq, Repr

/-- `_is_inactive` of a user that was found. -/
def User.isInactive (user : User) : Bool := user.isActive = some false

/-- Where a call of `login` stands, with the user that was found. -/
inductive Phase where
  /-- `get_by_email` -/
  | looking
  /-- `_dummy_hash_lock` -/
  | waiting
  /-- `hash_password` of the dummy -/
  | hashing
  /-- `verify_password` -/
  | verifying (user : Option User) (hash : String)
  /-- `_issue_tokens` -/
  | issuing (user : User)
  /-- `InvalidCredentialsError` -/
  | refused (user : Option User)
  /-- another exception, or a cancellation -/
  | dropped
  deriving DecidableEq, Repr

/-- An argon2 operation. -/
inductive Op where
  | hashed
  | verified (hash : String)
  deriving DecidableEq, Repr

structure World where
  /-- `_dummy_hash` -/
  dummyHash : Option String
  /-- `_dummy_hash_lock`: the calls inside and behind it -/
  lock : AsyncMutex Nat
  calls : List (Call Request Phase)
  /-- history: the operations that have completed, with their calls -/
  ops : List (Nat × Op)

inductive Event where
  | arrive (request : Request)
  | looked (call : Nat) (user : Option User)
  /-- the lock is handed to a call that waits -/
  | entered (call : Nat)
  | hashed (call : Nat) (hash : String)
  | verified (call : Nat) (ok : Bool)
  /-- what the call awaits raises, or the call is cancelled -/
  | dropped (call : Nat)

namespace World

def init : World := ⟨none, .free, [], []⟩

variable (w : World)

def phase (i : Nat) : Option Phase := w.calls[i]?.map Call.phase

def move (i : Nat) (p : Phase) : World := { w with calls := Call.setPhase w.calls i p }

/-- The call enters the lock; whoever finds it free goes on at once. -/
def enterLock (i : Nat) : World :=
  { w with
    lock := w.lock.enter i
    calls := Call.setPhase w.calls i (if (w.lock.enter i).Holds i then .hashing else .waiting) }

def leaveLock (i : Nat) (p : Phase) : World :=
  { w with lock := w.lock.leave, calls := Call.setPhase w.calls i p }

/-- `dummy_password_hash` up to its next `await`. -/
def dummyPasswordHash (i : Nat) : World :=
  match w.dummyHash with
  | some hash => w.move i (.verifying none hash)
  | none => w.enterLock i

/-- The second look at `_dummy_hash`, inside the lock. -/
def lookAgain (i : Nat) : World :=
  match w.dummyHash with
  | some hash => w.leaveLock i (.verifying none hash)
  | none => w.move i .hashing

/-- `login` behind `verify_password`. -/
def decided (user : Option User) (ok : Bool) : Phase :=
  match user with
  | none => .refused none
  | some user => if !ok || user.isInactive then .refused (some user) else .issuing user

end World

def step (w : World) : Event → Option World
  | .arrive request => some { w with calls := w.calls ++ [⟨request, .looking⟩] }
  | .looked i user =>
    match w.phase i, user with
    | some .looking, some user => some (w.move i (.verifying (some user) user.hashedPassword))
    | some .looking, none => some (w.dummyPasswordHash i)
    | _, _ => none
  | .entered i =>
    if w.phase i = some .waiting ∧ w.lock.Holds i then some (w.lookAgain i) else none
  | .hashed i hash =>
    if w.phase i = some .hashing then
      some { w.leaveLock i (.verifying none hash) with
        dummyHash := some hash
        ops := w.ops ++ [(i, .hashed)] }
    else none
  | .verified i ok =>
    match w.phase i with
    | some (.verifying user hash) =>
      some { w.move i (World.decided user ok) with ops := w.ops ++ [(i, .verified hash)] }
    | _ => none
  | .dropped i =>
    match w.phase i with
    | some .hashing => some (w.leaveLock i .dropped)
    | some .waiting => some { w.move i .dropped with lock := ⟨w.lock.queue.erase i⟩ }
    | some .looking | some (.verifying _ _) => some (w.move i .dropped)
    | _ => none

/-! ## What a login has cost -/

/-- The operations of one call. -/
def World.opsOf (w : World) (i : Nat) : List Op := (w.ops.filter fun e => e.1 = i).map Prod.snd

/-- The hash that a login verifies against. -/
def World.hashFor (w : World) (user : Option User) : Option String :=
  match user with
  | some user => some user.hashedPassword
  | none => w.dummyHash

/-- One verification, and behind a miss perhaps the computation of the dummy. -/
def Paid (w : World) (i : Nat) (user : Option User) : Prop :=
  ∃ hash, w.hashFor user = some hash ∧
    (w.opsOf i = [.verified hash] ∨ user = none ∧ w.opsOf i = [.hashed, .verified hash])

def PhaseOk (w : World) (i : Nat) : Phase → Prop
  | .looking => w.opsOf i = []
  | .waiting => w.opsOf i = [] ∧ i ∈ w.lock.queue
  | .hashing => w.opsOf i = [] ∧ w.lock.Holds i ∧ w.dummyHash = none
  | .verifying user hash =>
    w.hashFor user = some hash ∧ (w.opsOf i = [] ∨ user = none ∧ w.opsOf i = [.hashed])
  | .issuing user => Paid w i (some user)
  | .refused user => Paid w i user
  | .dropped => True

/-- The call is inside the lock or behind it. -/
def Phase.queues : Phase → Bool
  | .waiting | .hashing => true
  | _ => false

structure Inv (w : World) : Prop where
  phases : ∀ i p, w.phase i = some p → PhaseOk w i p
  queued : ∀ i ∈ w.lock.queue, ∃ p, w.phase i = some p ∧ p.queues = true
  nodup : w.lock.queue.Nodup
  fresh : ∀ e ∈ w.ops, e.1 < w.calls.length
  once : (w.ops.filter fun e => e.2 = .hashed).length = if w.dummyHash.isSome then 1 else 0

/-! ## One step -/

section steps

variable {w w' : World} {i j : Nat} {p q : Phase}

theorem opsOf_append {op : Op} (h : w'.ops = w.ops ++ [(i, op)]) : w'.opsOf j =
    if i = j then w.opsOf j ++ [op] else w.opsOf j := by
  rw [World.opsOf, h, World.opsOf, List.filter_append, List.map_append]
  split_ifs with hij
  · simp [hij]
  · simp [hij]

/-! ## The lock -/

/-- A call leaves the lock as it is, enters it, or is taken out of it. -/
inductive LockMove (m : AsyncMutex Nat) (i : Nat) : AsyncMutex Nat → Prop
  | same : LockMove m i m
  | enter : i ∉ m.queue → LockMove m i (m.enter i)
  | erase : LockMove m i ⟨m.queue.erase i⟩

theorem leave_eq_erase {m : AsyncMutex Nat} (h : m.Holds i) : m.leave = ⟨m.queue.erase i⟩ := by
  obtain ⟨rest, hrest⟩ := List.head?_eq_some_iff.mp h
  rw [AsyncMutex.leave, hrest, List.erase_cons_head, List.tail_cons]

theorem LockMove.mem_iff {m m' : AsyncMutex Nat} (h : LockMove m i m') (hne : j ≠ i) :
    j ∈ m'.queue ↔ j ∈ m.queue := by
  cases h with
  | same => exact Iff.rfl
  | enter => simp [AsyncMutex.enter, hne]
  | erase => exact List.mem_erase_of_ne hne

theorem LockMove.holds {m m' : AsyncMutex Nat} (h : LockMove m i m') (hne : j ≠ i)
    (hj : m.Holds j) : m'.Holds j := by
  cases h with
  | same => exact hj
  | enter => exact hj.enter
  | erase =>
    obtain ⟨rest, hrest⟩ := List.head?_eq_some_iff.mp hj
    rw [AsyncMutex.Holds, hrest, List.erase_cons_tail (by simpa using hne)]
    rfl

theorem LockMove.nodup {m m' : AsyncMutex Nat} (h : LockMove m i m') (hm : m.queue.Nodup) :
    m'.queue.Nodup := by
  cases h with
  | same => exact hm
  | enter hi =>
    refine List.nodup_append.mpr ⟨hm, List.nodup_singleton i, fun a ha b hb => ?_⟩
    rw [List.mem_singleton.mp hb]
    exact fun heq => hi (heq ▸ ha)
  | erase => exact hm.erase i

/-- What a step of one call does beside its phase and the lock. -/
inductive Effect (w : World) (i : Nat) : World → Prop
  | quiet {w' : World} : w'.dummyHash = w.dummyHash → w'.ops = w.ops → Effect w i w'
  | verified {w' : World} (hash : String) : w'.dummyHash = w.dummyHash →
    w'.ops = w.ops ++ [(i, .verified hash)] → Effect w i w'
  | hashed {w' : World} (hash : String) : w.lock.Holds i → w.dummyHash = none →
    w'.dummyHash = some hash → w'.ops = w.ops ++ [(i, .hashed)] → Effect w i w'

theorem Effect.kept (h : Effect w i w') (hash : String) (hsome : w.dummyHash = some hash) :
    w'.dummyHash = some hash := by
  cases h with
  | quiet hdummy => exact hdummy.trans hsome
  | verified _ hdummy => exact hdummy.trans hsome
  | hashed _ _ hnone =>
    rw [hnone] at hsome
    cases hsome

theorem Effect.inside (h : Effect w i w') : w'.dummyHash = w.dummyHash ∨ w.lock.Holds i := by
  cases h with
  | quiet hdummy => exact .inl hdummy
  | verified _ hdummy => exact .inl hdummy
  | hashed _ hholds => exact .inr hholds

theorem Effect.ops (h : Effect w i w') (hne : j ≠ i) : w'.opsOf j = w.opsOf j := by
  have happended (op : Op) (hops : w'.ops = w.ops ++ [(i, op)]) : w'.opsOf j = w.opsOf j := by
    rw [opsOf_append hops, if_neg (Ne.symm hne)]
  cases h with
  | quiet _ hops => rw [World.opsOf, hops, World.opsOf]
  | verified _ _ hops => exact happended _ hops
  | hashed _ _ _ _ hops => exact happended _ hops

theorem Effect.fresh (h : Effect w i w') {n : Nat} (hi : i < n) (hw : ∀ e ∈ w.ops, e.1 < n) :
    ∀ e ∈ w'.ops, e.1 < n := by
  have happended (op : Op) (hops : w'.ops = w.ops ++ [(i, op)]) : ∀ e ∈ w'.ops, e.1 < n := by
    rw [hops]
    intro e he
    rcases List.mem_append.mp he with he | he
    · exact hw e he
    · rw [List.mem_singleton.mp he]
      exact hi
  cases h with
  | quiet _ hops => rwa [hops]
  | verified _ _ hops => exact happended _ hops
  | hashed _ _ _ _ hops => exact happended _ hops

/-- The dummy is computed as often as it is there. -/
theorem Effect.once (h : Effect w i w')
    (hw : (w.ops.filter fun e => e.2 = .hashed).length = if w.dummyHash.isSome then 1 else 0) :
    (w'.ops.filter fun e => e.2 = .hashed).length = if w'.dummyHash.isSome then 1 else 0 := by
  cases h with
  | quiet hdummy hops => rw [hops, hdummy, hw]
  | verified _ hdummy hops => simpa [hops, hdummy, List.filter_append] using hw
  | hashed _ _ hnone hsome hops =>
    rw [hnone] at hw
    rw [hops, hsome, List.filter_append, List.length_append, hw]
    rfl

/-- A step of one call, to the phase `p`. -/
structure Goes (w : World) (i : Nat) (p : Phase) (w' : World) : Prop where
  calls : w'.calls = Call.setPhase w.calls i p
  lock : LockMove w.lock i w'.lock
  effect : Effect w i w'

theorem Goes.phase_other (h : Goes w i p w') (hne : j ≠ i) : w'.phase j = w.phase j := by
  rw [World.phase, h.calls, Call.getElem?_setPhase, if_neg (Ne.symm hne), World.phase]

theorem Goes.phase_self (h : Goes w i p w') (hi : w.phase i = some q) : w'.phase i = some p := by
  obtain ⟨c, hc, -⟩ := Option.map_eq_some_iff.mp hi
  rw [World.phase, h.calls, Call.getElem?_setPhase_self hc]
  rfl

/-- What holds of another call still does. -/
theorem Goes.phaseOk (h : Goes w i p w') (hne : j ≠ i) (hj : PhaseOk w j q) : PhaseOk w' j q := by
  have hhash {user : Option User} {hash : String} (hfor : w.hashFor user = some hash) :
      w'.hashFor user = some hash := by
    cases user with
    | none => exact h.effect.kept hash hfor
    | some user => exact hfor
  have hops := h.effect.ops hne
  have hpaid {user : Option User} (hpaid : Paid w j user) : Paid w' j user := by
    obtain ⟨hash, hfor, hcost⟩ := hpaid
    rw [← hops] at hcost
    exact ⟨hash, hhash hfor, hcost⟩
  cases q with
  | looking => exact hops.trans hj
  | waiting => exact ⟨hops.trans hj.1, (h.lock.mem_iff hne).mpr hj.2⟩
  | hashing =>
    refine ⟨hops.trans hj.1, h.lock.holds hne hj.2.1, ?_⟩
    obtain hsame | hholds := h.effect.inside
    · exact hsame.trans hj.2.2
    · exact absurd (hj.2.1.unique hholds) hne
  | verifying user hash =>
    refine ⟨hhash hj.1, ?_⟩
    rw [hops]
    exact hj.2
  | issuing user => exact hpaid hj
  | refused user => exact hpaid hj
  | dropped => trivial

theorem Inv.goes (hw : Inv w) (hi : w.phase i = some q) (h : Goes w i p w') (hp : PhaseOk w' i p)
    (hqueues : i ∈ w'.lock.queue → p.queues = true) : Inv w' where
  phases j r hj := by
    by_cases hne : j = i
    · subst hne
      rw [h.phase_self hi] at hj
      exact Option.some.inj hj ▸ hp
    · rw [h.phase_other hne] at hj
      exact h.phaseOk hne (hw.phases j r hj)
  queued j hj := by
    by_cases hne : j = i
    · subst hne
      exact ⟨p, h.phase_self hi, hqueues hj⟩
    · rw [h.phase_other hne]
      exact hw.queued j ((h.lock.mem_iff hne).mp hj)
  nodup := h.lock.nodup hw.nodup
  fresh := by
    obtain ⟨c, hc, -⟩ := Option.map_eq_some_iff.mp hi
    obtain ⟨hlt, -⟩ := List.getElem?_eq_some_iff.mp hc
    rw [h.calls, Call.length_setPhase]
    exact h.effect.fresh hlt hw.fresh
  once := h.effect.once hw.once

/-! ## Every step -/

/-- A call that is not in the lock has no place in its queue. -/
theorem Inv.not_queued (hw : Inv w) (hi : w.phase i = some q) (hq : q.queues = false) :
    i ∉ w.lock.queue := by
  intro hmem
  obtain ⟨p, hp, hqueues⟩ := hw.queued i hmem
  rw [hi] at hp
  rw [← Option.some.inj hp, hq] at hqueues
  cases hqueues

/-- A call that is taken out of the lock is no longer in its queue. -/
theorem Inv.not_mem_erase (hw : Inv w) : i ∉ w.lock.queue.erase i :=
  fun h => ((List.Nodup.mem_erase_iff hw.nodup).mp h).1 rfl

theorem inv_arrive (hw : Inv w) (request : Request) :
    Inv { w with calls := w.calls ++ [⟨request, .looking⟩] } where
  phases j p hj := by
    rw [World.phase, List.getElem?_append] at hj
    split at hj
    · exact hw.phases j p hj
    · rename_i hlt
      have hnone : w.opsOf j = [] := by
        rw [World.opsOf, List.map_eq_nil_iff, List.filter_eq_nil_iff]
        intro e he heq
        exact hlt (of_decide_eq_true heq ▸ hw.fresh e he)
      obtain ⟨c, hc, rfl⟩ := Option.map_eq_some_iff.mp hj
      rw [List.mem_singleton.mp (List.mem_of_getElem? hc)]
      exact hnone
  queued j hj := by
    obtain ⟨p, hp, hqueues⟩ := hw.queued j hj
    obtain ⟨c, hc, rfl⟩ := Option.map_eq_some_iff.mp hp
    obtain ⟨hlt, -⟩ := List.getElem?_eq_some_iff.mp hc
    refine ⟨c.phase, ?_, hqueues⟩
    rw [World.phase, List.getElem?_append_left hlt, hc]
    rfl
  nodup := hw.nodup
  fresh e he := by
    rw [List.length_append]
    exact Nat.lt_add_right _ (hw.fresh e he)
  once := hw.once

theorem goes_move : Goes w i p (w.move i p) := ⟨rfl, .same, .quiet rfl rfl⟩

theorem goes_leaveLock (h : w.lock.Holds i) : Goes w i p (w.leaveLock i p) :=
  ⟨rfl, by rw [World.leaveLock, leave_eq_erase h]; exact .erase, .quiet rfl rfl⟩

/-- Whoever has left the lock is no longer in its queue. -/
theorem Inv.not_mem_leave (hw : Inv w) (h : w.lock.Holds i) : i ∉ w.lock.leave.queue := by
  rw [leave_eq_erase h]
  exact hw.not_mem_erase

theorem inv_looked_none (hw : Inv w) (hi : w.phase i = some .looking) :
    Inv (w.dummyPasswordHash i) := by
  have hout := hw.not_queued hi rfl
  have hcost : w.opsOf i = [] := hw.phases i _ hi
  rw [World.dummyPasswordHash]
  split
  · rename_i hash hdummy
    exact hw.goes hi goes_move ⟨hdummy, .inl hcost⟩ fun h => absurd h hout
  · rename_i hdummy
    refine hw.goes hi (p := if (w.lock.enter i).Holds i then .hashing else .waiting)
      ⟨rfl, .enter hout, .quiet rfl rfl⟩ ?_ fun _ => by split <;> rfl
    split
    · rename_i hholds
      exact ⟨hcost, hholds, hdummy⟩
    · exact ⟨hcost, List.mem_append_right _ (List.mem_singleton_self i)⟩

theorem inv_entered (hw : Inv w) (hi : w.phase i = some .waiting) (hholds : w.lock.Holds i) :
    Inv (w.lookAgain i) := by
  have hcost : w.opsOf i = [] := (hw.phases i _ hi).1
  rw [World.lookAgain]
  split
  · rename_i hash hdummy
    exact hw.goes hi (goes_leaveLock hholds) ⟨hdummy, .inl hcost⟩
      fun h => absurd h (hw.not_mem_leave hholds)
  · rename_i hdummy
    exact hw.goes hi goes_move ⟨hcost, hholds, hdummy⟩ fun _ => rfl

theorem paid_of_verifying (hw : Inv w) {user : Option User} {hash : String}
    (hi : w.phase i = some (.verifying user hash)) (hdummy : w'.dummyHash = w.dummyHash)
    (hops : w'.ops = w.ops ++ [(i, .verified hash)]) : Paid w' i user := by
  obtain ⟨hfor, hcost⟩ := hw.phases i _ hi
  have hfor' : w'.hashFor user = some hash := by
    cases user with
    | none => exact hdummy.trans hfor
    | some user => exact hfor
  refine ⟨hash, hfor', ?_⟩
  rw [opsOf_append hops, if_pos rfl]
  obtain hnil | ⟨hnone, hhashed⟩ := hcost
  · exact .inl (by rw [hnil, List.nil_append])
  · exact .inr ⟨hnone, by rw [hhashed]; rfl⟩

theorem phaseOk_decided {user : Option User} (h : Paid w i user) (ok : Bool) :
    PhaseOk w i (World.decided user ok) := by
  cases user with
  | none => exact h
  | some user =>
    rw [World.decided]
    split <;> exact h

theorem inv_step {e : Event} (hw : Inv w) (h : step w e = some w') : Inv w' := by
  cases e with
  | arrive request =>
    obtain rfl := Option.some.inj h
    exact inv_arrive hw request
  | looked i user =>
    simp only [step] at h
    split at h
    · rename_i user hi
      obtain rfl := Option.some.inj h
      have hout := hw.not_queued hi rfl
      exact hw.goes hi goes_move ⟨rfl, .inl (hw.phases i _ hi)⟩ fun h => absurd h hout
    · rename_i hi
      obtain rfl := Option.some.inj h
      exact inv_looked_none hw hi
    · cases h
  | entered i =>
    simp only [step] at h
    split at h
    · rename_i hi
      obtain rfl := Option.some.inj h
      exact inv_entered hw hi.1 hi.2
    · cases h
  | hashed i hash =>
    simp only [step] at h
    split at h
    · rename_i hi
      obtain rfl := Option.some.inj h
      obtain ⟨hcost, hholds, hnone⟩ := hw.phases i _ hi
      have hgoes := goes_leaveLock (p := .verifying none hash) hholds
      refine hw.goes hi ⟨hgoes.calls, hgoes.lock, .hashed hash hholds hnone rfl rfl⟩
        ⟨rfl, .inr ⟨rfl, ?_⟩⟩ fun h => absurd h (hw.not_mem_leave hholds)
      rw [opsOf_append (w := w) rfl, if_pos rfl, hcost, List.nil_append]
    · cases h
  | verified i ok =>
    simp only [step] at h
    split at h
    · rename_i user hash hi
      obtain rfl := Option.some.inj h
      refine hw.goes hi (p := World.decided user ok) ⟨rfl, .same, .verified hash rfl rfl⟩ ?_
        fun h => absurd h (hw.not_queued hi rfl)
      have hpaid : Paid { w.move i (World.decided user ok) with
          ops := w.ops ++ [(i, .verified hash)] } i user := paid_of_verifying hw hi rfl rfl
      exact phaseOk_decided hpaid ok
    · cases h
  | dropped i =>
    simp only [step] at h
    split at h
    · rename_i hi
      obtain rfl := Option.some.inj h
      obtain ⟨-, hholds, -⟩ := hw.phases i _ hi
      exact hw.goes hi (goes_leaveLock hholds) trivial fun h => absurd h (hw.not_mem_leave hholds)
    · rename_i hi
      obtain rfl := Option.some.inj h
      exact hw.goes hi (p := .dropped) ⟨rfl, .erase, .quiet rfl rfl⟩ trivial
        fun h => absurd h hw.not_mem_erase
    · rename_i hi
      obtain rfl := Option.some.inj h
      exact hw.goes hi goes_move trivial fun h => absurd h (hw.not_queued hi rfl)
    · rename_i hi
      obtain rfl := Option.some.inj h
      exact hw.goes hi goes_move trivial fun h => absurd h (hw.not_queued hi rfl)
    · cases h

end steps

theorem inv_init : Inv World.init where
  phases _ _ h := by cases h
  queued _ h := absurd h List.not_mem_nil
  nodup := List.nodup_nil
  fresh _ h := absurd h List.not_mem_nil
  once := rfl

theorem inv_of_run {es : List Event} {w : World} (h : run step World.init es = some w) : Inv w :=
  run_preserves (fun _ _ _ => inv_step) inv_init h

/-- **A login costs one verification, whether its email is known or not.** In every interleaving,
with cancellations and failures at any point, the dummy hash is computed once at most, so that
at most one login pays for it; each login that is answered has verified its password once, against
the hash of the user it found or else against that one dummy; and a login that waits for the dummy
is not stuck, as the head of the queue computes it or can go on. -/
theorem login_costs {es : List Event} {w : World} (h : run step World.init es = some w) :
    (w.ops.filter fun e => e.2 = .hashed).length ≤ 1 ∧
      (∀ i user, w.phase i = some (.refused user) ∨
        (∃ u, user = some u ∧ w.phase i = some (.issuing u)) → Paid w i user) ∧
      ∀ i, w.phase i = some .waiting → ∃ j, w.lock.Holds j ∧
        (w.phase j = some .hashing ∨ (step w (.entered j)).isSome) := by
  have hw := inv_of_run h
  refine ⟨?_, fun i user hi => ?_, fun i hi => ?_⟩
  · rw [hw.once]
    split <;> decide
  · obtain hi | ⟨u, rfl, hi⟩ := hi
    · exact hw.phases i _ hi
    · exact hw.phases i _ hi
  · obtain ⟨-, hqueued⟩ := hw.phases i _ hi
    obtain ⟨j, rest, hj⟩ := List.exists_cons_of_ne_nil (List.ne_nil_of_mem hqueued)
    have hj : w.lock.Holds j := by rw [AsyncMutex.Holds, hj, List.head?_cons]
    refine ⟨j, hj, ?_⟩
    obtain ⟨p, hp, hqueues⟩ := hw.queued j (List.mem_of_head? hj)
    cases p with
    | waiting => exact .inr (by rw [step, if_pos ⟨hp, hj⟩]; rfl)
    | hashing => exact .inl hp
    | _ => cases hqueues

/-- Two emails that nobody has and one that somebody has. -/
def threeLogins : List Event :=
  [.arrive ⟨"ann@x.com", "a"⟩, .arrive ⟨"bob@x.com", "b"⟩, .arrive ⟨"eve@x.com", "e"⟩,
    .looked 0 none, .looked 1 none, .looked 2 (some ⟨7, "argon2-eve", none⟩), .hashed 0 "argon2-dummy",
    .entered 1, .verified 0 false, .verified 2 true, .verified 1 false]

theorem login_costs_threeLogins :
    ∃ w, run step World.init threeLogins = some w ∧
      (w.ops.filter fun e => e.2 = .hashed).length ≤ 1 ∧ Paid w 1 none := by
  have hcheck : (run step World.init threeLogins).map
      (fun w => decide (w.phase 1 = some (.refused none))) = some true := by decide
  obtain ⟨w, hrun, hw⟩ := exists_run_of_check _ _ _ _ hcheck
  obtain ⟨honce, hpaid, -⟩ := login_costs hrun
  exact ⟨w, hrun, honce, hpaid 1 none (.inl (of_decide_eq_true hw))⟩

end Apm.Auth.Login
