import Mathlib
import Apm.Conversation.ReplayOnce
import Apm.Conversation.TurnLock

/-!
# Client keys and turn locks in one table

The row of a session's turn lock stands under the text of `_turn_lock_key`, next to the
rows of the `Idempotency-Key` headers of the same user. A request learns from a row only
that it is there. This file proves exactly for which headers the two kinds of rows stay
apart, over every run of the endpoints that begins with an empty table.
-/

namespace Apm.Conversation

open Apm.Core Apm.Lib Apm.Idempotency

set_option autoImplicit false

variable {ι : Type} [DecidableEq ι]

/-- The endpoints beside the requests that have claimed their key so far. -/
structure Traced (ι : Type) where
  world : World ι
  claimants : List ι

/-- A key is claimed by the step from `claim` to `acquire`. -/
def nowClaimed (w w' : World ι) (a : Action ι) : List ι :=
  match a.request with
  | some i => if w.phase i = .claim ∧ w'.phase i = .acquire then [i] else []
  | none => []

def traced (S : Setup ι) (x : Traced ι) (a : Action ι) : Option (Traced ι) :=
  (step S x.world a).map fun w => ⟨w, nowClaimed x.world w a ++ x.claimants⟩

/-- No request has begun and the table is empty. -/
def Traced.init (S : Setup ι) (clock : Instant) (transcripts : Int → List Message) : Traced ι :=
  ⟨.init S clock (fun _ => none) transcripts, []⟩

/-- The requests carry one key of one user. -/
def Setup.SameKey (S : Setup ι) (j i : ι) : Prop :=
  (S.request j).userId = (S.request i).userId ∧ (S.request j).key = (S.request i).key

/-- What a step may say about keys and locks. A refused lock has another turn of the session
in progress. A key is in flight, or completed, because of another request that carried and
claimed it, and a completed one comes with the reply of that request. -/
structure Separated (S : Setup ι) (x : Traced ι) (a : Action ι) (x' : Traced ι) : Prop where
  refused : ∀ i readAt stamp, a = .acquire i readAt stamp →
    claim x.world.table (S.ref (i, .lock)) (readAt - staleClaim) stamp = none →
    ∃ j, j ≠ i ∧ (S.request j).userId = (S.request i).userId ∧
      (S.request j).sessionId = (S.request i).sessionId ∧
      (x.world.phase j).acts (S.request j).keyed .lock = true
  inFlight : ∀ i, a = .reread i → x'.world.phase i = .finish [] .inFlight →
    ∃ j ∈ x.claimants, j ≠ i ∧ S.SameKey j i
  completed : ∀ i response, (a = .lookup i ∨ a = .reread i) →
    x'.world.phase i = .finish [] (.cached response) →
    ∃ j ∈ x.claimants, j ≠ i ∧ S.SameKey j i ∧
      ∃ todo, x.world.phase j = .finish todo (.replied response)

/-- The release of a lock fails or is never run. -/
def dropsLock (w : World ι) : Action ι → Bool
  | .skip i =>
    match w.phase i with
    | .finish (.releaseTurnLock :: _) _ => true
    | _ => false
  | _ => false

/-- Sections end: none outlasts a live claim, and each gives its lock back. -/
def sectionsFinish (S : Setup ι) (x : Traced ι) (a : Action ι) (x' : Traced ι) : Prop :=
  (∀ i, (x'.world.phase i).acts (S.request i).keyed .lock = true →
    withinStale x'.world.clock (x'.world.tenure (i, .lock)) = true) ∧ dropsLock x.world a = false

instance [Fintype ι] (S : Setup ι) (x : Traced ι) (a : Action ι) (x' : Traced ι) :
    Decidable (sectionsFinish S x a x') := inferInstanceAs (Decidable (_ ∧ _))

/-- No request carries as its key the text of a turn lock of its user. -/
def NamesApart (S : Setup ι) : Prop :=
  ∀ i j, (S.request i).userId = (S.request j).userId →
    (S.request i).key ≠ some (turnLockKey (S.request j).sessionId)

/-- The texts of two sessions' locks differ. -/
theorem turnLockKey_inj {s t : Int} : turnLockKey s = turnLockKey t ↔ s = t := by
  constructor
  · intro h
    have hrepr : Int.repr s = Int.repr t := (String.append_right_inj _).mp h
    exact Int.repr_inj.mp hrepr
  · rintro rfl
    rfl

omit [DecidableEq ι] in
/-- A row of two keys is a row of one text. -/
theorem sameKey_of_ref {S : Setup ι} {i j : ι} (hi : (S.request i).keyed = true)
    (hj : (S.request j).keyed = true) (h : S.ref (j, .key) = S.ref (i, .key)) : S.SameKey j i := by
  obtain ⟨hi', hki⟩ := Option.isSome_iff_exists.mp hi
  obtain ⟨hj', hkj⟩ := Option.isSome_iff_exists.mp hj
  simp only [Setup.ref, Request.ref, hki, hkj, Option.getD_some, Prod.mk.injEq] at h
  exact ⟨h.1, by rw [hkj, hki, h.2]⟩

omit [DecidableEq ι] in
theorem NamesApart.ref_ne {S : Setup ι} (h : NamesApart S) {i : ι}
    (hi : (S.request i).keyed = true) (j : ι) : S.ref (i, .key) ≠ S.ref (j, .lock) := by
  obtain ⟨k, hk⟩ := Option.isSome_iff_exists.mp hi
  intro href
  simp only [Setup.ref, Request.ref, hk, Option.getD_some, Prod.mk.injEq] at href
  exact h i j href.1 (by rw [hk, href.2])

/-! ## What the phases of a request keep -/

section phases

variable (r : Request)

/-- Every way out of a section gives the lock back. -/
theorem lock_mem_afterPrepareError : .releaseTurnLock ∈ r.afterPrepareError := List.mem_cons_self

theorem lock_mem_afterLlmError : .releaseTurnLock ∈ r.afterLlmError := by
  unfold Request.afterLlmError
  split <;> simp

theorem lock_mem_afterPersist (reply : String) : .releaseTurnLock ∈ r.afterPersist reply := by
  unfold Request.afterPersist
  split <;> simp

theorem lock_mem_afterPersistError (partialReply : Bool) :
    .releaseTurnLock ∈ r.afterPersistError partialReply := by
  unfold Request.afterPersistError
  split <;> simp

theorem lock_mem_afterLoss (partialReply cancelled : Bool) :
    .releaseTurnLock ∈ r.afterLoss partialReply cancelled := by
  unfold Request.afterLoss
  split
  · exact List.mem_singleton_self _
  · exact lock_mem_afterPersistError r partialReply

theorem lock_mem_afterPrepareCancel : .releaseTurnLock ∈ r.afterPrepareCancel := by
  unfold Request.afterPrepareCancel
  split <;> simp

theorem acts_lock_finish {todo : List Final} {outcome : Outcome} {keyed : Bool} :
    (Phase.finish todo outcome).acts keyed .lock = true ↔ .releaseTurnLock ∈ todo := by
  simp only [Phase.acts, List.any_eq_true, decide_eq_true_eq]
  constructor
  · rintro ⟨op, hop, hrole⟩
    cases op with
    | releaseTurnLock => exact hop
    | release => cases hrole
    | complete response => cases hrole
  · exact fun h => ⟨_, h, rfl⟩

/-- A cancelled section still gives its lock back. -/
theorem acts_lock_onCancel {p : Phase} (h : p.acts r.keyed .lock = true) :
    (onCancel r p).acts r.keyed .lock = true := by
  cases p with
  | lookup | claim | reread | acquire => cases h
  | prepare => exact acts_lock_finish.mpr (lock_mem_afterPrepareCancel r)
  | generate base => rfl
  | persist base reply cut => rfl
  | finish todo outcome =>
    refine acts_lock_finish.mpr (List.mem_filter.mpr ⟨acts_lock_finish.mp h, ?_⟩)
    exact decide_eq_true rfl

end phases

section steps

variable {S : Setup ι} {w w' : World ι} {a : Action ι} {i : ι}

@[simp] theorem setPhase_self (w : World ι) (i : ι) (p : Phase) : (w.setPhase i p).phase i = p :=
  Function.update_self ..

/-- A section stays open until its lock is given back. -/
theorem acts_lock_step (h : step S w a = some w')
    (hacts : (w.phase i).acts (S.request i).keyed .lock = true) (hfinal : a ≠ .finalise i)
    (hdrop : dropsLock w a = false) :
    (w'.phase i).acts (S.request i).keyed .lock = true := by
  by_cases hi : a.request = some i
  swap
  · rwa [(step_moves h).phase_other hi]
  have hset : ∀ {v : World ι} {p : Phase}, p.acts (S.request i).keyed .lock = true →
      ((v.setPhase i p).phase i).acts (S.request i).keyed .lock = true := fun hp => by
    rwa [setPhase_self]
  have hbefore : ∀ {p : Phase}, w.phase i = p → p.acts (S.request i).keyed .lock ≠ false :=
    fun hp he => by
      rw [hp, he] at hacts
      cases hacts
  cases a with
  | tick micros => cases hi
  | lookup j | claim j | reread j | acquire j =>
    obtain rfl := Option.some.inj hi
    simp only [step] at h
    split at h
    · rename_i hphase
      exact absurd rfl (hbefore hphase)
    · cases h
  | prepare j ok =>
    obtain rfl := Option.some.inj hi
    simp only [step] at h
    split at h
    · split_ifs at h <;> obtain rfl := Option.some.inj h
      · exact hset rfl
      · exact hset (acts_lock_finish.mpr (lock_mem_afterPrepareError _))
    · cases h
  | generate j result =>
    obtain rfl := Option.some.inj hi
    simp only [step] at h
    split at h
    · split at h
      · obtain rfl := Option.some.inj h
        exact hset rfl
      · obtain rfl := Option.some.inj h
        exact hset rfl
      · cases h
      · obtain rfl := Option.some.inj h
        exact hset (acts_lock_finish.mpr (lock_mem_afterLlmError _))
    · cases h
  | persist j result =>
    obtain rfl := Option.some.inj hi
    simp only [step] at h
    split at h
    · split at h <;> obtain rfl := Option.some.inj h
      · exact hset (acts_lock_finish.mpr (lock_mem_afterPersist _ _))
      · exact hset (acts_lock_finish.mpr (lock_mem_afterLoss _ _ _))
      · exact hset (acts_lock_finish.mpr (lock_mem_afterPersist _ _))
      · exact hset (acts_lock_finish.mpr (lock_mem_afterPersistError _ _))
    · cases h
  | finalise j => exact absurd (congrArg Action.finalise (Option.some.inj hi)) hfinal
  | skip j =>
    obtain rfl := Option.some.inj hi
    simp only [step] at h
    split at h
    · rename_i op rest outcome hphase
      obtain rfl := Option.some.inj h
      rw [hphase, acts_lock_finish, List.mem_cons] at hacts
      -- the operation that is dropped is not the one on the lock
      have hne : Final.releaseTurnLock ≠ op := fun he => by
        rw [← he] at hphase
        simp [dropsLock, hphase] at hdrop
      exact hset (acts_lock_finish.mpr (hacts.resolve_left hne))
    · cases h
  | error j =>
    obtain rfl := Option.some.inj hi
    obtain ⟨p, hp, rfl⟩ := Option.map_eq_some_iff.mp h
    cases hphase : w.phase j with
    | lookup | claim | reread | acquire => exact absurd rfl (hbefore hphase)
    | prepare | generate | persist | finish => simp [hphase, onError] at hp
  | cancel j =>
    obtain rfl := Option.some.inj hi
    obtain rfl := Option.some.inj h
    exact hset (acts_lock_onCancel _ hacts)

/-- The phases in which a request finds out about its key. -/
def resolving (p : Phase) : Bool := p = .lookup || p = .claim || p = .reread

theorem onError_finish {r : Request} {p q : Phase} (h : onError r p = some q) :
    resolving q = false := by
  cases p with
  | lookup | claim | reread | acquire =>
    obtain rfl := Option.some.inj h
    rfl
  | prepare | generate | persist | finish => cases h

theorem onCancel_finish (r : Request) (p : Phase) : resolving (onCancel r p) = false := by
  cases p <;> rfl

/-- A request does not come back to its key, and is sent to read again by a row. -/
theorem resolving_step (h : step S w a = some w') (hphase : resolving (w'.phase i) = true) :
    resolving (w.phase i) = true ∧ (w'.phase i = .reread → w.phase i = .reread ∨
      ∃ readAt stamp, claim w.table (S.ref (i, .key)) (readAt - staleClaim) stamp = none) := by
  by_cases hi : a.request = some i
  swap
  · rw [(step_moves h).phase_other hi] at hphase ⊢
    exact ⟨hphase, .inl⟩
  have hset : ∀ {v : World ι} {p : Phase}, some (v.setPhase i p) = some w' → w'.phase i = p :=
    fun hv => by rw [← Option.some.inj hv, setPhase_self]
  have hpast : ∀ {p : Phase}, w'.phase i = p → resolving p ≠ false := fun hp he => by
    rw [hp, he] at hphase
    cases hphase
  cases a with
  | tick micros => cases hi
  | lookup j =>
    obtain rfl := Option.some.inj hi
    simp only [step] at h
    split at h
    · rename_i hlookup
      split at h
      · exact absurd rfl (hpast (hset h))
      · rw [hset h, hlookup]
        exact ⟨rfl, fun he => by cases he⟩
    · cases h
  | claim j readAt stamp =>
    obtain rfl := Option.some.inj hi
    simp only [step] at h
    split at h
    · rename_i hclaim
      split_ifs at h
      split at h
      · exact absurd rfl (hpast (hset h))
      · rename_i hnone
        rw [hclaim]
        exact ⟨rfl, fun _ => .inr ⟨readAt, stamp, hnone⟩⟩
    · cases h
  | reread j =>
    obtain rfl := Option.some.inj hi
    simp only [step] at h
    split at h
    · split at h <;> exact absurd rfl (hpast (hset h))
    · cases h
  | acquire j readAt stamp =>
    obtain rfl := Option.some.inj hi
    simp only [step] at h
    split at h
    · split_ifs at h
      split at h <;> exact absurd rfl (hpast (hset h))
    · cases h
  | prepare j ok =>
    obtain rfl := Option.some.inj hi
    simp only [step] at h
    split at h
    · split_ifs at h <;> exact absurd rfl (hpast (hset h))
    · cases h
  | generate j result =>
    obtain rfl := Option.some.inj hi
    simp only [step] at h
    split at h
    · split at h <;> first | exact absurd rfl (hpast (hset h)) | cases h
    · cases h
  | persist j result =>
    obtain rfl := Option.some.inj hi
    simp only [step] at h
    split at h
    · split at h <;> exact absurd rfl (hpast (hset h))
    · cases h
  | finalise j | skip j =>
    obtain rfl := Option.some.inj hi
    simp only [step] at h
    split at h
    · exact absurd rfl (hpast (hset h))
    · cases h
  | error j =>
    obtain rfl := Option.some.inj hi
    obtain ⟨p, hp, rfl⟩ := Option.map_eq_some_iff.mp h
    have hend := onError_finish hp
    exact absurd hend (hpast (setPhase_self ..))
  | cancel j =>
    obtain rfl := Option.some.inj hi
    exact absurd (onCancel_finish (S.request j) (w.phase j)) (hpast (hset h))

/-- A response comes from the row of the key. -/
theorem cached_step {response : String} (h : step S w a = some w')
    (ha : a = .lookup i ∨ a = .reread i) (hphase : w'.phase i = .finish [] (.cached response)) :
    resolving (w.phase i) = true ∧
      (Idempotency.lookup w.table (S.ref (i, .key))).2 = some response := by
  obtain rfl | rfl := ha
  · simp only [step] at h
    split at h
    · rename_i hlookup
      split at h
      · rename_i found hfound
        rw [← Option.some.inj h, setPhase_self] at hphase
        cases hphase
        exact ⟨by rw [hlookup]; rfl, by rw [hfound]⟩
      · rw [← Option.some.inj h, setPhase_self] at hphase
        cases hphase
    · cases h
  · simp only [step] at h
    split at h
    · rename_i hreread
      split at h
      · rename_i found hfound
        rw [← Option.some.inj h, setPhase_self] at hphase
        cases hphase
        exact ⟨by rw [hreread]; rfl, hfound⟩
      · rw [← Option.some.inj h, setPhase_self] at hphase
        cases hphase
    · cases h

end steps

/-! ## Every row has its request -/

/-- What the rows say and who wrote them: a pending row has a holder, a completed one a
request that replied its response, and whoever reads again has seen the row of a claimant. -/
structure Filed (S : Setup ι) (x : Traced ι) : Prop extends Disciplined S x.world where
  unclaimed : ∀ i, resolving (x.world.phase i) = true →
    (S.request i).keyed = true ∧ i ∉ x.claimants
  keyed : ∀ i ∈ x.claimants, (S.request i).keyed = true
  claimed : ∀ i, x.world.tenure (i, .key) ≠ .free → i ∈ x.claimants
  locked : ∀ i, x.world.tenure (i, .lock) ≠ .free →
    (x.world.phase i).acts (S.request i).keyed .lock = true
  replies : ∀ i todo outcome response, x.world.phase i = .finish todo outcome →
    .complete response ∈ todo → outcome = .replied response
  pending : ∀ r t, Pending x.world.table r t → ∃ k, S.ref k = r ∧ x.world.tenure k = .held t
  completed : ∀ r row response, x.world.table r = some row → row.response = some response →
    ∃ i ∈ x.claimants, S.ref (i, .key) = r ∧
      ∃ todo, x.world.phase i = .finish todo (.replied response)
  reread : ∀ i, x.world.phase i = .reread →
    ∃ j ∈ x.claimants, S.ref (j, .key) = S.ref (i, .key)

/-- A refused claim has found a row. -/
theorem claim_eq_none {table : Table} {r : Ref} {staleBefore stamp : Instant}
    (h : claim table r staleBefore stamp = none) : ∃ row, table r = some row := by
  cases hrow : table r with
  | none => simp [claim, hrow] at h
  | some row => exact ⟨row, rfl⟩

omit [DecidableEq ι] in
/-- The row of a client key was claimed by a request that carries the key. -/
theorem Filed.claimant {S : Setup ι} {x : Traced ι} (h : Filed S x) (hapart : NamesApart S) {i : ι}
    (hi : (S.request i).keyed = true) {row : IdempotencyKey}
    (hrow : x.world.table (S.ref (i, .key)) = some row) :
    ∃ j ∈ x.claimants, S.ref (j, .key) = S.ref (i, .key) := by
  obtain ⟨response, createdAt⟩ := row
  cases response with
  | some response =>
    obtain ⟨j, hj, href, -⟩ := h.completed _ _ response hrow rfl
    exact ⟨j, hj, href⟩
  | none =>
    obtain ⟨⟨j, role⟩, href, hheld⟩ := h.pending _ createdAt hrow
    cases role with
    | key => exact ⟨j, h.claimed j (by rw [hheld]; simp), href⟩
    | lock => exact absurd href.symm (hapart.ref_ne hi j)

section preservation

variable {S : Setup ι} {x : Traced ι} {w' : World ι} {a : Action ι}

theorem traced_eq_some_iff {x' : Traced ι} : traced S x a = some x' ↔
    step S x.world a = some x'.world ∧
      x'.claimants = nowClaimed x.world x'.world a ++ x.claimants := by
  rw [traced, Option.map_eq_some_iff]
  constructor
  · rintro ⟨w, hw, rfl⟩
    exact ⟨hw, rfl⟩
  · rintro ⟨hw, hclaimants⟩
    exact ⟨x'.world, hw, by rw [← hclaimants]⟩

omit [DecidableEq ι] in
theorem mem_nowClaimed {w w' : World ι} {i : ι} : i ∈ nowClaimed w w' a ↔
    a.request = some i ∧ w.phase i = .claim ∧ w'.phase i = .acquire := by
  unfold nowClaimed
  cases hr : a.request with
  | none => simp
  | some j =>
    by_cases hclaim : w.phase j = .claim ∧ w'.phase j = .acquire
    · simp only [if_pos hclaim, List.mem_singleton, Option.some.injEq]
      constructor
      · rintro rfl
        exact ⟨rfl, hclaim⟩
      · exact fun h => h.1.symm
    · simp only [if_neg hclaim, List.not_mem_nil, Option.some.injEq, false_iff]
      rintro ⟨rfl, h⟩
      exact hclaim h

/-- What a claim, a final operation or any other step leaves held. -/
theorem claimed_step (h : Filed S x) (hmove : Moves S x.world a w') (i : ι)
    (hi : w'.tenure (i, .key) ≠ .free) : i ∈ nowClaimed x.world w' a ++ x.claimants := by
  rw [List.mem_append, mem_nowClaimed]
  cases hmove with
  | tick micros => exact .inr (h.claimed i hi)
  | quiet j p _ _ _ => exact .inr (h.claimed i hi)
  | store j base reply cut _ | lost j base reply cut _ _ => exact .inr (h.claimed i hi)
  | take j role readAt stamp table hphase _ _ _ hj _ =>
    by_cases hself : (i, Role.key) = (j, role)
    · obtain ⟨rfl, rfl⟩ := Prod.mk.inj hself
      exact .inl ⟨hj, hphase, Function.update_self ..⟩
    · exact .inr (h.claimed i fun hfree => hi ((take_tenure_eq_free_iff stamp table hself).mpr hfree))
  | finalise j op rest outcome _ =>
    refine .inr (h.claimed i fun hfree => hi ?_)
    change Tenure.leave x.world.tenure (j, op.role) (i, .key) = .free
    by_cases hself : (i, Role.key) = (j, op.role)
    · rw [hself, Tenure.leave_self]
    · rw [Tenure.leave_other hself, hfree]

theorem locked_step (h : Filed S x) (hstep : step S x.world a = some w')
    (hdrop : dropsLock x.world a = false) (i : ι) (hi : w'.tenure (i, .lock) ≠ .free) :
    (w'.phase i).acts (S.request i).keyed .lock = true := by
  have hkeep : x.world.tenure (i, .lock) ≠ .free → a ≠ .finalise i →
      (w'.phase i).acts (S.request i).keyed .lock = true := fun hheld hfinal =>
    acts_lock_step hstep (h.locked i hheld) hfinal hdrop
  cases step_moves hstep with
  | tick micros => exact hkeep hi (by simp)
  | quiet j p _ _ ha => exact hkeep hi (ha i)
  | store j base reply cut _ | lost j base reply cut _ _ => exact hkeep hi (by simp)
  | take j role readAt stamp table _ _ _ _ _ ha =>
    by_cases hself : (i, Role.lock) = (j, role)
    · obtain ⟨rfl, rfl⟩ := Prod.mk.inj hself
      simp [World.setPhase, Role.claimed, Phase.acts]
    · exact hkeep (fun hfree => hi ((take_tenure_eq_free_iff stamp table hself).mpr hfree)) (ha i)
  | finalise j op rest outcome hphase =>
    change Tenure.leave x.world.tenure (j, op.role) (i, .lock) ≠ .free at hi
    by_cases hself : (i, Role.lock) = (j, op.role)
    · rw [hself, Tenure.leave_self] at hi
      exact absurd rfl hi
    rw [Tenure.leave_other hself] at hi
    by_cases hij : i = j
    · subst hij
      have hacts := h.locked i hi
      rw [hphase, acts_lock_finish, List.mem_cons] at hacts
      rw [setPhase_self]
      -- the operation that ran is the one on the key
      exact acts_lock_finish.mpr (hacts.resolve_left fun he => hself (by rw [← he]; rfl))
    · exact hkeep hi fun he => hij (Action.finalise.inj he).symm

/-- A pending row keeps its holder. -/
theorem pending_step (h : Filed S x) (hmove : Moves S x.world a w') (r : Ref) (t : Instant)
    (ht : Pending w'.table r t) : ∃ k, S.ref k = r ∧ w'.tenure k = .held t := by
  cases hmove with
  | tick micros => exact h.pending r t ht
  | quiet j p _ _ _ => exact h.pending r t ht
  | store j base reply cut _ | lost j base reply cut _ _ => exact h.pending r t ht
  | take j role readAt stamp table _ _ _ hclaim _ _ =>
    change Pending table r t at ht
    rw [Pending, (claim_eq_some hclaim).1] at ht
    by_cases hr : r = S.ref (j, role)
    · subst hr
      rw [Function.update_self, Option.some.injEq, IdempotencyKey.mk.injEq] at ht
      exact ⟨(j, role), rfl, ht.2 ▸ take_tenure_self S x.world (j, role) stamp table⟩
    · rw [Function.update_of_ne hr] at ht
      obtain ⟨k, hk, hheld⟩ := h.pending r t ht
      refine ⟨k, hk, Eq.trans (take_tenure_other stamp table ?_ (.inr ?_)) hheld⟩
      · rintro rfl
        exact hr hk.symm
      · rwa [hk]
  | finalise j op rest outcome _ =>
    change Pending (op.apply x.world.table (S.ref (j, op.role))) r t at ht
    by_cases hr : r = S.ref (j, op.role)
    · -- a final operation leaves no pending row
      subst hr
      cases op with
      | releaseTurnLock | release =>
        rw [Pending, Final.apply, release_self] at ht
        cases ht
      | complete response =>
        rw [Pending, Final.apply, complete_self] at ht
        obtain ⟨row, -, hrow⟩ := Option.map_eq_some_iff.mp ht
        cases hrow
    · rw [Pending, apply_other _ _ hr] at ht
      obtain ⟨k, hk, hheld⟩ := h.pending r t ht
      refine ⟨k, hk, Eq.trans (Tenure.leave_other ?_) hheld⟩
      rintro rfl
      exact hr hk.symm

/-- A completed row says what one of its claimants replied. -/
theorem completed_step (h : Filed S x) (hmove : Moves S x.world a w') (r : Ref)
    (row : IdempotencyKey) (response : String) (hrow : w'.table r = some row)
    (hresponse : row.response = some response) :
    ∃ i ∈ x.claimants, S.ref (i, .key) = r ∧
      ∃ todo, w'.phase i = .finish todo (.replied response) := by
  have hold : x.world.table r = some row → ∃ i ∈ x.claimants, S.ref (i, .key) = r ∧
      ∃ todo, w'.phase i = .finish todo (.replied response) := fun hr => by
    obtain ⟨i, hi, href, todo, hphase⟩ := h.completed r row response hr hresponse
    obtain ⟨rest, hrest, -⟩ := hmove.settled hphase
    exact ⟨i, hi, href, rest, hrest⟩
  cases hmove with
  | tick micros => exact hold hrow
  | quiet j p _ _ _ => exact hold hrow
  | store j base reply cut _ | lost j base reply cut _ _ => exact hold hrow
  | take j role readAt stamp table _ _ _ hclaim _ _ =>
    change table r = some row at hrow
    obtain ⟨rfl, -⟩ := claim_eq_some hclaim
    by_cases hr : r = S.ref (j, role)
    · subst hr
      rw [Function.update_self] at hrow
      obtain rfl := Option.some.inj hrow
      cases hresponse
    · exact hold (by rwa [Function.update_of_ne hr] at hrow)
  | finalise j op rest outcome hphase =>
    change op.apply x.world.table (S.ref (j, op.role)) r = some row at hrow
    by_cases hr : r = S.ref (j, op.role)
    swap
    · exact hold (by rwa [apply_other _ _ hr] at hrow)
    subst hr
    cases op with
    | releaseTurnLock | release =>
      rw [Final.apply, release_self] at hrow
      cases hrow
    | complete written =>
      rw [Final.apply, complete_self] at hrow
      obtain ⟨row', -, rfl⟩ := Option.map_eq_some_iff.mp hrow
      obtain rfl := Option.some.inj hresponse
      have hreplied := h.replies j _ outcome written hphase List.mem_cons_self
      subst hreplied
      exact ⟨j, h.claimed j (h.head hphase), rfl, rest, Function.update_self ..⟩

theorem filed_step {x' : Traced ι} (hapart : NamesApart S) (h : Filed S x)
    (hg : sectionsFinish S x a x') (ht : traced S x a = some x') : Filed S x' := by
  obtain ⟨hstep, hclaimants⟩ := traced_eq_some_iff.mp ht
  obtain ⟨w', claimants'⟩ := x'
  dsimp only at hstep hclaimants
  subst hclaimants
  have hmove := step_moves hstep
  refine ⟨disciplined_step h.toDisciplined hmove, fun i hi => ?_, fun i hi => ?_,
    claimed_step h hmove, locked_step h hstep hg.2, hmove.completes h.replies,
    pending_step h hmove, fun r row response hrow hresponse => ?_, fun i hi => ?_⟩
  · obtain ⟨hkeyed, hnot⟩ := h.unclaimed i (resolving_step hstep hi).1
    refine ⟨hkeyed, fun hmem => ?_⟩
    obtain hnow | hbefore := List.mem_append.mp hmem
    · rw [(mem_nowClaimed.mp hnow).2.2] at hi
      cases hi
    · exact hnot hbefore
  · obtain hnow | hbefore := List.mem_append.mp hi
    · obtain ⟨-, hphase, -⟩ := mem_nowClaimed.mp hnow
      exact (h.unclaimed i (by rw [hphase]; rfl)).1
    · exact h.keyed i hbefore
  · obtain ⟨i, hi, hend⟩ := completed_step h hmove r row response hrow hresponse
    exact ⟨i, List.mem_append_right _ hi, hend⟩
  · obtain ⟨hresolving, hread⟩ := resolving_step hstep (by rw [hi]; rfl)
    have hclaimant : ∃ j ∈ x.claimants, S.ref (j, .key) = S.ref (i, .key) := by
      obtain hbefore | ⟨readAt, stamp, hnone⟩ := hread hi
      · exact h.reread i hbefore
      · obtain ⟨row, hrow⟩ := claim_eq_none hnone
        exact h.claimant hapart (h.unclaimed i hresolving).1 hrow
    obtain ⟨j, hj, href⟩ := hclaimant
    exact ⟨j, List.mem_append_right _ hj, href⟩

omit [DecidableEq ι] in
theorem filed_init (S : Setup ι) (clock : Instant) (transcripts : Int → List Message) :
    Filed S (.init S clock transcripts) where
  toDisciplined := disciplined_init S clock _ transcripts
  unclaimed := by
    intro i hi
    refine ⟨?_, List.not_mem_nil⟩
    simp only [Traced.init, World.init] at hi
    split_ifs at hi with hkey
    · cases hi
    · exact Option.isSome_iff_ne_none.mpr hkey
  keyed := fun i hi => absurd hi List.not_mem_nil
  claimed := fun i hi => absurd rfl hi
  locked := fun i hi => absurd rfl hi
  replies := by
    intro i todo outcome response hphase
    simp only [Traced.init, World.init] at hphase
    split_ifs at hphase
  pending := fun r t ht => by cases ht
  completed := fun r row response hrow => by cases hrow
  reread := by
    intro i hphase
    simp only [Traced.init, World.init] at hphase
    split_ifs at hphase

/-- While the names are apart every step keeps them apart. -/
theorem separated_step {x' : Traced ι} (hapart : NamesApart S) (h : Filed S x)
    (ht : traced S x a = some x') : Separated S x a x' := by
  obtain ⟨hstep, -⟩ := traced_eq_some_iff.mp ht
  have hother : ∀ {i j : ι}, resolving (x.world.phase i) = true → j ∈ x.claimants →
      S.ref (j, .key) = S.ref (i, .key) → j ≠ i ∧ S.SameKey j i := fun {i j} hi hj href => by
    obtain ⟨hkeyed, hnot⟩ := h.unclaimed i hi
    exact ⟨fun he => hnot (he ▸ hj), sameKey_of_ref hkeyed (h.keyed j hj) href⟩
  refine ⟨fun i readAt stamp ha hnone => ?_, fun i ha hphase => ?_, fun i response ha hphase => ?_⟩
  · obtain ⟨⟨response, createdAt⟩, hrow⟩ := claim_eq_none hnone
    cases response with
    | some response =>
      -- no key carries the text of a lock, so its row is never completed
      obtain ⟨j, hj, href, -⟩ := h.completed _ _ response hrow rfl
      exact absurd href (hapart.ref_ne (h.keyed j hj) i)
    | none =>
      obtain ⟨⟨j, role⟩, href, hheld⟩ := h.pending _ createdAt hrow
      cases role with
      | key =>
        exact absurd href (hapart.ref_ne (h.keyed j (h.claimed j (by rw [hheld]; simp))) i)
      | lock =>
        have hacts := h.locked j (by rw [hheld]; simp)
        simp only [Setup.ref, Request.ref, Prod.mk.injEq] at href
        refine ⟨j, ?_, href.1, turnLockKey_inj.mp href.2, hacts⟩
        rintro rfl
        subst ha
        simp only [step] at hstep
        split at hstep
        · rename_i hphase
          rw [hphase] at hacts
          cases hacts
        · cases hstep
  · subst ha
    simp only [step] at hstep
    split at hstep
    · rename_i hreread
      obtain ⟨j, hj, href⟩ := h.reread i hreread
      exact ⟨j, hj, hother (by rw [hreread]; rfl) hj href⟩
    · cases hstep
  · obtain ⟨hresolving, hfound⟩ := cached_step hstep ha hphase
    unfold Idempotency.lookup at hfound
    split at hfound
    · cases hfound
    · rename_i row hrow
      obtain ⟨j, hj, href, hend⟩ := h.completed _ row response hrow hfound
      obtain ⟨hne, hsame⟩ := hother hresolving hj href
      exact ⟨j, hj, hne, hsame, hend⟩

end preservation

/-! ## A key with the text of a lock -/

section collision

variable {S : Setup ι} {x : Traced ι} {i j : ι}

/-- No turn is in progress. -/
def Idle (S : Setup ι) (w : World ι) : Prop :=
  ∀ k, (w.phase k).acts (S.request k).keyed .lock = false

theorem Idle.setPhase {w : World ι} {p : Phase} (h : Idle S w)
    (hp : p.acts (S.request i).keyed .lock = false) : Idle S (w.setPhase i p) := by
  intro k
  by_cases hk : k = i
  · subst hk
    rwa [setPhase_self]
  · simpa only [World.setPhase, Function.update_of_ne hk] using h k

omit [DecidableEq ι] in
theorem Idle.sectionsFinish {a : Action ι} {x' : Traced ι} (h : Idle S x'.world)
    (ha : dropsLock x.world a = false) : sectionsFinish S x a x' :=
  ⟨fun k hacts => absurd hacts (by rw [h k]; simp), ha⟩

theorem traced_of_step {a : Action ι} {w : World ι} (h : step S x.world a = some w) :
    traced S x a = some ⟨w, nowClaimed x.world w a ++ x.claimants⟩ :=
  traced_eq_some_iff.mpr ⟨h, rfl⟩

/-- A key whose row is absent is claimed by its first two steps. -/
theorem key_claimed (hidle : Idle S x.world) (hphase : x.world.phase i = .lookup)
    (hrow : x.world.table (S.ref (i, .key)) = none) :
    ∃ y, run (traced S) x [.lookup i, .claim i x.world.clock x.world.clock] = some y ∧
      Along (traced S) (sectionsFinish S) x [.lookup i, .claim i x.world.clock x.world.clock] ∧
      Idle S y.world ∧ y.world.clock = x.world.clock ∧
      y.world.phase = Function.update x.world.phase i .acquire ∧
      y.world.table = Function.update x.world.table (S.ref (i, .key))
        (some ⟨none, x.world.clock⟩) := by
  have hlookup : step S x.world (.lookup i) = some (x.world.setPhase i .claim) := by
    simp only [step, hphase, Idempotency.lookup, hrow]
  have hidle' : Idle S (x.world.setPhase i .claim) := hidle.setPhase rfl
  have hclaim : step S (x.world.setPhase i .claim) (.claim i x.world.clock x.world.clock) =
      some (((x.world.setPhase i .claim).take S (i, .key) x.world.clock
        (Function.update x.world.table (S.ref (i, .key)) (some ⟨none, x.world.clock⟩))).setPhase i
          .acquire) := by
    simp [step, World.setPhase, claim, hrow]
  have hacquire : Idle S (((x.world.setPhase i .claim).take S (i, .key) x.world.clock
      (Function.update x.world.table (S.ref (i, .key)) (some ⟨none, x.world.clock⟩))).setPhase i
        .acquire) := Idle.setPhase (w := (x.world.setPhase i .claim).take S (i, .key) x.world.clock _)
    hidle' rfl
  refine ⟨_, run_cons_iff.mpr ⟨_, traced_of_step hlookup, run_cons_iff.mpr
    ⟨_, traced_of_step hclaim, rfl⟩⟩, ?_, hacquire, rfl, ?_, rfl⟩
  · rw [along_cons_of_step (traced_of_step hlookup), along_cons_of_step (traced_of_step hclaim)]
    exact ⟨hidle'.sectionsFinish rfl, hacquire.sectionsFinish rfl, trivial⟩
  · simp [World.setPhase, World.take]

/-- A lock whose row is there is refused, though no turn is in progress. -/
theorem lock_refused (hidle : Idle S x.world) (hphase : x.world.phase j = .acquire)
    (hrow : x.world.table (S.ref (j, .lock)) = some ⟨none, x.world.clock⟩) :
    Along (traced S) (sectionsFinish S) x [.acquire j x.world.clock x.world.clock] ∧
      ¬Along (traced S) (Separated S) x [.acquire j x.world.clock x.world.clock] := by
  have hfresh : ¬x.world.clock < x.world.clock - staleClaim := by
    have hpos : 0 < staleClaim := by decide
    exact not_lt.mpr (Int.sub_le_self _ hpos.le)
  have hnone : claim x.world.table (S.ref (j, .lock)) (x.world.clock - staleClaim) x.world.clock =
      none := by
    simp [claim, hrow, IdempotencyKey.reclaimable, hfresh]
  have hstep : step S x.world (.acquire j x.world.clock x.world.clock) =
      some (x.world.setPhase j (.finish (S.request j).afterRefusal .turnInProgress)) := by
    simp [step, hphase, hnone]
  have hidle' : Idle S (x.world.setPhase j (.finish (S.request j).afterRefusal .turnInProgress)) :=
    hidle.setPhase (onKey_no_lock _ rfl)
  rw [along_cons_of_step (traced_of_step hstep), along_cons_of_step (traced_of_step hstep)]
  refine ⟨⟨hidle'.sectionsFinish rfl, trivial⟩, fun hseparated => ?_⟩
  obtain ⟨k, -, -, -, hacts⟩ := hseparated.1.refused j _ _ rfl hnone
  rw [hidle k] at hacts
  cases hacts

omit [DecidableEq ι] in
theorem idle_init (S : Setup ι) (clock : Instant) (transcripts : Int → List Message) :
    Idle S (Traced.init S clock transcripts).world := by
  intro k
  simp only [Traced.init, World.init]
  split <;> rfl

/-- After a run of keys that were claimed, a request is refused the lock. -/
theorem refused_after {as : List (Action ι)} {y : Traced ι}
    (hrun : run (traced S) x as = some y) (hg : Along (traced S) (sectionsFinish S) x as)
    (hidle : Idle S y.world) (hphase : y.world.phase j = .acquire)
    (hrow : y.world.table (S.ref (j, .lock)) = some ⟨none, y.world.clock⟩) :
    ∃ as, Along (traced S) (sectionsFinish S) x as ∧ ¬Along (traced S) (Separated S) x as := by
  obtain ⟨hguard, hviolated⟩ := lock_refused hidle hphase hrow
  refine ⟨as ++ [.acquire j y.world.clock y.world.clock], along_append_iff.mpr ⟨hg, ?_⟩, ?_⟩
  · intro z hz
    rw [hrun] at hz
    cases hz
    exact hguard
  · exact fun h => hviolated ((along_append_iff.mp h).2 y hrun)

/-- A request whose key is the text of a lock keeps the turns of that session out. -/
theorem exists_violation (huser : (S.request i).userId = (S.request j).userId)
    (hkey : (S.request i).key = some (turnLockKey (S.request j).sessionId)) :
    ∃ as, Along (traced S) (sectionsFinish S) (.init S 0 fun _ => []) as ∧
      ¬Along (traced S) (Separated S) (.init S 0 fun _ => []) as := by
  have hlookup : ∀ k, (S.request k).key ≠ none →
      (Traced.init S 0 fun _ => []).world.phase k = .lookup := fun k hk => if_neg hk
  have href : ∀ {k k' : ι}, (S.request k).userId = (S.request k').userId →
      (S.request k).key = some (turnLockKey (S.request k').sessionId) →
      S.ref (k, .key) = S.ref (k', .lock) := fun hu hk => by
    simp only [Setup.ref, Request.ref, hu, hk, Option.getD_some]
  by_cases hself : (S.request j).key = some (turnLockKey (S.request j).sessionId)
  · -- the turn is kept out by its own key
    obtain ⟨y, hrun, hg, hidle, hclock, hphase, htable⟩ := key_claimed (i := j)
      (idle_init S 0 fun _ => []) (hlookup j (by rw [hself]; simp)) rfl
    refine refused_after hrun hg hidle (by rw [hphase, Function.update_self]) ?_
    rw [htable, href rfl hself, Function.update_self, hclock]
  have hij : j ≠ i := by
    rintro rfl
    exact hself hkey
  obtain ⟨y, hrun, hg, hidle, hclock, hphase, htable⟩ := key_claimed (i := i)
    (idle_init S 0 fun _ => []) (hlookup i (by rw [hkey]; simp)) rfl
  have hrow : y.world.table (S.ref (j, .lock)) = some ⟨none, y.world.clock⟩ := by
    rw [htable, href huser hkey, Function.update_self, hclock]
  have hbefore : y.world.phase j = (Traced.init S 0 fun _ => []).world.phase j := by
    rw [hphase, Function.update_of_ne hij]
  cases hkeyj : (S.request j).key with
  | none =>
    refine refused_after hrun hg hidle (hbefore.trans ?_) hrow
    exact if_pos hkeyj
  | some key =>
    -- the turn claims its own key first, whose row is another one
    have hne : S.ref (j, .key) ≠ S.ref (j, .lock) := by
      intro he
      simp only [Setup.ref, Request.ref, hkeyj, Option.getD_some, Prod.mk.injEq, true_and] at he
      exact hself (by rw [hkeyj, he])
    have habsent : y.world.table (S.ref (j, .key)) = none := by
      rw [htable, href huser hkey, Function.update_of_ne hne]
      rfl
    obtain ⟨z, hrun', hg', hidle', hclock', hphase', htable'⟩ := key_claimed (i := j) hidle
      (hbefore.trans (hlookup j (by rw [hkeyj]; simp))) habsent
    refine refused_after (run_append_iff.mpr ⟨y, hrun, hrun'⟩) (along_append_iff.mpr ⟨hg, ?_⟩)
      hidle' (by rw [hphase', Function.update_self]) ?_
    · intro t ht
      rw [hrun] at ht
      cases ht
      exact hg'
    · rw [htable', Function.update_of_ne hne.symm, hrow, hclock']

end collision

/-- **When keys and locks stay apart.** From an empty table, for any number of requests of
any users and sessions, with sections that end: in every run a lock is refused only while
another turn of the session is in progress, and a key is in flight or completed only because
of another request that carried it, if and only if no request carries as its key the text
of a turn lock of its user. -/
theorem names_apart_iff (S : Setup ι) :
    (∀ clock transcripts as,
      Along (traced S) (sectionsFinish S) (.init S clock transcripts) as →
      Along (traced S) (Separated S) (.init S clock transcripts) as) ↔ NamesApart S := by
  constructor
  · intro h i j huser hkey
    obtain ⟨as, hg, hviolated⟩ := exists_violation huser hkey
    exact hviolated (h 0 (fun _ => []) as hg)
  · intro hapart clock transcripts as hg
    exact along_of_invariant (I := Filed S)
      (fun x a x' hi hga (ht : traced S x a = some x') =>
        ⟨separated_step hapart hi ht, filed_step hapart hi hga ht⟩)
      (filed_init S clock transcripts) hg

/-- A turn of session 6 whose key is the text of the lock of session 5, and a plain turn of
session 5. -/
def lockText : Setup Bool where
  request := fun i =>
    if i then ⟨1, 5, .turn, none, "plain"⟩ else ⟨1, 6, .turn, some "turn-lock:session:5", "keyed"⟩
  owner := fun _ => some 1
  transcriptMaxMessages := 200

/-- The keyed turn runs to its end. -/
def keyedTurn : List (Action Bool) :=
  [.lookup false, .claim false 0 0, .acquire false 0 0, .prepare false true,
    .generate false (.reply "hi"), .persist false .committed, .finalise false, .finalise false]

/-- An hour later the plain turn is refused, though no turn is in progress: the lock row of
its session is completed for ever. -/
theorem completed_key_locks_session :
    ∃ x, run (traced lockText) (.init lockText 0 fun _ => []) (keyedTurn ++ [.tick 3600000000]) =
        some x ∧
      Along (traced lockText) (sectionsFinish lockText) (.init lockText 0 fun _ => [])
        (keyedTurn ++ [.tick 3600000000, .acquire true 3600000000 3600000000]) ∧
      x.world.phase false = .finish [] (.replied "hi") ∧
      x.world.table (1, turnLockKey 5) = some ⟨some "hi", 0⟩ ∧
      claim x.world.table (1, turnLockKey 5) (3600000000 - staleClaim) 3600000000 = none ∧
      ¬Along (traced lockText) (Separated lockText) x [.acquire true 3600000000 3600000000] := by
  obtain ⟨x, hrun, hd⟩ := exists_run_of_check (traced lockText) (.init lockText 0 fun _ => [])
    (keyedTurn ++ [.tick 3600000000])
    (fun x => decide (x.world.clock = 3600000000 ∧ x.world.phase true = .acquire ∧
      x.world.phase false = .finish [] (.replied "hi") ∧
      x.world.table (1, turnLockKey 5) = some ⟨some "hi", 0⟩ ∧
      claim x.world.table (1, turnLockKey 5) (3600000000 - staleClaim) 3600000000 = none))
    (by decide +kernel)
  obtain ⟨hclock, hacquire, hdone, hrow, hnone⟩ := of_decide_eq_true hd
  refine ⟨x, hrun, by decide +kernel, hdone, hrow, hnone, fun h => ?_⟩
  have hstep : step lockText x.world (.acquire true 3600000000 3600000000) =
      some (x.world.setPhase true (.finish [] .turnInProgress)) := by
    have hrefused : claim x.world.table (lockText.ref (true, .lock)) (3600000000 - staleClaim)
        3600000000 = none := hnone
    simp only [step, hacquire, hclock, le_refl, and_self, if_true, hrefused]
    rfl
  obtain ⟨hseparated, -⟩ := (along_cons_of_step (traced_of_step hstep)).mp h
  obtain ⟨k, hk, -, -, hacts⟩ := hseparated.refused true _ _ rfl hnone
  cases k with
  | true => exact hk rfl
  | false =>
    rw [hdone] at hacts
    cases hacts

end Apm.Conversation
