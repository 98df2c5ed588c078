import Apm.Lib.Run
import Mathlib.Data.List.Nodup

/-!
# A fair semaphore of tasks

A task that finds no permit, or finds others waiting, joins the queue with a future of its own. A
release wakes the first waiter that still waits and keeps its permit for it; the waiter takes it
when it resumes, and gives it back if it was cancelled in between. A waiter that is cancelled
before it was woken leaves the queue when it resumes. Permits are conserved, they are handed out
in the order of arrival, and none lies idle while a task waits for one.
-/

namespace Apm.Lib

set_option autoImplicit false

/-- The future of a waiter, and whether its task was cancelled. -/
inductive Waiter where
  | pending
  /-- its permit is kept for it -/
  | woken
  | cancelled
  /-- woken, and cancelled before it resumed -/
  | revoked
  deriving DecidableEq, Repr

def Waiter.handed : Waiter → Bool
  | .woken => true
  | .revoked => true
  | _ => false

structure AsyncSemaphore (κ : Type) where
  value : Nat
  waiters : List (κ × Waiter)
  deriving DecidableEq, Repr

namespace AsyncSemaphore

variable {κ : Type}

def free (permits : Nat) : AsyncSemaphore κ := ⟨permits, []⟩

def locked (s : AsyncSemaphore κ) : Bool :=
  s.value = 0 || s.waiters.any fun w => w.2 ≠ .cancelled

/-- The waiters that no permit is kept for, in the order of their arrival. -/
def pending (s : AsyncSemaphore κ) : List κ :=
  (s.waiters.filter fun w => w.2 = .pending).map Prod.fst

/-- How many permits are kept for a waiter. -/
def handed (s : AsyncSemaphore κ) : Nat := s.waiters.countP fun w => w.2.handed

def keys (s : AsyncSemaphore κ) : List κ := s.waiters.map Prod.fst

def wakeFirst : List (κ × Waiter) → Option (κ × List (κ × Waiter))
  | [] => none
  | (k, .pending) :: rest => some (k, (k, .woken) :: rest)
  | w :: rest => (wakeFirst rest).map fun r => (r.1, w :: r.2)

/-- The first waiter that is not done gets a permit. -/
def wakeUpNext (s : AsyncSemaphore κ) : Option (κ × AsyncSemaphore κ) :=
  (wakeFirst s.waiters).map fun r => (r.1, ⟨s.value - 1, r.2⟩)

/-- Wake up as many as there are permits for, and tell which. -/
def wakeWhile : Nat → AsyncSemaphore κ → List κ × AsyncSemaphore κ
  | 0, s => ([], s)
  | fuel + 1, s =>
    if s.value = 0 then ([], s)
    else
      match s.wakeUpNext with
      | none => ([], s)
      | some (k, s) => let r := wakeWhile fuel s; (k :: r.1, r.2)

/-- Every waiter that is woken takes a permit, so that there are permits for no more rounds. -/
def wakeUp (s : AsyncSemaphore κ) : List κ × AsyncSemaphore κ := wakeWhile s.value s

/-- One more permit. -/
def give (s : AsyncSemaphore κ) : AsyncSemaphore κ := { s with value := s.value + 1 }

/-! ## Waking up -/

variable {s s' : AsyncSemaphore κ} {k : κ} {ws ws' : List (κ × Waiter)}

/-- Who is woken was the first that waited. -/
structure Wakes (s : AsyncSemaphore κ) (woken : List κ) (s' : AsyncSemaphore κ) : Prop where
  pending_eq : s.pending = woken ++ s'.pending
  value_eq : s.value = s'.value + woken.length
  handed_eq : s'.handed = s.handed + woken.length
  keys_eq : s'.keys = s.keys

theorem Wakes.refl : Wakes s [] s := ⟨rfl, rfl, rfl, rfl⟩

theorem Wakes.trans {s'' : AsyncSemaphore κ} {woken woken' : List κ} (h : Wakes s woken s')
    (h' : Wakes s' woken' s'') : Wakes s (woken ++ woken') s'' := by
  refine ⟨?_, ?_, ?_, h'.keys_eq.trans h.keys_eq⟩
  · rw [h.pending_eq, h'.pending_eq, List.append_assoc]
  · rw [h.value_eq, h'.value_eq, List.length_append]
    omega
  · rw [h'.handed_eq, h.handed_eq, List.length_append]
    omega

theorem wakeFirst_eq_none (h : wakeFirst ws = none) : ∀ w ∈ ws, w.2 ≠ .pending := by
  induction ws with
  | nil => exact List.forall_mem_nil _
  | cons w rest ih =>
    obtain ⟨k, waiter⟩ := w
    rw [List.forall_mem_cons]
    cases waiter with
    | pending => exact nomatch h
    | woken => exact ⟨nofun, ih (Option.map_eq_none_iff.mp h)⟩
    | cancelled => exact ⟨nofun, ih (Option.map_eq_none_iff.mp h)⟩
    | revoked => exact ⟨nofun, ih (Option.map_eq_none_iff.mp h)⟩

/-- The one that is woken stands behind waiters that do not wait any more. -/
theorem wakeFirst_eq_some (h : wakeFirst ws = some (k, ws')) :
    ∃ before behind, ws = before ++ (k, .pending) :: behind ∧
      ws' = before ++ (k, .woken) :: behind ∧ ∀ w ∈ before, w.2 ≠ .pending := by
  induction ws generalizing ws' with
  | nil => exact nomatch h
  | cons w rest ih =>
    have hskip (hw : w.2 ≠ .pending) (hrest : (wakeFirst rest).map (fun r => (r.1, w :: r.2)) =
        some (k, ws')) : ∃ before behind, w :: rest = before ++ (k, .pending) :: behind ∧
          ws' = before ++ (k, .woken) :: behind ∧ ∀ w ∈ before, w.2 ≠ .pending := by
      obtain ⟨⟨k', later⟩, hlater, heq⟩ := Option.map_eq_some_iff.mp hrest
      obtain ⟨rfl, rfl⟩ := Prod.mk.inj heq
      obtain ⟨before, behind, hws, hws', hbefore⟩ := ih hlater
      exact ⟨w :: before, behind, congrArg _ hws, congrArg _ hws',
        List.forall_mem_cons.mpr ⟨hw, hbefore⟩⟩
    obtain ⟨k', waiter⟩ := w
    cases waiter with
    | pending =>
      obtain ⟨rfl, rfl⟩ := Prod.mk.inj (Option.some.inj h)
      exact ⟨[], rest, rfl, rfl, List.forall_mem_nil _⟩
    | woken => exact hskip nofun h
    | cancelled => exact hskip nofun h
    | revoked => exact hskip nofun h

theorem wakeUpNext_eq_none (h : s.wakeUpNext = none) : s.pending = [] := by
  have hnone := wakeFirst_eq_none (Option.map_eq_none_iff.mp h)
  rw [pending, List.map_eq_nil_iff, List.filter_eq_nil_iff]
  exact fun w hw => mt of_decide_eq_true (hnone w hw)

theorem wakeUpNext_wakes (hvalue : 0 < s.value) (h : s.wakeUpNext = some (k, s')) :
    Wakes s [k] s' := by
  obtain ⟨⟨k', ws⟩, hws, heq⟩ := Option.map_eq_some_iff.mp h
  obtain ⟨rfl, rfl⟩ := Prod.mk.inj heq
  obtain ⟨before, behind, hwaiters, rfl, hbefore⟩ := wakeFirst_eq_some hws
  have hnone : before.filter (fun w => w.2 = .pending) = [] :=
    List.filter_eq_nil_iff.mpr fun w hw => mt of_decide_eq_true (hbefore w hw)
  refine ⟨?_, ?_, ?_, ?_⟩
  · simp [pending, hwaiters, List.filter_append, hnone]
  · dsimp only [List.length_singleton]
    omega
  · simp [handed, hwaiters, List.countP_append, Waiter.handed]
    omega
  · simp [keys, hwaiters]

theorem wakeWhile_wakes (fuel : Nat) (s : AsyncSemaphore κ) :
    Wakes s (wakeWhile fuel s).1 (wakeWhile fuel s).2 := by
  induction fuel generalizing s with
  | zero => exact .refl
  | succ fuel ih =>
    rw [wakeWhile]
    split
    · exact .refl
    · rename_i hvalue
      split
      · exact .refl
      · rename_i k s' hnext
        exact (wakeUpNext_wakes (Nat.pos_of_ne_zero hvalue) hnext).trans (ih s')

theorem wakeWhile_idle (fuel : Nat) (s : AsyncSemaphore κ) (hfuel : s.value ≤ fuel) :
    (wakeWhile fuel s).2.value = 0 ∨ (wakeWhile fuel s).2.pending = [] := by
  induction fuel generalizing s with
  | zero => exact .inl (Nat.le_zero.mp hfuel)
  | succ fuel ih =>
    rw [wakeWhile]
    split
    · rename_i hvalue
      exact .inl hvalue
    · rename_i hvalue
      split
      · rename_i hnext
        exact .inr (wakeUpNext_eq_none hnext)
      · rename_i k s' hnext
        have hwakes := (wakeUpNext_wakes (Nat.pos_of_ne_zero hvalue) hnext).value_eq
        rw [List.length_singleton] at hwakes
        exact ih s' (by omega)

theorem wakeUp_wakes (s : AsyncSemaphore κ) : Wakes s s.wakeUp.1 s.wakeUp.2 := wakeWhile_wakes _ _

/-- Behind a round of waking up no permit is idle while a task waits. -/
theorem wakeUp_idle (s : AsyncSemaphore κ) : s.wakeUp.2.value = 0 ∨ s.wakeUp.2.pending = [] :=
  wakeWhile_idle _ _ (Nat.le_refl _)

end AsyncSemaphore

/-! ## The tasks -/

open AsyncSemaphore

/-- A semaphore with the tasks that hold a permit, and three records: who came, in that order, who
was given a permit, and who was cancelled while waiting. -/
structure FairSemaphore (κ : Type) where
  sem : AsyncSemaphore κ
  holders : List κ
  arrived : List κ
  admitted : List κ
  dropped : List κ
  deriving DecidableEq, Repr

inductive SemaphoreEvent (κ : Type) where
  | acquire (k : κ)
  | cancel (k : κ)
  | resume (k : κ)
  | release (k : κ)
  deriving DecidableEq, Repr

namespace FairSemaphore

variable {κ : Type} [DecidableEq κ]

def free (permits : Nat) : FairSemaphore κ := ⟨.free permits, [], [], [], []⟩

/-- The future of a waiter. -/
def waiter (g : FairSemaphore κ) (k : κ) : Option Waiter :=
  (g.sem.waiters.find? fun w => w.1 = k).map Prod.snd

def setWaiter (g : FairSemaphore κ) (k : κ) (waiter : Waiter) : AsyncSemaphore κ :=
  { g.sem with waiters := g.sem.waiters.map fun w => if w.1 = k then (k, waiter) else w }

/-- `self._waiters.remove(fut)`, and `value` more permits. -/
def leaveQueue (g : FairSemaphore κ) (k : κ) (value : Nat) : AsyncSemaphore κ :=
  ⟨g.sem.value + value, g.sem.waiters.filter fun w => w.1 ≠ k⟩

/-- A task enters at most once. -/
def step (g : FairSemaphore κ) : SemaphoreEvent κ → Option (FairSemaphore κ)
  | .acquire k =>
    if k ∈ g.arrived then none
    else if g.sem.locked then
      some { g with
        sem := { g.sem with waiters := g.sem.waiters ++ [(k, .pending)] }
        arrived := g.arrived ++ [k] }
    else
      some { g with
        sem := { g.sem with value := g.sem.value - 1 }
        holders := g.holders ++ [k]
        arrived := g.arrived ++ [k]
        admitted := g.admitted ++ [k] }
  | .cancel k =>
    match g.waiter k with
    | some .pending => some { g with sem := g.setWaiter k .cancelled, dropped := g.dropped ++ [k] }
    | some .woken => some { g with sem := g.setWaiter k .revoked }
    | _ => none
  | .resume k =>
    match g.waiter k with
    | some .woken =>
      let r := (g.leaveQueue k 0).wakeUp
      some { g with sem := r.2, holders := g.holders ++ [k], admitted := g.admitted ++ r.1 }
    | some .revoked =>
      let r := (g.leaveQueue k 1).wakeUp
      some { g with sem := r.2, admitted := g.admitted ++ r.1 }
    | some .cancelled =>
      let r := (g.leaveQueue k 0).wakeUp
      some { g with sem := r.2, admitted := g.admitted ++ r.1 }
    | _ => none
  | .release k =>
    if k ∈ g.holders then
      match g.sem.give.wakeUpNext with
      | none => some { g with sem := g.sem.give, holders := g.holders.erase k }
      | some (k', sem) =>
        some { g with
          sem := sem
          holders := g.holders.erase k
          admitted := g.admitted ++ [k'] }
    else none

/-- What every run keeps. -/
structure Fair (permits : Nat) (g : FairSemaphore κ) : Prop where
  conserved : g.sem.value + g.sem.handed + g.holders.length = permits
  fifo : g.admitted ++ g.sem.pending = g.arrived.filter fun k => k ∉ g.dropped
  idle : g.sem.value = 0 ∨ g.sem.pending = [] ∨ 0 < g.sem.handed
  arrived_nodup : g.arrived.Nodup
  keys_nodup : g.sem.keys.Nodup
  holders_nodup : g.holders.Nodup
  apart : ∀ k ∈ g.holders, k ∉ g.sem.keys
  known : ∀ k, k ∈ g.sem.keys ∨ k ∈ g.holders ∨ k ∈ g.dropped → k ∈ g.arrived

variable {permits : Nat} {g g' : FairSemaphore κ} {k : κ}

theorem fair_free : Fair permits (free permits : FairSemaphore κ) :=
  ⟨rfl, rfl, .inr (.inl rfl), List.nodup_nil, List.nodup_nil, List.nodup_nil, nofun,
    by rintro k (h | h | h) <;> exact nomatch h⟩

/-- The place of a waiter in the queue. -/
theorem waiter_place {p : Waiter} (hnodup : g.sem.keys.Nodup) (h : g.waiter k = some p) :
    ∃ before behind, g.sem.waiters = before ++ (k, p) :: behind ∧
      (∀ w ∈ before, w.1 ≠ k) ∧ ∀ w ∈ behind, w.1 ≠ k := by
  obtain ⟨⟨k', p'⟩, hfind, rfl⟩ := Option.map_eq_some_iff.mp h
  obtain ⟨hk, before, behind, hwaiters, hbefore⟩ := List.find?_eq_some_iff_append.mp hfind
  obtain rfl : k' = k := of_decide_eq_true hk
  refine ⟨before, behind, hwaiters, fun w hw => by simpa using hbefore w hw, fun w hw he => ?_⟩
  rw [keys, hwaiters, List.map_append, List.map_cons] at hnodup
  exact (List.nodup_cons.mp (List.nodup_append.mp hnodup).2.1).1 (List.mem_map.mpr ⟨w, hw, he⟩)

section place

variable {p : Waiter} {before behind : List (κ × Waiter)}
  (hwaiters : g.sem.waiters = before ++ (k, p) :: behind)
  (hbefore : ∀ w ∈ before, w.1 ≠ k) (hbehind : ∀ w ∈ behind, w.1 ≠ k)

include hwaiters hbefore hbehind

theorem waiters_setWaiter (p' : Waiter) :
    (g.setWaiter k p').waiters = before ++ (k, p') :: behind := by
  have hkept (ws : List (κ × Waiter)) (h : ∀ w ∈ ws, w.1 ≠ k) :
      ws.map (fun w => if w.1 = k then (k, p') else w) = ws :=
    (List.map_congr_left fun w hw => if_neg (h w hw)).trans (List.map_id _)
  rw [setWaiter, hwaiters, List.map_append, List.map_cons, hkept _ hbefore, hkept _ hbehind, if_pos rfl]

theorem waiters_leaveQueue (value : Nat) : (g.leaveQueue k value).waiters = before ++ behind := by
  have hkept (ws : List (κ × Waiter)) (h : ∀ w ∈ ws, w.1 ≠ k) : ws.filter (fun w => w.1 ≠ k) = ws :=
    List.filter_eq_self.mpr fun w hw => decide_eq_true (h w hw)
  rw [leaveQueue, hwaiters, List.filter_append, List.filter_cons, hkept _ hbefore, hkept _ hbehind]
  simp

end place

theorem filter_arrived {arrived dropped : List κ} (h : k ∉ dropped) :
    (arrived ++ [k]).filter (fun k => k ∉ dropped) = arrived.filter (fun k => k ∉ dropped) ++ [k] := by
  simp [List.filter_append, h]

omit [DecidableEq κ] in
theorem nodup_append_new {ks : List κ} (hks : ks.Nodup) (hnew : k ∉ ks) : (ks ++ [k]).Nodup :=
  List.nodup_append.mpr ⟨hks, List.nodup_singleton _, fun a ha b hb hab =>
    hnew (by rw [← List.mem_singleton.mp hb, ← hab]; exact ha)⟩

/-- A waiter that is done leaves the queue, with the permit that was kept for it or without one,
and the others are woken. -/
theorem fair_resume {p : Waiter} (value : Nat) {joined : List κ} (hg : Fair permits g)
    (hp : g.waiter k = some p) (hdone : p ≠ .pending)
    (hvalue : value + joined.length = if p.handed then 1 else 0) (hjoined : joined = [] ∨ joined = [k]) :
    Fair permits { g with
      sem := (g.leaveQueue k value).wakeUp.2
      holders := g.holders ++ joined
      admitted := g.admitted ++ (g.leaveQueue k value).wakeUp.1 } := by
  obtain ⟨before, behind, hwaiters, hbefore, hbehind⟩ := waiter_place hg.keys_nodup hp
  have hleft := waiters_leaveQueue hwaiters hbefore hbehind value
  obtain ⟨hpending, hvalues, hhanded, hkeys⟩ := wakeUp_wakes (g.leaveQueue k value)
  have hsub : (g.leaveQueue k value).keys.Sublist g.sem.keys := by
    rw [keys, keys, hleft, hwaiters, List.map_append, List.map_append, List.map_cons]
    exact List.Sublist.append_left (List.sublist_cons_self _ _) _
  have hgone : k ∉ (g.leaveQueue k value).keys := by
    rw [keys, hleft, List.mem_map]
    rintro ⟨w, hw, hk⟩
    rcases List.mem_append.mp hw with hw | hw
    · exact hbefore w hw hk
    · exact hbehind w hw hk
  have hk : k ∈ g.sem.keys := by rw [keys, hwaiters]; simp
  have hsame : (g.leaveQueue k value).pending = g.sem.pending := by
    rw [pending, pending, hleft, hwaiters, List.filter_append, List.filter_append, List.filter_cons,
      if_neg (mt of_decide_eq_true hdone)]
  have hcount : g.sem.handed = (g.leaveQueue k value).handed + if p.handed then 1 else 0 := by
    rw [handed, handed, hleft, hwaiters, List.countP_append, List.countP_append, List.countP_cons]
    dsimp only
    omega
  have hleave : (g.leaveQueue k value).value = g.sem.value + value := rfl
  refine ⟨?_, ?_, ?_, hg.arrived_nodup, hkeys ▸ hg.keys_nodup.sublist hsub, ?_, ?_, ?_⟩
  · have hconserved := hg.conserved
    dsimp only
    rw [List.length_append]
    omega
  · dsimp only
    rw [List.append_assoc, ← hpending, hsame, hg.fifo]
  · exact (wakeUp_idle _).imp_right .inl
  · rcases hjoined with rfl | rfl
    · rw [List.append_nil]
      exact hg.holders_nodup
    · exact nodup_append_new hg.holders_nodup fun h => hg.apart k h hk
  · intro j hj
    rw [hkeys]
    rcases List.mem_append.mp hj with hj | hj
    · exact mt (hsub.subset ·) (hg.apart j hj)
    · rcases hjoined with rfl | rfl
      · exact nomatch hj
      · rw [List.mem_singleton.mp hj]
        exact hgone
  · intro j hj
    rw [hkeys] at hj
    rcases hj with hj | hj | hj
    · exact hg.known j (.inl (hsub.subset hj))
    · rcases List.mem_append.mp hj with hj | hj
      · exact hg.known j (.inr (.inl hj))
      · rcases hjoined with rfl | rfl
        · exact nomatch hj
        · rw [List.mem_singleton.mp hj]
          exact hg.known k (.inl hk)
    · exact hg.known j (.inr (.inr hj))

/-- A task that arrives waits where a permit is not free, or where others wait. -/
theorem fair_enqueue (hg : Fair permits g) (hnew : k ∉ g.arrived) (hlocked : g.sem.locked = true) :
    Fair permits { g with
      sem := { g.sem with waiters := g.sem.waiters ++ [(k, .pending)] }
      arrived := g.arrived ++ [k] } := by
  have hdropped : k ∉ g.dropped := fun h => hnew (hg.known k (.inr (.inr h)))
  have hkeys : AsyncSemaphore.keys { g.sem with waiters := g.sem.waiters ++ [(k, .pending)] } =
      g.sem.keys ++ [k] := by rw [keys, List.map_append]; rfl
  have hpending : AsyncSemaphore.pending { g.sem with waiters := g.sem.waiters ++ [(k, .pending)] } =
      g.sem.pending ++ [k] := by rw [pending, List.filter_append, List.map_append]; rfl
  have hhanded : AsyncSemaphore.handed { g.sem with waiters := g.sem.waiters ++ [(k, .pending)] } =
      g.sem.handed := by rw [handed, List.countP_append]; rfl
  refine ⟨by rw [hhanded]; exact hg.conserved, ?_, ?_, ?_, ?_, hg.holders_nodup, ?_, ?_⟩
  · rw [hpending, ← List.append_assoc, hg.fifo]
    exact (filter_arrived hdropped).symm
  · rw [hhanded]
    rcases hg.idle with hzero | hnone | hready
    · exact .inl hzero
    · -- whoever waits is done, and not because it was cancelled before
      rcases Bool.or_eq_true_iff.mp hlocked with hzero | hany
      · exact .inl (of_decide_eq_true hzero)
      · obtain ⟨⟨k', p⟩, hw, hp⟩ := List.any_eq_true.mp hany
        refine .inr (.inr (List.countP_pos_iff.mpr ⟨_, hw, ?_⟩))
        have hwait : p ≠ .pending := by
          rintro rfl
          rw [pending, List.map_eq_nil_iff, List.filter_eq_nil_iff] at hnone
          exact hnone _ hw (decide_eq_true rfl)
        have hcancelled : p ≠ .cancelled := of_decide_eq_true hp
        cases p with
        | pending => exact absurd rfl hwait
        | cancelled => exact absurd rfl hcancelled
        | woken => rfl
        | revoked => rfl
    · exact .inr (.inr hready)
  · exact nodup_append_new hg.arrived_nodup hnew
  · rw [hkeys]
    exact nodup_append_new hg.keys_nodup fun h => hnew (hg.known k (.inl h))
  · intro j hj
    rw [hkeys, List.mem_append, List.mem_singleton]
    rintro (h | rfl)
    · exact hg.apart j hj h
    · exact hnew (hg.known j (.inr (.inl hj)))
  · intro j hj
    rw [hkeys, List.mem_append, List.mem_singleton] at hj
    rw [List.mem_append, List.mem_singleton]
    rcases hj with (hj | hj) | hj
    · exact .inl (hg.known j (.inl hj))
    · exact .inr hj
    · exact .inl (hg.known j (.inr hj))

/-- A task that finds a permit free, and nobody waiting, takes it. -/
theorem fair_acquire (hg : Fair permits g) (hnew : k ∉ g.arrived) (hfree : g.sem.locked = false) :
    Fair permits { g with
      sem := { g.sem with value := g.sem.value - 1 }
      holders := g.holders ++ [k]
      arrived := g.arrived ++ [k]
      admitted := g.admitted ++ [k] } := by
  have hdropped : k ∉ g.dropped := fun h => hnew (hg.known k (.inr (.inr h)))
  obtain ⟨hvalue, hall⟩ := Bool.or_eq_false_iff.mp hfree
  have hpos : 0 < g.sem.value := Nat.pos_of_ne_zero (of_decide_eq_false hvalue)
  have hnone : g.sem.pending = [] := by
    rw [pending, List.map_eq_nil_iff, List.filter_eq_nil_iff]
    intro w hw hp
    exact List.any_eq_false.mp hall w hw (decide_eq_true (by rw [of_decide_eq_true hp]; nofun))
  refine ⟨?_, ?_, .inr (.inl hnone), nodup_append_new hg.arrived_nodup hnew, hg.keys_nodup,
    nodup_append_new hg.holders_nodup fun h => hnew (hg.known k (.inr (.inl h))), ?_, ?_⟩
  · have hconserved := hg.conserved
    rw [handed] at hconserved
    rw [handed, List.length_append, List.length_singleton]
    dsimp only
    omega
  · have hfifo := hg.fifo
    rw [hnone, List.append_nil] at hfifo
    have hpending : AsyncSemaphore.pending { g.sem with value := g.sem.value - 1 } = [] := hnone
    dsimp only
    rw [hpending, List.append_nil, hfifo, filter_arrived hdropped]
  · intro j hj hkeys
    rcases List.mem_append.mp hj with hj | hj
    · exact hg.apart j hj hkeys
    · rw [List.mem_singleton.mp hj] at hkeys
      exact hnew (hg.known k (.inl hkeys))
  · intro j hj
    rw [List.mem_append]
    rcases hj with hj | hj | hj
    · exact .inl (hg.known j (.inl hj))
    · exact (List.mem_append.mp hj).imp_left fun hj => hg.known j (.inr (.inl hj))
    · exact .inl (hg.known j (.inr (.inr hj)))

theorem keys_setWaiter {p p' : Waiter} (hnodup : g.sem.keys.Nodup) (hp : g.waiter k = some p) :
    (g.setWaiter k p').keys = g.sem.keys ∧ k ∈ g.sem.keys := by
  obtain ⟨before, behind, hwaiters, hbefore, hbehind⟩ := waiter_place hnodup hp
  rw [keys, keys, waiters_setWaiter hwaiters hbefore hbehind, hwaiters, List.map_append,
    List.map_append, List.map_cons, List.map_cons]
  exact ⟨rfl, List.mem_append_right _ List.mem_cons_self⟩

theorem handed_setWaiter {p p' : Waiter} (hnodup : g.sem.keys.Nodup) (hp : g.waiter k = some p)
    (hsame : p'.handed = p.handed) : (g.setWaiter k p').handed = g.sem.handed := by
  obtain ⟨before, behind, hwaiters, hbefore, hbehind⟩ := waiter_place hnodup hp
  rw [handed, handed, waiters_setWaiter hwaiters hbefore hbehind, hwaiters, List.countP_append,
    List.countP_append, List.countP_cons, List.countP_cons]
  dsimp only
  rw [hsame]

/-- A waiter is cancelled before it was woken. -/
theorem fair_drop (hg : Fair permits g) (hp : g.waiter k = some .pending) :
    Fair permits { g with sem := g.setWaiter k .cancelled, dropped := g.dropped ++ [k] } := by
  obtain ⟨before, behind, hwaiters, hbefore, hbehind⟩ := waiter_place hg.keys_nodup hp
  have hset := waiters_setWaiter hwaiters hbefore hbehind .cancelled
  obtain ⟨hkeys, hk⟩ : (g.setWaiter k .cancelled).keys = g.sem.keys ∧ k ∈ g.sem.keys :=
    keys_setWaiter hg.keys_nodup hp
  have hhanded : (g.setWaiter k .cancelled).handed = g.sem.handed :=
    handed_setWaiter hg.keys_nodup hp rfl
  have hmem : k ∈ g.sem.pending := by rw [pending, hwaiters]; simp
  have hpending : (g.setWaiter k .cancelled).pending = g.sem.pending.filter (· ≠ k) := by
    have hkept (ws : List (κ × Waiter)) (h : ∀ w ∈ ws, w.1 ≠ k) :
        ((ws.filter fun w => w.2 = .pending).map Prod.fst).filter (· ≠ k) =
          (ws.filter fun w => w.2 = .pending).map Prod.fst := by
      refine List.filter_eq_self.mpr fun j hj => decide_eq_true ?_
      obtain ⟨w, hw, rfl⟩ := List.mem_map.mp hj
      exact h w (List.mem_filter.mp hw).1
    rw [pending, pending, hset, hwaiters, List.filter_append, List.filter_append, List.map_append,
      List.map_append, List.filter_append, hkept before hbefore]
    congr 1
    simp only [List.filter_cons, reduceCtorEq, decide_false, decide_true, if_true, List.map_cons,
      Bool.false_eq_true, if_false, ne_eq, not_true_eq_false]
    exact (hkept behind hbehind).symm
  refine ⟨by rw [hhanded]; exact hg.conserved, ?_, ?_, hg.arrived_nodup, hkeys ▸ hg.keys_nodup,
    hg.holders_nodup, hkeys ▸ hg.apart, hkeys ▸ fun j hj => ?_⟩
  · have hnodup : (g.admitted ++ g.sem.pending).Nodup := hg.fifo ▸ hg.arrived_nodup.filter _
    have hadmitted : g.admitted.filter (· ≠ k) = g.admitted :=
      List.filter_eq_self.mpr fun j hj => decide_eq_true fun he =>
        (List.nodup_append.mp hnodup).2.2 j hj k hmem he
    have hfilter : g.arrived.filter (fun j => j ∉ g.dropped ++ [k]) =
        (g.arrived.filter fun j => j ∉ g.dropped).filter (· ≠ k) := by
      rw [List.filter_filter]
      exact List.filter_congr fun j _ => by simp [and_comm]
    dsimp only
    rw [hfilter, ← hg.fifo, List.filter_append, hadmitted, hpending]
  · rw [hhanded]
    rcases hg.idle with hzero | hnone | hready
    · exact .inl hzero
    · rw [hnone] at hmem
      exact nomatch hmem
    · exact .inr (.inr hready)
  · rcases hj with hj | hj | hj
    · exact hg.known j (.inl hj)
    · exact hg.known j (.inr (.inl hj))
    · rcases List.mem_append.mp hj with hj | hj
      · exact hg.known j (.inr (.inr hj))
      · rw [List.mem_singleton.mp hj]
        exact hg.known k (.inl hk)

/-- A waiter is cancelled behind its waking. -/
theorem fair_revoke (hg : Fair permits g) (hp : g.waiter k = some .woken) :
    Fair permits { g with sem := g.setWaiter k .revoked } := by
  obtain ⟨before, behind, hwaiters, hbefore, hbehind⟩ := waiter_place hg.keys_nodup hp
  obtain ⟨hkeys, hk⟩ : (g.setWaiter k .revoked).keys = g.sem.keys ∧ k ∈ g.sem.keys :=
    keys_setWaiter hg.keys_nodup hp
  have hhanded : (g.setWaiter k .revoked).handed = g.sem.handed :=
    handed_setWaiter hg.keys_nodup hp rfl
  have hpending : (g.setWaiter k .revoked).pending = g.sem.pending := by
    rw [pending, pending, waiters_setWaiter hwaiters hbefore hbehind, hwaiters, List.filter_append,
      List.filter_append]
    rfl
  refine ⟨by rw [hhanded]; exact hg.conserved, by rw [hpending]; exact hg.fifo, ?_,
    hg.arrived_nodup, hkeys ▸ hg.keys_nodup, hg.holders_nodup, hkeys ▸ hg.apart,
    hkeys ▸ hg.known⟩
  rw [hhanded, hpending]
  exact hg.idle

/-- A permit that is given back wakes one waiter, if there is one. -/
theorem fair_release (hg : Fair permits g) (hk : k ∈ g.holders) (h : step g (.release k) = some g') :
    Fair permits g' := by
  have hlength : (g.holders.erase k).length + 1 = g.holders.length := by
    rw [List.length_erase_of_mem hk]
    have := List.length_pos_of_mem hk
    omega
  have hconserved := hg.conserved
  have hnodup : (g.holders.erase k).Nodup := hg.holders_nodup.erase k
  have hknown (j) (hj : j ∈ g.sem.keys ∨ j ∈ g.holders.erase k ∨ j ∈ g.dropped) : j ∈ g.arrived :=
    hg.known j (hj.imp_right (Or.imp_left List.mem_of_mem_erase))
  rw [step, if_pos hk] at h
  split at h
  · rename_i hnext
    obtain rfl := Option.some.inj h
    have hnone : g.sem.give.pending = [] := wakeUpNext_eq_none hnext
    refine ⟨?_, hg.fifo, .inr (.inl hnone), hg.arrived_nodup, hg.keys_nodup, hnodup,
      fun j hj => hg.apart j (List.mem_of_mem_erase hj), hknown⟩
    change g.sem.value + 1 + g.sem.handed + (g.holders.erase k).length = permits
    omega
  · rename_i k' sem hnext
    obtain rfl := Option.some.inj h
    obtain ⟨hpending, hvalue, hhanded, hkeys⟩ := wakeUpNext_wakes (Nat.succ_pos _) hnext
    rw [List.length_singleton] at hvalue hhanded
    change g.sem.pending = _ at hpending
    change g.sem.value + 1 = _ at hvalue
    change sem.handed = g.sem.handed + 1 at hhanded
    change sem.keys = g.sem.keys at hkeys
    refine ⟨?_, ?_, .inr (.inr ?_), hg.arrived_nodup, hkeys ▸ hg.keys_nodup, hnodup,
      hkeys ▸ fun j hj => hg.apart j (List.mem_of_mem_erase hj), hkeys ▸ hknown⟩
    · dsimp only
      omega
    · dsimp only
      rw [List.append_assoc, ← hpending]
      exact hg.fifo
    · dsimp only
      omega

/-- **A fair semaphore.** Permits are conserved and handed out in the order of arrival, and none
is idle while a task waits and nobody is about to resume. -/
theorem fair_step {e : SemaphoreEvent κ} (hg : Fair permits g) (h : step g e = some g') :
    Fair permits g' := by
  cases e with
  | acquire k =>
    rw [step] at h
    split at h
    · cases h
    · rename_i hnew
      split at h
      · rename_i hlocked
        obtain rfl := Option.some.inj h
        exact fair_enqueue hg hnew hlocked
      · rename_i hfree
        obtain rfl := Option.some.inj h
        exact fair_acquire hg hnew (Bool.eq_false_iff.mpr hfree)
  | cancel k =>
    rw [step] at h
    split at h
    · rename_i hp
      obtain rfl := Option.some.inj h
      exact fair_drop hg hp
    · rename_i hp
      obtain rfl := Option.some.inj h
      exact fair_revoke hg hp
    · cases h
  | resume k =>
    rw [step] at h
    split at h
    · rename_i hp
      obtain rfl := Option.some.inj h
      exact fair_resume 0 hg hp nofun rfl (.inr rfl)
    · rename_i hp
      obtain rfl := Option.some.inj h
      have hresumed := fair_resume 1 hg hp nofun rfl (.inl rfl)
      rwa [List.append_nil] at hresumed
    · rename_i hp
      obtain rfl := Option.some.inj h
      have hresumed := fair_resume 0 hg hp nofun rfl (.inl rfl)
      rwa [List.append_nil] at hresumed
    · cases h
  | release k =>
    have hk : k ∈ g.holders := by
      by_contra hnot
      rw [step, if_neg hnot] at h
      cases h
    exact fair_release hg hk h

/-! ### Who is inside -/

/-- A task between its arrival and its leaving. -/
def Inside (g : FairSemaphore κ) (k : κ) : Prop := k ∈ g.sem.keys ∨ k ∈ g.holders

variable {j : κ}

theorem inside_acquire (h : step g (.acquire k) = some g') : g'.Inside j ↔ g.Inside j ∨ j = k := by
  rw [step] at h
  split at h
  · cases h
  · split at h
    all_goals obtain rfl := Option.some.inj h
    · simp only [Inside, keys, List.map_append, List.map_cons, List.map_nil, List.mem_append,
        List.mem_singleton]
      tauto
    · simp only [Inside, List.mem_append, List.mem_singleton]
      exact or_assoc.symm

theorem inside_cancel (hg : Fair permits g) (h : step g (.cancel k) = some g') :
    g'.Inside j ↔ g.Inside j := by
  rw [step] at h
  split at h
  · rename_i hp
    obtain rfl := Option.some.inj h
    rw [Inside, Inside, (keys_setWaiter hg.keys_nodup hp).1]
  · rename_i hp
    obtain rfl := Option.some.inj h
    rw [Inside, Inside, (keys_setWaiter hg.keys_nodup hp).1]
  · cases h

theorem keys_leaveQueue (value : Nat) : j ∈ (g.leaveQueue k value).wakeUp.2.keys ↔
    j ∈ g.sem.keys ∧ j ≠ k := by
  rw [(wakeUp_wakes _).keys_eq]
  simp only [keys, leaveQueue, List.mem_map, List.mem_filter, decide_eq_true_iff]
  constructor
  · rintro ⟨w, ⟨hw, hk⟩, rfl⟩
    exact ⟨⟨w, hw, rfl⟩, hk⟩
  · rintro ⟨⟨w, hw, rfl⟩, hk⟩
    exact ⟨w, ⟨hw, hk⟩, rfl⟩

theorem mem_keys_of_waiter {p : Waiter} (hp : g.waiter k = some p) : k ∈ g.sem.keys := by
  obtain ⟨w, hw, -⟩ := Option.map_eq_some_iff.mp hp
  exact List.mem_map.mpr ⟨w, List.mem_of_find?_eq_some hw, by simpa using List.find?_some hw⟩

theorem waiter_of_resume (h : step g (.resume k) = some g') : ∃ p, g.waiter k = some p := by
  cases hp : g.waiter k with
  | none =>
    rw [step, hp] at h
    cases h
  | some p => exact ⟨p, rfl⟩

/-- A waiter that was woken is inside for good, another one leaves. -/
theorem inside_resume (hg : Fair permits g) (h : step g (.resume k) = some g') :
    g'.Inside j ↔ if g.waiter k = some .woken then g.Inside j else g.Inside j ∧ j ≠ k := by
  rw [step] at h
  split at h
  · rename_i hp
    obtain rfl := Option.some.inj h
    have hk := mem_keys_of_waiter hp
    rw [if_pos hp, Inside, Inside, keys_leaveQueue, List.mem_append, List.mem_singleton]
    by_cases hjk : j = k
    · subst hjk
      simp [hk]
    · simp [hjk]
  · rename_i hp
    obtain rfl := Option.some.inj h
    have hout : k ∉ g.holders := fun hk => hg.apart k hk (mem_keys_of_waiter hp)
    rw [if_neg (by rw [hp]; nofun), Inside, Inside, keys_leaveQueue]
    by_cases hjk : j = k
    · subst hjk
      simp [hout]
    · simp [hjk]
  · rename_i hp
    obtain rfl := Option.some.inj h
    have hout : k ∉ g.holders := fun hk => hg.apart k hk (mem_keys_of_waiter hp)
    rw [if_neg (by rw [hp]; nofun), Inside, Inside, keys_leaveQueue]
    by_cases hjk : j = k
    · subst hjk
      simp [hout]
    · simp [hjk]
  · cases h

theorem inside_release (hg : Fair permits g) (h : step g (.release k) = some g') :
    g'.Inside j ↔ g.Inside j ∧ j ≠ k := by
  rw [step] at h
  split at h
  · rename_i hk
    have hnot := hg.apart k hk
    have hinside (sem : AsyncSemaphore κ) (hkeys : sem.keys = g.sem.keys) :
        (j ∈ sem.keys ∨ j ∈ g.holders.erase k) ↔ (j ∈ g.sem.keys ∨ j ∈ g.holders) ∧ j ≠ k := by
      rw [hkeys, hg.holders_nodup.mem_erase_iff]
      by_cases hjk : j = k
      · subst hjk
        simp [hnot]
      · simp [hjk]
    split at h
    · obtain rfl := Option.some.inj h
      exact hinside _ rfl
    · rename_i hnext
      obtain rfl := Option.some.inj h
      exact hinside _ (wakeUpNext_wakes (Nat.succ_pos _) hnext).keys_eq
  · cases h

end FairSemaphore

end Apm.Lib
