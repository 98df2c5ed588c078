import Apm.Lib.Run
import Mathlib.Data.List.Basic

/-!
# One voice at a time

`ReplyPlayback` plays the clips of a reply from a queue, in a drain loop that runs beside the
stream. Its task field says that a drain runs, and is the future that `awaitPlayback` waits on.
The drain clears the field when it ends; a cancel clears it once the player has answered `stop`,
whether the drain has noticed or not.

A drain that runs is in its call of `playClip`. The clip ends, and a stop answers, when the
environment says so. The clips since the last cancel are recorded; no method reads them.
-/

namespace Apm.Reply

open Apm.Lib

set_option autoImplicit false

structure Player (γ : Type) where
  /-- `_clipQueue` -/
  queue : List γ
  /-- `_playbackTask`: the drain it is the future of -/
  task : Option Nat
  /-- the drains that run, each with the clip it plays -/
  drains : List (Nat × γ)
  nextDrain : Nat
  /-- the cancels that wait for `stop` -/
  stops : Nat
  /-- the drains that calls of `awaitPlayback` wait on -/
  waiters : List Nat
  /-- history: the clips since the last cancel, enqueued and played -/
  enqueued : List γ
  played : List γ

inductive Event (γ : Type) where
  | enqueue (clip : γ)
  /-- `playClip` of a drain completes or fails, and the drain goes on -/
  | clipEnded (drain : Nat)
  | cancel
  /-- the `stop` of a cancel completes or fails -/
  | stopped (ok : Bool)
  | awaitPlayback
  /-- a call of `awaitPlayback` goes on when the drain it waited on has ended -/
  | resumed (drain : Nat)
  deriving DecidableEq

variable {γ : Type}

namespace Player

def init : Player γ := ⟨[], none, [], 0, 0, [], [], []⟩

def running (s : Player γ) : List Nat := s.drains.map Prod.fst

/-- `_drainClips` from the head of its loop to the next `playClip`, or to its end. -/
def drain (s : Player γ) (d : Nat) : Player γ :=
  let others := s.drains.filter fun p => p.1 ≠ d
  match s.queue with
  | [] => { s with drains := others, task := none }
  | clip :: rest =>
    { s with queue := rest, drains := others ++ [(d, clip)], played := s.played ++ [clip] }

/-- `_enqueueClip` -/
def enqueue (s : Player γ) (clip : γ) : Player γ :=
  let s := { s with queue := s.queue ++ [clip], enqueued := s.enqueued ++ [clip] }
  match s.task with
  | some _ => s
  | none => { s.drain s.nextDrain with task := some s.nextDrain, nextDrain := s.nextDrain + 1 }

/-- `cancel`, up to the `stop` of the player. -/
def cancel (s : Player γ) : Player γ :=
  { s with queue := [], stops := s.stops + 1, enqueued := [], played := [] }

/-- The loop of `awaitPlayback`. It returns where there is no task. -/
def awaitTask (s : Player γ) : Player γ :=
  match s.task with
  | none => s
  | some d => { s with waiters := d :: s.waiters }

end Player

def step (s : Player γ) : Event γ → Option (Player γ)
  | .enqueue clip => some (s.enqueue clip)
  | .clipEnded d => if d ∈ s.running then some (s.drain d) else none
  | .cancel => some s.cancel
  | .stopped ok =>
    if s.stops = 0 then none
    else some { s with stops := s.stops - 1, task := if ok then none else s.task }
  | .awaitPlayback => some s.awaitTask
  | .resumed d =>
    if d ∈ s.waiters ∧ d ∉ s.running then
      some { s with waiters := s.waiters.erase d }.awaitTask
    else none

/-! ## The property and its condition -/

/-- A call of `awaitPlayback` looks at the task. -/
def Event.awaits : Event γ → Bool
  | .awaitPlayback | .resumed _ => true
  | _ => false

/-- At most one drain runs, with its one `playClip`; the clips since the last cancel are played in
the order in which they were enqueued, each at most once. -/
structure OneVoice (s : Player γ) : Prop where
  drains : s.drains.length ≤ 1
  order : s.enqueued = s.played ++ s.queue

/-- `awaitPlayback` returns where it finds no task. -/
def Quiet (s : Player γ) (e : Event γ) (t : Player γ) : Prop :=
  e.awaits = true → s.task = none → t.queue = [] ∧ t.drains = []

def OneVoiceStep (s : Player γ) (e : Event γ) (t : Player γ) : Prop := OneVoice t ∧ Quiet s e t

/-- Whoever looks at the task does not find it cleared while a drain still runs. -/
def Attached (s : Player γ) (e : Event γ) (_ : Player γ) : Prop :=
  (e.awaits = true ∨ ∃ clip, e = .enqueue clip) → s.task = none → s.drains = []

/-! ## The proof -/

/-- The task is a drain that runs, and a clip waits only while a drain runs. -/
structure Sound (s : Player γ) : Prop where
  voice : OneVoice s
  task : ∀ d, s.task = some d → d ∈ s.running
  queued : s.queue ≠ [] → s.drains ≠ []
  fresh : ∀ d ∈ s.running, d < s.nextDrain

theorem sound_init : Sound (Player.init : Player γ) :=
  ⟨⟨Nat.zero_le _, rfl⟩, nofun, nofun, nofun⟩

section steps

variable {s t : Player γ}

/-- With one drain, the drain that goes on is the only one. -/
theorem others_eq_nil (h : s.drains.length ≤ 1) {d : Nat} (hd : d ∈ s.running) :
    (s.drains.filter fun p => p.1 ≠ d) = [] := by
  obtain ⟨p, hp, rfl⟩ := List.mem_map.mp hd
  obtain ⟨q, hq⟩ := List.length_eq_one_iff.mp (Nat.le_antisymm h (List.length_pos_of_mem hp))
  rw [hq] at hp ⊢
  rw [List.mem_singleton.mp hp]
  exact List.filter_eq_nil_iff.mpr (by simp)

theorem sound_drain (hs : Sound s) {d : Nat} (hd : d ∈ s.running) : Sound (s.drain d) := by
  have hothers := others_eq_nil hs.voice.drains hd
  have horder := hs.voice.order
  rw [Player.drain]
  cases hqueue : s.queue with
  | nil =>
    rw [hqueue] at horder
    simp only [hothers]
    refine ⟨⟨Nat.zero_le _, ?_⟩, nofun, fun h => absurd rfl h, nofun⟩
    exact horder
  | cons clip rest =>
    rw [hqueue] at horder
    simp only [hothers, List.nil_append]
    refine ⟨⟨Nat.le_refl _, ?_⟩, fun d' htask => ?_, fun _ => List.cons_ne_nil _ _, ?_⟩
    · rw [horder, List.append_assoc]
      rfl
    · -- the task is a drain that runs, and this is the only one
      obtain ⟨p, hp, rfl⟩ := List.mem_map.mp (hs.task d' htask)
      have hsame : ¬decide (p.1 ≠ d) = true := List.filter_eq_nil_iff.mp hothers p hp
      rw [decide_eq_true_eq, not_not] at hsame
      rw [hsame]
      exact List.mem_singleton.mpr rfl
    · intro d' hd'
      rw [List.mem_singleton.mp hd']
      exact hs.fresh d hd

theorem enqueue_of_task (clip : γ) {d : Nat} (h : s.task = some d) :
    s.enqueue clip = { s with queue := s.queue ++ [clip], enqueued := s.enqueued ++ [clip] } := by
  simp only [Player.enqueue, h]

/-- A clip without a task starts a drain, on the head of the queue. -/
theorem enqueue_of_none (clip : γ) (h : s.task = none) :
    ∃ head rest, s.queue ++ [clip] = head :: rest ∧
      s.enqueue clip = { s with
        queue := rest
        drains := (s.drains.filter fun p => p.1 ≠ s.nextDrain) ++ [(s.nextDrain, head)]
        played := s.played ++ [head]
        enqueued := s.enqueued ++ [clip]
        task := some s.nextDrain
        nextDrain := s.nextDrain + 1 } := by
  cases hqueue : s.queue ++ [clip] with
  | nil => exact absurd hqueue (List.append_ne_nil_of_right_ne_nil _ (List.cons_ne_nil _ _))
  | cons head rest => exact ⟨head, rest, rfl, by simp only [Player.enqueue, h, Player.drain, hqueue]⟩

/-- A drain that has just been numbered is none of those that run. -/
theorem others_eq_self (hs : Sound s) : (s.drains.filter fun p => p.1 ≠ s.nextDrain) = s.drains := by
  rw [List.filter_eq_self]
  intro p hp
  exact decide_eq_true (Nat.ne_of_lt (hs.fresh p.1 (List.mem_map.mpr ⟨p, hp, rfl⟩)))

theorem sound_enqueue (hs : Sound s) (clip : γ) (h : s.task = none → s.drains = []) :
    Sound (s.enqueue clip) := by
  have horder : s.enqueued ++ [clip] = s.played ++ (s.queue ++ [clip]) := by
    rw [hs.voice.order, List.append_assoc]
  cases htask : s.task with
  | some d =>
    have hrunning := hs.task d htask
    rw [enqueue_of_task clip htask]
    refine ⟨⟨hs.voice.drains, horder⟩, hs.task, fun _ hnil => ?_, hs.fresh⟩
    rw [Player.running, show s.drains = [] from hnil] at hrunning
    cases hrunning
  | none =>
    obtain ⟨head, rest, hqueue, henqueue⟩ := enqueue_of_none clip htask
    rw [henqueue, others_eq_self hs, h htask]
    refine ⟨⟨Nat.le_refl _, ?_⟩, ?_, fun _ => List.cons_ne_nil _ _, ?_⟩
    · rw [horder, hqueue, List.append_assoc]
      rfl
    · intro d hd
      exact Option.some.inj hd ▸ List.mem_singleton.mpr rfl
    · intro d hd
      rw [List.mem_singleton.mp hd]
      exact Nat.lt_succ_self _

theorem sound_awaitTask (hs : Sound s) : Sound s.awaitTask := by
  rw [Player.awaitTask]
  split
  · exact hs
  · exact ⟨⟨hs.voice.drains, hs.voice.order⟩, hs.task, hs.queued, hs.fresh⟩

/-- What `awaitPlayback` leaves where it finds no task. -/
theorem awaitTask_of_none (h : s.task = none) : s.awaitTask = s := by
  simp only [Player.awaitTask, h]

theorem sound_step {e : Event γ} (hs : Sound s) (h : Attached s e t) (hstep : step s e = some t) :
    Sound t := by
  cases e with
  | enqueue clip =>
    obtain rfl := Option.some.inj hstep
    exact sound_enqueue hs clip (h (.inr ⟨clip, rfl⟩))
  | clipEnded d =>
    simp only [step] at hstep
    split_ifs at hstep with hd
    obtain rfl := Option.some.inj hstep
    exact sound_drain hs hd
  | cancel =>
    obtain rfl := Option.some.inj hstep
    exact ⟨⟨hs.voice.drains, rfl⟩, hs.task, fun hq => absurd rfl hq, hs.fresh⟩
  | stopped ok =>
    simp only [step] at hstep
    split_ifs at hstep with hnone hok
    · obtain rfl := Option.some.inj hstep
      exact ⟨⟨hs.voice.drains, hs.voice.order⟩, nofun, hs.queued, hs.fresh⟩
    · obtain rfl := Option.some.inj hstep
      exact ⟨⟨hs.voice.drains, hs.voice.order⟩, hs.task, hs.queued, hs.fresh⟩
  | awaitPlayback =>
    obtain rfl := Option.some.inj hstep
    exact sound_awaitTask hs
  | resumed d =>
    simp only [step] at hstep
    split_ifs at hstep
    obtain rfl := Option.some.inj hstep
    exact sound_awaitTask ⟨⟨hs.voice.drains, hs.voice.order⟩, hs.task, hs.queued, hs.fresh⟩

/-- Where nobody finds the task cleared too early, a step does what it is to do. -/
theorem oneVoice_of_attached {e : Event γ} (hs : Sound s) (h : Attached s e t)
    (hstep : step s e = some t) : OneVoiceStep s e t := by
  refine ⟨(sound_step hs h hstep).voice, fun hawaits hnone => ?_⟩
  have hdrains : s.drains = [] := h (.inl hawaits) hnone
  have hqueue : s.queue = [] := by
    by_contra hq
    exact hs.queued hq hdrains
  cases e with
  | awaitPlayback =>
    obtain rfl := Option.some.inj hstep
    rw [awaitTask_of_none hnone]
    exact ⟨hqueue, hdrains⟩
  | resumed d =>
    simp only [step] at hstep
    split_ifs at hstep
    obtain rfl := Option.some.inj hstep
    rw [awaitTask_of_none (by exact hnone)]
    exact ⟨hqueue, hdrains⟩
  | _ => cases hawaits

/-- A task that was cleared too early lets a second drain start, or a wait end. -/
theorem attached_of_oneVoice {e : Event γ} (hs : Sound s) (h : OneVoiceStep s e t)
    (hstep : step s e = some t) : Attached s e t := by
  intro hlooks hnone
  cases e with
  | enqueue clip =>
    obtain rfl := Option.some.inj hstep
    obtain ⟨head, rest, -, henqueue⟩ := enqueue_of_none clip hnone
    have hone := h.1.drains
    rw [henqueue, others_eq_self hs, List.length_append, List.length_singleton] at hone
    exact List.eq_nil_of_length_eq_zero (by omega)
  | awaitPlayback =>
    obtain rfl := Option.some.inj hstep
    have hquiet := h.2 rfl hnone
    rw [awaitTask_of_none hnone] at hquiet
    exact hquiet.2
  | resumed d =>
    simp only [step] at hstep
    split_ifs at hstep
    obtain rfl := Option.some.inj hstep
    have hquiet := h.2 rfl hnone
    rw [awaitTask_of_none (by exact hnone)] at hquiet
    exact hquiet.2
  | clipEnded | cancel | stopped => rcases hlooks with hfalse | ⟨_, hfalse⟩ <;> cases hfalse

end steps

/-- **There is one voice at a time exactly in the runs in which nobody finds the task cleared
while a drain still runs.** -/
theorem oneVoice_iff (es : List (Event γ)) :
    Along step OneVoiceStep Player.init es ↔ Along step Attached Player.init es :=
  along_iff_of_invariant (I := Sound) (P := OneVoiceStep) (G := Attached)
    (fun _ _ _ hs hstep =>
      ⟨fun h => attached_of_oneVoice hs h hstep, fun h => oneVoice_of_attached hs h hstep⟩)
    (fun _ _ _ hs h hstep => sound_step hs h hstep) sound_init

/-- A clip of the next turn behind a cancel whose drain has not noticed it: two drains play. -/
theorem second_voice :
    ¬Along step OneVoiceStep (Player.init : Player String)
      [.enqueue "one", .cancel, .stopped true, .enqueue "two"] := by
  intro h
  have htwo := (h _ rfl).2 _ rfl |>.2 _ rfl |>.2 _ rfl |>.1.1.drains
  revert htwo
  decide

end Apm.Reply
