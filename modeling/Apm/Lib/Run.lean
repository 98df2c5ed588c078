import Mathlib.Logic.Function.Basic
import Mathlib.Data.List.Basic

/-!
# Runs of partial step functions

A system is a partial step function on an arbitrary state type: `none` means
that the action is disabled in that state. A run folds the step over a list of
actions, and `Along` states a property of every step the run takes. The rules
below package the inductions over runs once: an invariant under a guard, a step
property derived from an invariant, and the pointwise equivalence of two step
properties lifted to whole runs.
-/

namespace Apm.Lib

set_option autoImplicit false

variable {σ α : Type*}

/-- Fold a partial step over a list of actions. A disabled action has no run. -/
def run (step : σ → α → Option σ) : σ → List α → Option σ
  | s, [] => some s
  | s, a :: rest => (step s a).bind (run step · rest)

/-- Every step the run takes satisfies `P before action after`. -/
def Along (step : σ → α → Option σ) (P : σ → α → σ → Prop) : σ → List α → Prop
  | _, [] => True
  | s, a :: rest => ∀ t, step s a = some t → P s a t ∧ Along step P t rest

variable {step : σ → α → Option σ} {P G : σ → α → σ → Prop} {I : σ → Prop}

@[simp] theorem run_nil (s : σ) : run step s [] = some s := rfl

theorem run_cons_iff {s t : σ} {a : α} {rest : List α} :
    run step s (a :: rest) = some t ↔
      ∃ m, step s a = some m ∧ run step m rest = some t := by
  simp only [run, Option.bind_eq_some_iff]

theorem run_append_iff {s t : σ} {as bs : List α} :
    run step s (as ++ bs) = some t ↔
      ∃ m, run step s as = some m ∧ run step m bs = some t := by
  induction as generalizing s with
  | nil => simp
  | cons a rest ih =>
    simp only [List.cons_append, run_cons_iff, ih]
    constructor
    · rintro ⟨m, hm, n, hn, ht⟩
      exact ⟨n, ⟨m, hm, hn⟩, ht⟩
    · rintro ⟨n, ⟨m, hm, hn⟩, ht⟩
      exact ⟨m, hm, n, hn, ht⟩

@[simp] theorem along_nil (s : σ) : Along step P s [] := trivial

theorem along_append_iff {s : σ} {as bs : List α} :
    Along step P s (as ++ bs) ↔
      Along step P s as ∧ ∀ t, run step s as = some t → Along step P t bs := by
  induction as generalizing s with
  | nil => simp
  | cons a rest ih =>
    simp only [List.cons_append, Along, ih, run_cons_iff]
    constructor
    · intro h
      refine ⟨fun t ht => ⟨(h t ht).1, (h t ht).2.1⟩, ?_⟩
      rintro t ⟨m, hm, ht⟩
      exact (h m hm).2.2 t ht
    · rintro ⟨h, hb⟩ t ht
      exact ⟨(h t ht).1, (h t ht).2, fun u hu => hb u ⟨t, ht, hu⟩⟩

theorem along_cons_of_step {s t : σ} {a : α} {rest : List α} (h : step s a = some t) :
    Along step P s (a :: rest) ↔ P s a t ∧ Along step P t rest := by
  constructor
  · exact fun ha => ha t h
  · intro ha u hu
    rw [h] at hu
    cases hu
    exact ha

/-- A property of every step by an action of the list. -/
theorem along_of_forall_mem {as : List α} (h : ∀ a ∈ as, ∀ s t, step s a = some t → P s a t)
    (s : σ) : Along step P s as := by
  induction as generalizing s with
  | nil => exact along_nil s
  | cons a rest ih =>
    intro t ht
    exact ⟨h a List.mem_cons_self s t ht, ih (fun b hb => h b (List.mem_cons_of_mem _ hb)) t⟩

theorem along_and {as : List α} {s : σ} (hp : Along step P s as) (hg : Along step G s as) :
    Along step (fun s a t => P s a t ∧ G s a t) s as := by
  induction as generalizing s with
  | nil => exact along_nil s
  | cons a rest ih =>
    intro t ht
    exact ⟨⟨(hp t ht).1, (hg t ht).1⟩, ih (hp t ht).2 (hg t ht).2⟩

/-- On a concrete run a decidable step property is evaluated step by step. -/
instance decidableAlong [∀ s a t, Decidable (P s a t)] :
    ∀ (s : σ) (as : List α), Decidable (Along step P s as)
  | _, [] => isTrue trivial
  | s, a :: rest =>
    match h : step s a with
    | none => isTrue fun t ht => by rw [h] at ht; cases ht
    | some t =>
      have : Decidable (Along step P t rest) := decidableAlong t rest
      decidable_of_iff (P s a t ∧ Along step P t rest)
        ⟨fun hp u hu => by rw [h] at hu; cases hu; exact hp, fun hp => hp t h⟩

/-- The system beside the list of its actions so far, the latest first. -/
def recorded (step : σ → α → Option σ) (x : List α × σ) (a : α) : Option (List α × σ) :=
  (step x.2 a).map fun t => (a :: x.1, t)

theorem recorded_eq_some_iff {x y : List α × σ} {a : α} :
    recorded step x a = some y ↔ y.1 = a :: x.1 ∧ step x.2 a = some y.2 := by
  rw [recorded, Option.map_eq_some_iff]
  constructor
  · rintro ⟨t, ht, rfl⟩
    exact ⟨rfl, ht⟩
  · rintro ⟨hlog, ht⟩
    exact ⟨y.2, ht, by rw [← hlog]⟩

/-- A run with its record is a run. -/
theorem run_recorded {as log : List α} {s t : σ} (h : run step s as = some t) :
    run (recorded step) (log, s) as = some (as.reverse ++ log, t) := by
  induction as generalizing s log with
  | nil => rw [run_nil, Option.some.inj h]; rfl
  | cons a rest ih =>
    obtain ⟨m, hm, hrest⟩ := run_cons_iff.mp h
    refine run_cons_iff.mpr ⟨(a :: log, m), recorded_eq_some_iff.mpr ⟨rfl, hm⟩, ?_⟩
    rw [ih hrest, List.reverse_cons, List.append_assoc]
    rfl

/-- A decidable fact about the end of a concrete run. -/
theorem exists_run_of_check (step : σ → α → Option σ) (s : σ) (as : List α) (q : σ → Bool)
    (h : (run step s as).map q = some true) : ∃ t, run step s as = some t ∧ q t = true :=
  Option.map_eq_some_iff.mp h

/-- A guarded invariant holds at the end of every run whose steps meet the guard. -/
theorem run_invariant (hstep : ∀ s a t, I s → G s a t → step s a = some t → I t)
    {as : List α} {s t : σ} (hs : I s) (hg : Along step G s as)
    (hrun : run step s as = some t) : I t := by
  induction as generalizing s with
  | nil =>
    simp only [run_nil, Option.some.injEq] at hrun
    exact hrun ▸ hs
  | cons a rest ih =>
    obtain ⟨m, hm, hrest⟩ := run_cons_iff.mp hrun
    obtain ⟨hga, hgrest⟩ := hg m hm
    exact ih (hstep s a m hs hga hm) hgrest hrest

/-- An invariant of every step holds at the end of every run. -/
theorem run_preserves (hstep : ∀ s a t, I s → step s a = some t → I t) {as : List α} {s t : σ}
    (hs : I s) (hrun : run step s as = some t) : I t :=
  run_invariant (G := fun _ _ _ => True) (fun s a t hi _ ht => hstep s a t hi ht) hs
    (along_of_forall_mem (fun _ _ _ _ _ => trivial) s) hrun

/-- A step property that follows from the guarded invariant holds along the run. -/
theorem along_of_invariant
    (hstep : ∀ s a t, I s → G s a t → step s a = some t → P s a t ∧ I t)
    {as : List α} {s : σ} (hs : I s) (hg : Along step G s as) : Along step P s as := by
  induction as generalizing s with
  | nil => exact along_nil s
  | cons a rest ih =>
    intro t ht
    obtain ⟨hga, hgrest⟩ := hg t ht
    obtain ⟨hp, hi⟩ := hstep s a t hs hga ht
    exact ⟨hp, ih hi hgrest⟩

/-- Two step properties that agree wherever the invariant holds agree on whole
runs, when the second one preserves the invariant. -/
theorem along_iff_of_invariant
    (hiff : ∀ s a t, I s → step s a = some t → (P s a t ↔ G s a t))
    (hstep : ∀ s a t, I s → G s a t → step s a = some t → I t)
    {as : List α} {s : σ} (hs : I s) : Along step P s as ↔ Along step G s as := by
  constructor
  · intro hp
    induction as generalizing s with
    | nil => exact along_nil s
    | cons a rest ih =>
      intro t ht
      have hg := (hiff s a t hs ht).mp (hp t ht).1
      exact ⟨hg, ih (hstep s a t hs hg ht) (hp t ht).2⟩
  · exact along_of_invariant (fun s a t hi hg ht => ⟨(hiff s a t hi ht).mpr hg, hstep s a t hi hg ht⟩) hs

end Apm.Lib
