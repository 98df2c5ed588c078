import Mathlib.Data.List.Basic
import Mathlib.Tactic.SplitIfs

/-!
# Calls in flight

Any number of calls of a function, each with its argument and at its own point of the body. A
call starts behind the others and moves on alone. What holds of every call is kept by a step
that establishes it of the one that moved.
-/

namespace Apm.Lib

set_option autoImplicit false

structure Call (α φ : Type) where
  arg : α
  phase : φ
  deriving DecidableEq, Repr

namespace Call

variable {α φ : Type}

def setPhase (calls : List (Call α φ)) (i : Nat) (phase : φ) : List (Call α φ) :=
  calls.modify i fun c => { c with phase := phase }

variable {calls : List (Call α φ)} {i j : Nat} {phase : φ} {c : Call α φ}
  {P Q : Call α φ → Prop}

theorem getElem?_setPhase : (setPhase calls i phase)[j]? =
    if i = j then calls[j]?.map fun c => ⟨c.arg, phase⟩ else calls[j]? := by
  rw [setPhase, List.getElem?_modify]
  split
  · rfl
  · exact congrFun Option.map_id _

theorem getElem?_setPhase_self (h : calls[i]? = some c) :
    (setPhase calls i phase)[i]? = some ⟨c.arg, phase⟩ := by
  rw [getElem?_setPhase, if_pos rfl, h]
  rfl

@[simp] theorem length_setPhase : (setPhase calls i phase).length = calls.length :=
  List.length_modify ..

@[simp] theorem map_arg_setPhase : (setPhase calls i phase).map Call.arg = calls.map Call.arg := by
  refine List.ext_getElem? fun j => ?_
  rw [List.getElem?_map, getElem?_setPhase, List.getElem?_map]
  split
  · rw [Option.map_map]
    rfl
  · rfl

theorem mem_setPhase (h : c ∈ setPhase calls i phase) :
    c ∈ calls ∨ ∃ c₀, calls[i]? = some c₀ ∧ c = ⟨c₀.arg, phase⟩ := by
  obtain ⟨j, hj⟩ := List.mem_iff_getElem?.mp h
  rw [getElem?_setPhase] at hj
  split at hj
  · rename_i hij
    obtain ⟨c₀, hc₀, rfl⟩ := Option.map_eq_some_iff.mp hj
    exact .inr ⟨c₀, hij ▸ hc₀, rfl⟩
  · exact .inl (List.mem_of_getElem? hj)

/-- What holds of every call still does when one call moves to where it holds. -/
theorem forall_setPhase (h : ∀ c ∈ calls, P c) (hi : ∀ c, calls[i]? = some c → P ⟨c.arg, phase⟩) :
    ∀ c ∈ setPhase calls i phase, P c := by
  intro c hc
  rcases mem_setPhase hc with hmem | ⟨c₀, hc₀, rfl⟩
  · exact h c hmem
  · exact hi c₀ hc₀

theorem forall_begin {arg : α} (h : ∀ c ∈ calls, P c) (hnew : P ⟨arg, phase⟩) :
    ∀ c ∈ calls ++ [⟨arg, phase⟩], P c := by
  intro c hc
  rcases List.mem_append.mp hc with hmem | hmem
  · exact h c hmem
  · rw [List.mem_singleton.mp hmem]
    exact hnew

/-- How many calls satisfy a test, before and after one call moved. -/
theorem countP_setPhase (p : Call α φ → Bool) (phase : φ) (h : calls[i]? = some c) :
    (setPhase calls i phase).countP p + (if p c then 1 else 0) =
      calls.countP p + if p ⟨c.arg, phase⟩ then 1 else 0 := by
  induction calls generalizing i with
  | nil => cases h
  | cons a rest ih =>
    cases i with
    | zero =>
      obtain rfl := Option.some.inj h
      rw [setPhase, List.modify_zero_cons, List.countP_cons, List.countP_cons]
      omega
    | succ i =>
      have hrest := ih h
      rw [setPhase] at hrest ⊢
      rw [List.modify_succ_cons, List.countP_cons, List.countP_cons]
      omega

theorem countP_begin {arg : α} {p : Call α φ → Bool} :
    (calls ++ [Call.mk arg phase]).countP p = calls.countP p + if p ⟨arg, phase⟩ then 1 else 0 := by
  rw [List.countP_append, List.countP_singleton]

/-- Calls that pass one of two tests are at most as many as pass the first and the second. -/
theorem countP_le_add {p q r : Call α φ → Bool} (h : ∀ c ∈ calls, p c → q c ∨ r c) :
    calls.countP p ≤ calls.countP q + calls.countP r := by
  induction calls with
  | nil => exact Nat.zero_le _
  | cons a rest ih =>
    have hrest := ih fun c hc => h c (List.mem_cons_of_mem _ hc)
    have ha := h a List.mem_cons_self
    rw [List.countP_cons, List.countP_cons, List.countP_cons]
    split_ifs with hp hq hr hr hq hr hr
    all_goals first | omega | exact absurd (ha hp) (by simp [hq, hr])

end Call

end Apm.Lib
