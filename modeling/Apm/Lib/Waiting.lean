import Mathlib.Data.List.Basic

/-!
# Calls that wait

The calls of a concurrent program that wait for something are a list. Calls that wait in the
same way are interchangeable, so a call goes on by its value: one occurrence of it is
taken out, and what it becomes is put in. The rules follow one property of a waiting call
through such a step, and a flag that the calls hold in turn.
-/

namespace Apm.Lib

set_option autoImplicit false

variable {τ : Type} {p : τ → Prop} {calls more : List τ} {c d : τ}

/-- Some call that waits has the property. -/
def SomeWaits (p : τ → Prop) (calls : List τ) : Prop := ∃ c ∈ calls, p c

instance [DecidablePred p] : Decidable (SomeWaits p calls) :=
  inferInstanceAs (Decidable (∃ c ∈ calls, p c))

namespace SomeWaits

@[simp] theorem not_nil : ¬SomeWaits p [] := by
  rintro ⟨c, hc, -⟩
  cases hc

theorem intro (hc : c ∈ calls) (hp : p c) : SomeWaits p calls := ⟨c, hc, hp⟩

theorem mono (h : SomeWaits p calls) (hsub : ∀ c ∈ calls, c ∈ more) : SomeWaits p more := by
  obtain ⟨c, hc, hp⟩ := h
  exact ⟨c, hsub c hc, hp⟩

theorem cons (h : SomeWaits p calls) : SomeWaits p (d :: calls) :=
  h.mono fun _ hc => List.mem_cons_of_mem d hc

/-- Calls that become others which have the property when they had it. -/
theorem map (h : SomeWaits p calls) {f : τ → τ} (hf : ∀ c, p c → p (f c)) :
    SomeWaits p (calls.map f) := by
  obtain ⟨c, hc, hp⟩ := h
  exact ⟨f c, List.mem_map_of_mem hc, hf c hp⟩

variable [DecidableEq τ]

/-- A call without the property is taken out. -/
theorem erase (h : SomeWaits p calls) (hd : ¬p d) : SomeWaits p (calls.erase d) := by
  obtain ⟨c, hc, hp⟩ := h
  have hne : c ≠ d := by
    rintro rfl
    exact hd hp
  exact ⟨c, (List.mem_erase_of_ne hne).mpr hc, hp⟩

/-- A call goes on as one that has the property when it had it. -/
theorem replace (h : SomeWaits p calls) (hd : p d → p c) : SomeWaits p (c :: calls.erase d) := by
  by_cases hp : p d
  · exact intro List.mem_cons_self (hd hp)
  · exact (h.erase hp).cons

end SomeWaits

/-- The flag says whether a call holds it, and at most one does. -/
def Guarded (holds : τ → Bool) (busy : Bool) (calls : List τ) : Prop :=
  calls.countP holds = busy.toNat

namespace Guarded

variable {holds : τ → Bool} {busy : Bool}

theorem nil : Guarded holds false ([] : List τ) := rfl

/-- A call takes the flag. -/
theorem acquire (h : Guarded holds false calls) (hc : holds c = true) :
    Guarded holds true (c :: calls) := by
  rw [Guarded, List.countP_cons_of_pos hc, h]
  rfl

theorem cons (h : Guarded holds busy calls) (hc : holds c = false) :
    Guarded holds busy (c :: calls) := by
  rw [Guarded, List.countP_cons_of_neg (ne_true_of_eq_false hc)]
  exact h

/-- While the flag is free, no call holds it. -/
theorem not_holds (h : Guarded holds false calls) (hc : c ∈ calls) : holds c = false :=
  Bool.eq_false_iff.mpr (List.countP_eq_zero.mp h c hc)

/-- The flag that a call holds is taken. -/
theorem busy_eq_true (h : Guarded holds busy calls) (hc : c ∈ calls) (hholds : holds c = true) :
    busy = true := by
  cases busy with
  | true => rfl
  | false => exact absurd hholds (ne_true_of_eq_false (h.not_holds hc))

variable [DecidableEq τ]

theorem erase (h : Guarded holds busy calls) (hc : holds c = false) :
    Guarded holds busy (calls.erase c) := by
  by_cases hmem : c ∈ calls
  · have hcount := (List.perm_cons_erase hmem).countP_eq holds
    rw [List.countP_cons_of_neg (ne_true_of_eq_false hc)] at hcount
    exact hcount.symm.trans h
  · rw [List.erase_of_not_mem hmem]
    exact h

/-- The call that holds the flag goes on: no other one holds it. -/
theorem release (h : Guarded holds busy calls) (hc : c ∈ calls) (hholds : holds c = true) :
    Guarded holds false (calls.erase c) := by
  have hcount := (List.perm_cons_erase hc).countP_eq holds
  rw [List.countP_cons_of_pos hholds, h, h.busy_eq_true hc hholds] at hcount
  exact (Nat.succ.inj hcount).symm

end Guarded

end Apm.Lib
