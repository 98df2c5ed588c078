import Mathlib.Data.List.Basic

/-!
# An asynchronous mutex

Critical sections are chained onto whatever is queued and run strictly one at a time,
in the order of their arrival. The section at the head of the queue is the one that may
run. A set of running sections stays within the head through entering, starting and
leaving.
-/

namespace Apm.Lib

set_option autoImplicit false

/-- The sections that have not completed, in the order of their arrival. -/
structure AsyncMutex (κ : Type) where
  queue : List κ

namespace AsyncMutex

variable {κ : Type} {m : AsyncMutex κ} {j k : κ} {Runs Runs' : κ → Prop}

def free : AsyncMutex κ := ⟨[]⟩

def enter (m : AsyncMutex κ) (k : κ) : AsyncMutex κ := ⟨m.queue ++ [k]⟩

/-- The section that runs completes. -/
def leave (m : AsyncMutex κ) : AsyncMutex κ := ⟨m.queue.tail⟩

def Holds (m : AsyncMutex κ) (k : κ) : Prop := m.queue.head? = some k

instance [DecidableEq κ] : Decidable (m.Holds k) :=
  inferInstanceAs (Decidable (m.queue.head? = some k))

theorem Holds.unique (hj : m.Holds j) (hk : m.Holds k) : j = k :=
  Option.some.inj (hj.symm.trans hk)

/-- A section that arrives does not displace the one that runs. -/
theorem Holds.enter (hk : m.Holds k) : (m.enter j).Holds k := by
  show (m.queue ++ [j]).head? = some k
  rw [List.head?_append, hk]
  rfl

/-- No section runs but the one at the head. -/
def Exclusive (m : AsyncMutex κ) (Runs : κ → Prop) : Prop := ∀ k, Runs k → m.Holds k

namespace Exclusive

theorem mono (h : m.Exclusive Runs) (hruns : ∀ j, Runs' j → Runs j) : m.Exclusive Runs' :=
  fun j hj => h j (hruns j hj)

theorem enter (h : m.Exclusive Runs) (hruns : ∀ j, Runs' j → Runs j) :
    (m.enter k).Exclusive Runs' := fun j hj => (h j (hruns j hj)).enter

theorem start (h : m.Exclusive Runs) (hk : m.Holds k) (hruns : ∀ j, Runs' j → j = k ∨ Runs j) :
    m.Exclusive Runs' := by
  intro j hj
  rcases hruns j hj with rfl | hj'
  · exact hk
  · exact h j hj'

/-- Once the section that ran has left, none runs. -/
theorem leave (h : m.Exclusive Runs) (hk : m.Holds k) (hruns : ∀ j, Runs' j → j ≠ k ∧ Runs j) :
    m.leave.Exclusive Runs' := by
  intro j hj
  obtain ⟨hne, hj'⟩ := hruns j hj
  exact absurd ((h j hj').unique hk) hne

end Exclusive

end AsyncMutex

end Apm.Lib
