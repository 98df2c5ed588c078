import Mathlib.Logic.Relation

/-!
# Row locks and deadlocks

A table of the row locks that transactions hold, with the modes of a relational
database. A transaction takes one lock at a time, waits while another one holds a
conflicting lock, and releases all of them when it ends. A deadlock is a cycle of
transactions each waiting for a lock the next one holds; it is excluded by a rank
that rises along every wait.
-/

namespace Apm.Lib

set_option autoImplicit false

inductive LockMode where
  /-- of a foreign key check, `FOR KEY SHARE` -/
  | keyShare
  /-- of an `UPDATE` that leaves the key alone -/
  | noKeyUpdate
  /-- of a `DELETE` or a `SELECT ... FOR UPDATE` -/
  | update
  deriving DecidableEq, Repr

def LockMode.conflicts : LockMode → LockMode → Bool
  | .keyShare, .keyShare | .keyShare, .noKeyUpdate | .noKeyUpdate, .keyShare => false
  | _, _ => true

structure RowLock (ρ : Type) where
  row : ρ
  mode : LockMode
  deriving DecidableEq, Repr

variable {ι ρ : Type} [DecidableEq ι] [DecidableEq ρ]

def RowLock.conflicts (l m : RowLock ρ) : Bool := l.row = m.row && l.mode.conflicts m.mode

theorem RowLock.conflicts_comm (l m : RowLock ρ) : l.conflicts m = m.conflicts l := by
  have hmode : l.mode.conflicts m.mode = m.mode.conflicts l.mode := by
    cases l.mode <;> cases m.mode <;> rfl
  rw [conflicts, conflicts, hmode, decide_eq_decide.mpr eq_comm]

theorem RowLock.conflicts_iff {l m : RowLock ρ} :
    l.conflicts m = true ↔ l.row = m.row ∧ l.mode.conflicts m.mode = true := by
  rw [conflicts, Bool.and_eq_true, decide_eq_true_eq]

/-- The locks that are held, with their owners. Two owners' locks do not conflict. -/
structure LockTable (ι ρ : Type) [DecidableEq ρ] where
  locks : List (ι × RowLock ρ)
  exclusive : ∀ x ∈ locks, ∀ y ∈ locks, x.1 ≠ y.1 → x.2.conflicts y.2 = false

namespace LockTable

def empty : LockTable ι ρ := ⟨[], nofun⟩

def Holds (t : LockTable ι ρ) (i : ι) (l : RowLock ρ) : Prop := (i, l) ∈ t.locks

instance (t : LockTable ι ρ) (i : ι) (l : RowLock ρ) : Decidable (t.Holds i l) :=
  inferInstanceAs (Decidable ((i, l) ∈ t.locks))

/-- A lock is granted unless another transaction holds a conflicting one. -/
def acquire (t : LockTable ι ρ) (i : ι) (l : RowLock ρ) : Option (LockTable ι ρ) :=
  if h : ∀ x ∈ t.locks, x.1 ≠ i → l.conflicts x.2 = false then
    some ⟨(i, l) :: t.locks, fun x hx y hy hne => by
      rcases List.mem_cons.mp hx with rfl | hx
      · rcases List.mem_cons.mp hy with rfl | hy
        · exact absurd rfl hne
        · exact h y hy (Ne.symm hne)
      · rcases List.mem_cons.mp hy with rfl | hy
        · rw [RowLock.conflicts_comm]
          exact h x hx hne
        · exact t.exclusive x hx y hy hne⟩
  else none

/-- The end of a transaction. -/
def release (t : LockTable ι ρ) (i : ι) : LockTable ι ρ where
  locks := t.locks.filter (·.1 ≠ i)
  exclusive := fun x hx y hy =>
    t.exclusive x (List.mem_filter.mp hx).1 y (List.mem_filter.mp hy).1

variable {t t' : LockTable ι ρ} {i j : ι} {l m : RowLock ρ}

omit [DecidableEq ι] in
theorem not_conflicts (hi : t.Holds i l) (hj : t.Holds j m) (hne : i ≠ j) :
    l.conflicts m = false := t.exclusive _ hi _ hj hne

theorem holds_acquire (h : t.acquire i l = some t') :
    t'.Holds j m ↔ (j = i ∧ m = l) ∨ t.Holds j m := by
  unfold acquire at h
  split at h
  · cases h
    rw [Holds, List.mem_cons, Prod.mk.injEq]
    rfl
  · cases h

theorem acquire_free (h : t.acquire i l = some t') (hj : t.Holds j m) (hne : j ≠ i) :
    l.conflicts m = false := by
  unfold acquire at h
  split at h
  · rename_i hfree
    exact hfree _ hj hne
  · cases h

@[simp] theorem holds_release : (t.release i).Holds j m ↔ j ≠ i ∧ t.Holds j m := by
  rw [Holds, release, List.mem_filter, decide_eq_true_eq, and_comm]
  rfl

/-- `i` requests a lock that conflicts with one `j` holds. -/
def Waits (t : LockTable ι ρ) (request : ι → Option (RowLock ρ)) (i j : ι) : Prop :=
  i ≠ j ∧ ∃ l ∈ request i, ∃ m, t.Holds j m ∧ l.conflicts m = true

/-- A cycle of transactions, each waiting for a lock that the next one holds. -/
def Deadlock (t : LockTable ι ρ) (request : ι → Option (RowLock ρ)) : Prop :=
  ∃ i, Relation.TransGen (t.Waits request) i i

omit [DecidableEq ι] in
/-- A rank that rises along every wait excludes a deadlock. -/
theorem not_deadlock_of_rank {request : ι → Option (RowLock ρ)} (rank : ι → Nat)
    (h : ∀ i j, t.Waits request i j → rank i < rank j) : ¬t.Deadlock request := by
  rintro ⟨i, hcycle⟩
  have hrises : ∀ j, Relation.TransGen (t.Waits request) i j → rank i < rank j := by
    intro j hpath
    induction hpath with
    | single hwait => exact h _ _ hwait
    | tail _ hwait ih => exact Nat.lt_trans ih (h _ _ hwait)
  exact Nat.lt_irrefl _ (hrises i hcycle)

end LockTable

end Apm.Lib
