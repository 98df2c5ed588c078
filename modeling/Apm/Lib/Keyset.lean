import Mathlib.Data.List.MinMax
import Mathlib.Data.List.Nodup
import Mathlib.Order.Lattice

/-!
# Keyset pages

A page holds the first rows strictly after a cursor in the order of a unique key. A page is
sorted, and what it leaves out of the rows after its cursor lies behind its last row. `LIMIT 1` over
all the rows reads one with the least key.
-/

namespace Apm.Lib

set_option autoImplicit false

variable {κ ρ : Type} [LinearOrder κ] (key : ρ → κ)

/-- The key lies strictly after the cursor. -/
def After (cursor : Option κ) (k : κ) : Prop := ∀ c, cursor = some c → c < k

instance (cursor : Option κ) (k : κ) : Decidable (After cursor k) :=
  match cursor with
  | none => isTrue fun _ h => by cases h
  | some c => decidable_of_iff (c < k)
      ⟨fun h _ hc => Option.some.inj hc ▸ h, fun h => h c rfl⟩

/-- The rows strictly after the cursor, in the order of their keys. -/
def rowsAfter (cursor : Option κ) (rows : List ρ) : List ρ :=
  (rows.filter fun r => After cursor (key r)).mergeSort fun r r' => key r ≤ key r'

/-- `WHERE key > cursor ORDER BY key LIMIT pageSize`. -/
def pageAfter (pageSize : Nat) (cursor : Option κ) (rows : List ρ) : List ρ :=
  (rowsAfter key cursor rows).take pageSize

variable {key} {pageSize : Nat} {cursor : Option κ} {rows : List ρ} {r last : ρ}

theorem mem_rowsAfter : r ∈ rowsAfter key cursor rows ↔ r ∈ rows ∧ After cursor (key r) := by
  rw [rowsAfter, List.mem_mergeSort, List.mem_filter, decide_eq_true_iff]

theorem mem_of_mem_pageAfter (h : r ∈ pageAfter key pageSize cursor rows) :
    r ∈ rows ∧ After cursor (key r) := mem_rowsAfter.mp (List.mem_of_mem_take h)

theorem pairwise_rowsAfter (hkeys : (rows.map key).Nodup) :
    (rowsAfter key cursor rows).Pairwise fun r r' => key r < key r' := by
  have hsorted : (rowsAfter key cursor rows).Pairwise fun r r' => key r ≤ key r' := by
    refine (List.pairwise_mergeSort (fun a b c hab hbc => ?_) (fun a b => ?_) _).imp
      fun h => of_decide_eq_true h
    · exact decide_eq_true ((of_decide_eq_true hab).trans (of_decide_eq_true hbc))
    · simpa using le_total (key a) (key b)
  have hnodup : (rowsAfter key cursor rows).Pairwise fun r r' => key r ≠ key r' := by
    have hperm := (List.mergeSort_perm (rows.filter fun r => After cursor (key r))
      fun r r' => key r ≤ key r').map key
    exact List.pairwise_map.mp (hperm.nodup_iff.mpr (hkeys.sublist (List.filter_sublist.map key)))
  exact (hsorted.and hnodup).imp fun h => lt_of_le_of_ne h.1 h.2

theorem pairwise_pageAfter (hkeys : (rows.map key).Nodup) :
    (pageAfter key pageSize cursor rows).Pairwise fun r r' => key r < key r' :=
  (pairwise_rowsAfter hkeys).sublist (List.take_sublist ..)

/-- A short page is the last one. -/
theorem mem_pageAfter_of_short (hshort : (pageAfter key pageSize cursor rows).length < pageSize)
    (hr : r ∈ rows) (hafter : After cursor (key r)) : r ∈ pageAfter key pageSize cursor rows := by
  have hall : pageAfter key pageSize cursor rows = rowsAfter key cursor rows := by
    rw [pageAfter, List.length_take] at hshort
    exact List.take_of_length_le (by omega)
  rw [hall]
  exact mem_rowsAfter.mpr ⟨hr, hafter⟩

/-- A page leaves out no row up to its last one. -/
theorem mem_pageAfter_of_le_last (hkeys : (rows.map key).Nodup)
    (hlast : last ∈ pageAfter key pageSize cursor rows) (hr : r ∈ rows)
    (hafter : After cursor (key r)) (hle : key r ≤ key last) :
    r ∈ pageAfter key pageSize cursor rows := by
  have hmem : r ∈ rowsAfter key cursor rows := mem_rowsAfter.mpr ⟨hr, hafter⟩
  have hpairwise : (rowsAfter key cursor rows).Pairwise fun r r' => key r < key r' :=
    pairwise_rowsAfter hkeys
  rw [← List.take_append_drop pageSize (rowsAfter key cursor rows)] at hmem hpairwise
  obtain hpage | hrest := List.mem_append.mp hmem
  · exact hpage
  · have hlt := (List.pairwise_append.mp hpairwise).2.2 last hlast r hrest
    exact absurd hle (not_le.mpr hlt)

/-- The last row of a page has its greatest key. -/
theorem le_getLast_pageAfter (hkeys : (rows.map key).Nodup)
    (hlast : (pageAfter key pageSize cursor rows).getLast? = some last)
    (hr : r ∈ pageAfter key pageSize cursor rows) : key r ≤ key last := by
  have hpairwise : (pageAfter key pageSize cursor rows).Pairwise fun r r' => key r < key r' :=
    pairwise_pageAfter hkeys
  obtain ⟨front, hfront⟩ := List.getLast?_eq_some_iff.mp hlast
  rw [hfront] at hr hpairwise
  obtain hr | hr := List.mem_append.mp hr
  · exact ((List.pairwise_append.mp hpairwise).2.2 r hr last (List.mem_singleton_self last)).le
  · rw [List.mem_singleton.mp hr]

/-- The first rows in the order of the key: as many as asked for, and before each row left out. -/
structure Firsts (key : ρ → κ) (count : Nat) (rows page : List ρ) : Prop where
  mem : ∀ r ∈ page, r ∈ rows
  length_eq : page.length = min count rows.length
  ordered : page.Pairwise fun r r' => key r < key r'
  before : ∀ r ∈ rows, r ∉ page → ∀ r' ∈ page, key r' < key r

/-- `ORDER BY key LIMIT count`. -/
theorem firsts_pageAfter (hkeys : (rows.map key).Nodup) :
    Firsts key pageSize rows (pageAfter key pageSize none rows) where
  mem r hr := (mem_of_mem_pageAfter hr).1
  length_eq := by
    have hall : (rows.filter fun r => After (none : Option κ) (key r)) = rows :=
      List.filter_eq_self.mpr fun r _ => decide_eq_true fun c hc => (by cases hc)
    rw [pageAfter, List.length_take, rowsAfter, List.length_mergeSort, hall]
  ordered := pairwise_pageAfter hkeys
  before r hr hleft r' hr' := by
    by_contra hle
    exact hleft (mem_pageAfter_of_le_last hkeys hr' hr (fun _ hc => (by cases hc)) (not_lt.mp hle))

/-- `ORDER BY key LIMIT 1`. -/
def firstRow (key : ρ → κ) (rows : List ρ) : Option ρ := rows.argmin key

theorem firstRow_eq_some (h : firstRow key rows = some r) :
    r ∈ rows ∧ ∀ r' ∈ rows, key r ≤ key r' :=
  ⟨List.argmin_mem h, fun _ hr' => List.le_of_mem_argmin hr' h⟩

theorem firstRow_eq_none : firstRow key rows = none ↔ rows = [] :=
  List.argmin_eq_none

end Apm.Lib
