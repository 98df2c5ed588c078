import Mathlib.Data.List.Count
import Mathlib.Data.List.Dedup
import Mathlib.Data.List.Induction
import Mathlib.Data.List.Nodup

/-!
# Counting occurrences

A counter lists the keys that were met, in the order of their first occurrence, each with how often
it was met. A dictionary filled by `setdefault` keeps the first value of each key.
-/

namespace Apm.Lib

set_option autoImplicit false

abbrev Counter (κ : Type) := List (κ × Nat)

namespace Counter

variable {κ : Type} [DecidableEq κ]

/-- `counter[key] += 1` -/
def add : Counter κ → κ → Counter κ
  | [], key => [(key, 1)]
  | (k, n) :: rest, key => if k = key then (k, n + 1) :: rest else (k, n) :: add rest key

def tally (keys : List κ) : Counter κ := keys.foldl add []

/-- `counter.get(key, 0)` -/
def get : Counter κ → κ → Nat
  | [], _ => 0
  | (k, n) :: rest, key => if k = key then n else get rest key

variable {counter : Counter κ} {key other : κ} {n : Nat}

theorem get_add : get (add counter key) other = get counter other + if key = other then 1 else 0 := by
  induction counter with
  | nil => rw [add, get, get, get, Nat.zero_add]
  | cons entry rest ih =>
    obtain ⟨k, n⟩ := entry
    rw [add]
    by_cases hk : k = key
    · subst hk
      rw [if_pos rfl, get, get]
      split_ifs <;> rfl
    · rw [if_neg hk, get, get, ih]
      by_cases h : k = other
      · simp [h, Ne.symm (h ▸ hk : other ≠ key)]
      · simp [h]

theorem keys_add : (add counter key).map Prod.fst =
    if key ∈ counter.map Prod.fst then counter.map Prod.fst else counter.map Prod.fst ++ [key] := by
  induction counter with
  | nil => rfl
  | cons entry rest ih =>
    obtain ⟨k, n⟩ := entry
    rw [add]
    by_cases hk : k = key
    · simp [hk]
    · rw [if_neg hk, List.map_cons, ih]
      by_cases h : key ∈ rest.map Prod.fst
      · rw [if_pos h, List.map_cons, if_pos (List.mem_cons_of_mem _ h)]
      · rw [if_neg h, List.map_cons, if_neg, List.cons_append]
        rw [List.mem_cons, not_or]
        exact ⟨Ne.symm hk, h⟩

/-- An entry of a counter that lists each key once. -/
theorem get_of_mem (hnodup : (counter.map Prod.fst).Nodup) (h : (key, n) ∈ counter) :
    get counter key = n := by
  induction counter with
  | nil => cases h
  | cons entry rest ih =>
    obtain ⟨k, m⟩ := entry
    rw [List.map_cons, List.nodup_cons] at hnodup
    rw [get]
    rcases List.mem_cons.mp h with heq | hrest
    · obtain ⟨rfl, rfl⟩ := Prod.mk.inj heq
      rw [if_pos rfl]
    · rw [if_neg, ih hnodup.2 hrest]
      rintro rfl
      exact hnodup.1 (List.mem_map.mpr ⟨_, hrest, rfl⟩)

variable [BEq κ] [LawfulBEq κ]

/-- A counter that has met the keys. -/
structure Counts (keys : List κ) (counter : Counter κ) : Prop where
  nodup : (counter.map Prod.fst).Nodup
  mem_iff : ∀ k, k ∈ counter.map Prod.fst ↔ k ∈ keys
  get_eq : ∀ k, get counter k = keys.count k

theorem Counts.add {keys : List κ} (h : Counts keys counter) (key : κ) :
    Counts (keys ++ [key]) (add counter key) where
  nodup := by
    rw [keys_add]
    split_ifs with hmem
    · exact h.nodup
    · exact List.nodup_append.mpr ⟨h.nodup, List.nodup_singleton key, fun a ha b hb heq =>
        hmem (List.mem_singleton.mp hb ▸ heq ▸ ha)⟩
  mem_iff k := by
    rw [keys_add, List.mem_append, List.mem_singleton, ← h.mem_iff]
    split_ifs with hmem
    · exact ⟨.inl, fun hk => hk.elim id fun heq => heq ▸ hmem⟩
    · rw [List.mem_append, List.mem_singleton]
  get_eq k := by
    rw [get_add, h.get_eq, List.count_append, List.count_singleton]
    simp only [beq_iff_eq]

theorem counts_tally (keys : List κ) : Counts keys (tally keys) := by
  induction keys using List.reverseRecOn with
  | nil => exact ⟨List.nodup_nil, fun _ => Iff.rfl, fun _ => rfl⟩
  | append_singleton keys key ih =>
    rw [tally, List.foldl_append]
    exact ih.add key

theorem get_tally (keys : List κ) : get (tally keys) key = keys.count key :=
  (counts_tally keys).get_eq key

theorem mem_tally_iff (keys : List κ) : (key, n) ∈ tally keys ↔ key ∈ keys ∧ keys.count key = n := by
  have hcounts := counts_tally keys
  constructor
  · intro h
    have hkey := List.mem_map_of_mem (f := Prod.fst) h
    exact ⟨(hcounts.mem_iff key).mp hkey, (get_tally keys).symm.trans (get_of_mem hcounts.nodup h)⟩
  · rintro ⟨hkey, hcount⟩
    obtain ⟨⟨k, m⟩, hmem, rfl⟩ := List.mem_map.mp ((hcounts.mem_iff key).mpr hkey)
    rw [← hcount, ← get_tally, get_of_mem hcounts.nodup hmem]
    exact hmem

/-- As many keys are counted as there are different ones. -/
theorem length_tally (keys : List κ) : (tally keys).length = keys.dedup.length := by
  have hcounts := counts_tally keys
  have hperm : ((tally keys).map Prod.fst).Perm keys.dedup :=
    (List.perm_ext_iff_of_nodup hcounts.nodup keys.nodup_dedup).mpr fun k =>
      (hcounts.mem_iff k).trans List.mem_dedup.symm
  rw [← hperm.length_eq, List.length_map]

end Counter

section setDefault

variable {κ ν : Type} [BEq κ] [LawfulBEq κ] {dict : List (κ × ν)} {entry : κ × ν} {key : κ}

/-- `dict.setdefault(key, value)` -/
def setDefault (dict : List (κ × ν)) (entry : κ × ν) : List (κ × ν) :=
  match dict.lookup entry.1 with
  | some _ => dict
  | none => dict ++ [entry]

theorem lookup_setDefault :
    (setDefault dict entry).lookup key = (dict.lookup key).or ([entry].lookup key) := by
  rw [setDefault]
  split
  · rename_i value hvalue
    by_cases hkey : key = entry.1
    · rw [hkey, hvalue, Option.some_or]
    · have hnone : [entry].lookup key = none :=
        List.lookup_eq_none_iff.mpr fun e he => List.mem_singleton.mp he ▸ bne_iff_ne.mpr hkey
      rw [hnone, Option.or_none]
  · exact List.lookup_append

theorem lookup_foldl_setDefault (entries : List (κ × ν)) :
    (entries.foldl setDefault dict).lookup key = (dict.lookup key).or (entries.lookup key) := by
  induction entries generalizing dict with
  | nil => exact (Option.or_none).symm
  | cons entry rest ih =>
    rw [List.foldl_cons, ih, lookup_setDefault, Option.or_assoc, ← List.lookup_append]
    rfl

theorem exists_lookup {entries : List (κ × ν)} (h : key ∈ entries.map Prod.fst) :
    ∃ value, entries.lookup key = some value := by
  obtain ⟨entry, hentry, rfl⟩ := List.mem_map.mp h
  exact Option.isSome_iff_exists.mp
    (List.lookup_isSome_iff.mpr ⟨entry, hentry, beq_self_eq_true entry.1⟩)

end setDefault

end Apm.Lib
