import Apm.Lib.History
import Apm.Lib.Table
import Mathlib.Data.List.Dedup
import Mathlib.Data.List.DropRight

/-!
# The least recently used entries

An ordered dictionary keeps its entries in the order of their insertion. A cache of bounded size
moves an entry to the end when it is used and drops the first one when there are too many. Its
keys are then the last `cap` distinct keys that were used, in the order of their last use, and an
entry holds the value its key was last set to.
-/

namespace Apm.Lib

set_option autoImplicit false

/-- Keys and values in the order of insertion. -/
abbrev OrderedDict (κ ν : Type) := Table (Prod.fst : κ × ν → κ)

namespace OrderedDict

variable {κ ν : Type} [DecidableEq κ]

def lookup (d : OrderedDict κ ν) (k : κ) : Option ν := (d.get k).map Prod.snd

/-- `d[k] = v`: in place if the key is there, else at the end. -/
def setItem (d : OrderedDict κ ν) (k : κ) (v : ν) : OrderedDict κ ν := d.upsert (k, v)

/-- `d.move_to_end(k)` of a key that is there; another one moves nothing. -/
def moveToEnd (d : OrderedDict κ ν) (k : κ) : OrderedDict κ ν where
  rows := d.rows.filter (fun e => decide (e.1 ≠ k)) ++ d.rows.filter fun e => !decide (e.1 ≠ k)
  unique := (((List.filter_append_perm _ d.rows).map Prod.fst).nodup_iff).mpr d.unique

/-- `d.popitem(last=False)` of a dictionary that is not empty. -/
def popFirst (d : OrderedDict κ ν) : OrderedDict κ ν where
  rows := d.rows.tail
  unique := d.unique.sublist ((List.tail_sublist _).map Prod.fst)

variable {d : OrderedDict κ ν} {k k' : κ} {v : ν}

theorem lookup_eq_some_iff : d.lookup k = some v ↔ (k, v) ∈ d.rows := by
  rw [lookup, Option.map_eq_some_iff]
  constructor
  · rintro ⟨⟨k', v'⟩, he, rfl⟩
    obtain ⟨hmem, rfl⟩ := Table.get_eq_some_iff.mp he
    exact hmem
  · exact fun h => ⟨(k, v), Table.get_eq_some_iff.mpr ⟨h, rfl⟩, rfl⟩

theorem lookup_isSome_iff : (d.lookup k).isSome ↔ k ∈ d.keys := by
  rw [lookup, Option.isSome_map, Option.isSome_iff_exists, Table.mem_keys_iff]

theorem lookup_eq_none_iff : d.lookup k = none ↔ k ∉ d.keys := by
  rw [← lookup_isSome_iff, Bool.not_eq_true, Option.isSome_eq_false_iff, Option.isNone_iff_eq_none]

@[simp] theorem lookup_setItem :
    (d.setItem k v).lookup k' = if k' = k then some v else d.lookup k' := by
  rw [lookup, setItem, Table.get_upsert]
  by_cases h : k = k'
  · rw [if_pos h, if_pos h.symm, Option.map_some]
  · rw [if_neg h, if_neg fun he => h he.symm, lookup]

@[simp] theorem mem_rows_moveToEnd {e : κ × ν} : e ∈ (d.moveToEnd k).rows ↔ e ∈ d.rows :=
  (List.filter_append_perm _ d.rows).mem_iff

@[simp] theorem lookup_moveToEnd : (d.moveToEnd k).lookup k' = d.lookup k' :=
  Option.ext fun v => by simp only [lookup_eq_some_iff, mem_rows_moveToEnd]

theorem lookup_of_popFirst (h : d.popFirst.lookup k = some v) : d.lookup k = some v :=
  lookup_eq_some_iff.mpr (List.mem_of_mem_tail (lookup_eq_some_iff.mp h))

theorem length_moveToEnd : (d.moveToEnd k).rows.length = d.rows.length :=
  (List.filter_append_perm _ d.rows).length_eq

theorem length_setItem_le : (d.setItem k v).rows.length ≤ d.rows.length + 1 := by
  rw [setItem, Table.upsert]
  split
  · rw [Table.update, List.length_map]
    exact Nat.le_succ _
  · rw [List.length_append, List.length_singleton]

omit [DecidableEq κ] in
theorem keys_popFirst : d.popFirst.keys = d.keys.tail := List.map_tail

theorem keys_moveToEnd (h : k ∈ d.keys) :
    (d.moveToEnd k).keys = d.keys.filter (· ≠ k) ++ [k] := by
  have hlast : (d.rows.map Prod.fst).filter (fun k' => !decide (k' ≠ k)) = [k] := by
    have hrep : (d.rows.map Prod.fst).filter (· == k) = [k] := by
      rw [List.filter_beq, List.count_eq_one_of_mem d.unique h, List.replicate_one]
    rw [← hrep]
    exact List.filter_congr fun k' _ => by by_cases hk : k' = k <;> simp [hk]
  rw [Table.keys, moveToEnd, List.map_append, ← hlast, List.filter_map, Table.keys,
    List.filter_map]
  rfl

theorem keys_setItem_of_notMem (h : k ∉ d.keys) : (d.setItem k v).keys = d.keys ++ [k] := by
  rw [setItem, Table.upsert, dif_neg h]
  exact List.map_append

/-- What is used or set last stands at the end. -/
theorem keys_moveToEnd_setItem :
    ((d.setItem k v).moveToEnd k).keys = d.keys.filter (· ≠ k) ++ [k] := by
  have hmem : k ∈ (d.setItem k v).keys := Table.mem_keys_upsert.mpr (.inr rfl)
  rw [keys_moveToEnd hmem]
  by_cases h : k ∈ d.keys
  · rw [setItem, Table.keys_upsert_of_mem h]
  · rw [keys_setItem_of_notMem h, List.filter_append]
    simp

end OrderedDict

namespace Lru

variable {κ ν : Type} [DecidableEq κ]

/-- The last `cap` distinct keys of a history of uses, in the order of their last use. -/
def recent (cap : Nat) (uses : List κ) : List κ := uses.dedup.rtake cap

variable {cap : Nat} {uses : List κ} {k : κ}

@[simp] theorem recent_nil : recent cap ([] : List κ) = [] := by
  rw [recent, List.dedup_nil, List.rtake_nil]

theorem dedup_append_singleton : (uses ++ [k]).dedup = uses.dedup.filter (· ≠ k) ++ [k] := by
  induction uses with
  | nil => rfl
  | cons a rest ih =>
    rw [List.cons_append, List.dedup_cons, List.dedup_cons, ih]
    by_cases ha : a = k
    · subst ha
      by_cases hmem : a ∈ rest <;> simp [hmem]
    · by_cases hmem : a ∈ rest <;> simp [hmem, ha]

theorem recent_sublist : (recent cap uses).Sublist uses.dedup := List.drop_sublist ..

theorem nodup_recent : (recent cap uses).Nodup := uses.nodup_dedup.sublist recent_sublist

theorem length_recent_le (cap : Nat) (uses : List κ) : (recent cap uses).length ≤ cap := by
  rw [recent, List.rtake, List.length_drop]
  omega

/-- Drop the first of the keys if there are more than `cap`. -/
def dropOldest (cap : Nat) (ks : List κ) : List κ := if cap < ks.length then ks.tail else ks

omit [DecidableEq κ] in
theorem rtake_append_of_le {xs ys : List κ} (h : cap ≤ ys.length) :
    (xs ++ ys).rtake cap = ys.rtake cap := by
  rw [List.rtake, List.rtake, List.length_append, List.drop_append]
  have hxs : xs.drop (xs.length + ys.length - cap) = [] := List.drop_eq_nil_of_le (by omega)
  rw [hxs, List.nil_append]
  congr 1
  omega

omit [DecidableEq κ] in
theorem rtake_of_length_le {xs : List κ} (h : xs.length ≤ cap) : xs.rtake cap = xs := by
  rw [List.rtake, Nat.sub_eq_zero_of_le h, List.drop_zero]

/-- The keys are those dropped and those recent; nothing is dropped of at most `cap`. -/
theorem exists_dropped (cap : Nat) (uses : List κ) :
    ∃ dropped, uses.dedup = dropped ++ recent cap uses ∧
      ((recent cap uses).length = cap ∨ dropped = []) := by
  refine ⟨uses.dedup.take (uses.dedup.length - cap), (List.take_append_drop _ _).symm, ?_⟩
  rcases Nat.le_total cap uses.dedup.length with h | h
  · left
    rw [recent, List.rtake, List.length_drop]
    omega
  · right
    rw [Nat.sub_eq_zero_of_le h, List.take_zero]

/-- A recent key that is used again moves to the end. -/
theorem recent_append_of_mem (h : k ∈ recent cap uses) :
    recent cap (uses ++ [k]) = (recent cap uses).filter (· ≠ k) ++ [k] := by
  obtain ⟨dropped, hsplit, hfull⟩ := exists_dropped cap uses
  have hdropped : dropped.filter (· ≠ k) = dropped := by
    have hnodup := uses.nodup_dedup
    rw [hsplit] at hnodup
    refine List.filter_eq_self.mpr fun a ha => decide_eq_true fun he => ?_
    exact (List.nodup_append.mp hnodup).2.2 a ha k h he
  have hlen : ((recent cap uses).filter (· ≠ k) ++ [k]).length = (recent cap uses).length := by
    have hperm := (List.filter_append_perm (· ≠ k) (recent cap uses)).length_eq
    have hone : ((recent cap uses).filter fun a => !decide (a ≠ k)).length = 1 := by
      rw [← List.countP_eq_length_filter, ← List.count_eq_one_of_mem nodup_recent h, List.count]
      exact List.countP_congr fun a _ => by simp
    rw [List.length_append, hone] at hperm
    rw [List.length_append, List.length_singleton, hperm]
  rw [recent, dedup_append_singleton, hsplit, List.filter_append, hdropped, List.append_assoc]
  rcases hfull with hcap | hnil
  · rw [rtake_append_of_le (by rw [hlen, hcap]), rtake_of_length_le (by rw [hlen, hcap])]
  · rw [hnil, List.nil_append, rtake_of_length_le (by rw [hlen]; exact length_recent_le cap uses)]

/-- A key that is not recent joins at the end, and the first one goes if there are too many. -/
theorem recent_append_of_notMem (h : k ∉ recent cap uses) :
    recent cap (uses ++ [k]) = dropOldest cap (recent cap uses ++ [k]) := by
  obtain ⟨dropped, hsplit, hfull⟩ := exists_dropped cap uses
  have hkept : (recent cap uses).filter (· ≠ k) = recent cap uses :=
    List.filter_eq_self.mpr fun a ha => decide_eq_true fun he => h (he ▸ ha)
  rw [recent, dedup_append_singleton, hsplit, List.filter_append, hkept, List.append_assoc, dropOldest,
    List.length_append, List.length_singleton]
  rcases hfull with hlen | hnil
  · rw [if_pos (by omega), rtake_append_of_le (by rw [List.length_append]; simp [hlen]), List.rtake,
      List.length_append, List.length_singleton, hlen, Nat.add_sub_cancel_left, List.drop_one]
  · rw [hnil, List.filter_nil, List.nil_append]
    split
    · rename_i hover
      have hle := length_recent_le cap uses
      have hlen : (recent cap uses).length = cap := by omega
      rw [List.rtake, List.length_append, List.length_singleton, hlen, Nat.add_sub_cancel_left,
        List.drop_one]
    · rename_i hfits
      exact rtake_of_length_le (by rw [List.length_append, List.length_singleton]; omega)

end Lru

namespace OrderedDict

open Lru (recent dropOldest)

variable {κ ν : Type} [DecidableEq κ] {d : OrderedDict κ ν} {cap : Nat} {uses : List κ} {k : κ}
  {v : ν}

/-- `d[k] = v`, moved to the end, and the first entry popped if there are more than `cap`. -/
def put (cap : Nat) (d : OrderedDict κ ν) (k : κ) (v : ν) : OrderedDict κ ν :=
  let d' := (d.setItem k v).moveToEnd k
  if cap < d'.rows.length then d'.popFirst else d'

theorem length_put_le (h : d.rows.length ≤ cap) : (d.put cap k v).rows.length ≤ cap := by
  have hlen : ((d.setItem k v).moveToEnd k).rows.length ≤ cap + 1 := by
    rw [length_moveToEnd]
    exact length_setItem_le.trans (Nat.succ_le_succ h)
  rw [put]
  split
  · rw [popFirst, List.length_tail]
    exact Nat.sub_le_of_le_add hlen
  · rename_i hfits
    exact Nat.not_lt.mp hfits

theorem keys_put : (d.put cap k v).keys = dropOldest cap (d.keys.filter (· ≠ k) ++ [k]) := by
  have hkeys := keys_moveToEnd_setItem (d := d) (k := k) (v := v)
  have hlen : ((d.setItem k v).moveToEnd k).rows.length = (d.keys.filter (· ≠ k) ++ [k]).length := by
    rw [← hkeys, Table.keys, List.length_map]
  rw [put, dropOldest, ← hlen]
  split
  · rw [keys_popFirst, hkeys]
  · exact hkeys

/-- **A use of an entry keeps the recent keys.** -/
theorem keys_moveToEnd_recent (hd : d.keys = recent cap uses) (h : k ∈ recent cap uses) :
    (d.moveToEnd k).keys = recent cap (uses ++ [k]) := by
  rw [Lru.recent_append_of_mem h, ← hd]
  exact keys_moveToEnd (hd ▸ h)

/-- **Setting an entry keeps the recent keys**, whether the key was there or not. -/
theorem keys_put_recent (hd : d.keys = recent cap uses) :
    (d.put cap k v).keys = recent cap (uses ++ [k]) := by
  rw [keys_put, hd]
  by_cases h : k ∈ recent cap uses
  · rw [Lru.recent_append_of_mem h, dropOldest, if_neg]
    rw [← Lru.recent_append_of_mem h, Nat.not_lt]
    exact Lru.length_recent_le _ _
  · rw [Lru.recent_append_of_notMem h, List.filter_eq_self.mpr]
    exact fun a ha => decide_eq_true fun he => h (he ▸ ha)

/-- An entry that a set leaves there holds what was set, or what it held before. -/
theorem lookup_put {k' : κ} : (d.put cap k v).lookup k' =
    if k' ∈ (d.put cap k v).keys then if k' = k then some v else d.lookup k' else none := by
  by_cases hmem : k' ∈ (d.put cap k v).keys
  · obtain ⟨v', hv'⟩ := Option.isSome_iff_exists.mp (lookup_isSome_iff.mpr hmem)
    rw [if_pos hmem, hv', ← lookup_setItem, ← lookup_moveToEnd (k := k)]
    simp only [put] at hv'
    split at hv'
    · exact (lookup_of_popFirst hv').symm
    · exact hv'.symm
  · rw [if_neg hmem, lookup_eq_none_iff]
    exact hmem

end OrderedDict

namespace Lru

variable {κ ν : Type} [DecidableEq κ]

/-- The dictionary holds the keys used last, each with the value of its last use. -/
structure Tracks (cap : Nat) (d : OrderedDict κ ν) (uses : List (κ × ν)) : Prop where
  keys_eq : d.keys = recent cap (uses.map Prod.fst)
  lookup_eq : ∀ k ∈ d.keys, d.lookup k = lastValue uses k

variable {cap : Nat} {d : OrderedDict κ ν} {uses : List (κ × ν)} {k k' : κ} {v : ν}

theorem tracks_empty : Tracks cap (Table.empty _ : OrderedDict κ ν) [] :=
  ⟨recent_nil.symm, nofun⟩

/-- What is looked up is the last value of a recent key, and nothing of another key. -/
theorem Tracks.lookup (h : Tracks cap d uses) (k : κ) :
    d.lookup k = if k ∈ recent cap (uses.map Prod.fst) then lastValue uses k else none := by
  rw [← h.keys_eq]
  split
  · rename_i hmem
    exact h.lookup_eq k hmem
  · rename_i hmem
    exact OrderedDict.lookup_eq_none_iff.mpr hmem

theorem Tracks.mem_uses (h : Tracks cap d uses) (hlook : d.lookup k = some v) : (k, v) ∈ uses := by
  rw [h.lookup k] at hlook
  split at hlook
  · exact mem_of_lastValue hlook
  · cases hlook

/-- **An entry that is used moves to the end.** -/
theorem Tracks.moveToEnd (h : Tracks cap d uses) (hlook : d.lookup k = some v) :
    Tracks cap (d.moveToEnd k) (uses ++ [(k, v)]) := by
  have hmem : k ∈ d.keys := by
    rw [← OrderedDict.lookup_isSome_iff, hlook]
    rfl
  refine ⟨?_, fun k' hk' => ?_⟩
  · rw [List.map_append]
    exact OrderedDict.keys_moveToEnd_recent h.keys_eq (h.keys_eq ▸ hmem)
  · rw [← OrderedDict.lookup_isSome_iff, OrderedDict.lookup_moveToEnd,
      OrderedDict.lookup_isSome_iff] at hk'
    rw [OrderedDict.lookup_moveToEnd, lastValue_append_singleton]
    split
    · rename_i he
      rw [he, hlook]
    · exact h.lookup_eq k' hk'

/-- **An entry that is set stands at the end**, whether its key was there or not. -/
theorem Tracks.put (h : Tracks cap d uses) : Tracks cap (d.put cap k v) (uses ++ [(k, v)]) := by
  refine ⟨?_, fun k' hk' => ?_⟩
  · rw [List.map_append]
    exact OrderedDict.keys_put_recent h.keys_eq
  · rw [OrderedDict.lookup_put, if_pos hk', lastValue_append_singleton]
    split
    · rfl
    · rename_i hne
      refine h.lookup_eq k' ?_
      have hsome := OrderedDict.lookup_isSome_iff.mpr hk'
      rw [OrderedDict.lookup_put, if_pos hk', if_neg hne] at hsome
      exact OrderedDict.lookup_isSome_iff.mp hsome

end Lru

end Apm.Lib
