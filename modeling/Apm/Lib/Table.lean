import Mathlib.Data.List.Nodup

/-!
# Tables with a unique key

A table is a list of rows with no two rows of one key, the key being a unique
column. A statement maps over the rows: an update leaves the key column alone, a
delete keeps the rows it does not select, an insert fails on a key that is there.
The rules below say what a lookup by key finds after each statement.
-/

namespace Apm.Lib

set_option autoImplicit false

structure Table {κ ρ : Type} (key : ρ → κ) where
  rows : List ρ
  unique : (rows.map key).Nodup

namespace Table

variable {κ ρ : Type} [DecidableEq κ] {key : ρ → κ}

def empty (key : ρ → κ) : Table key := ⟨[], List.nodup_nil⟩

def get (t : Table key) (k : κ) : Option ρ := t.rows.find? fun r => decide (key r = k)

def keys (t : Table key) : List κ := t.rows.map key

/-- The keys of the rows a `WHERE` selects. -/
def select (t : Table key) (p : ρ → Bool) : List κ := (t.rows.filter p).map key

/-- `UPDATE ... SET f WHERE p`. -/
def update (t : Table key) (p : ρ → Bool) (f : ρ → ρ) (hf : ∀ r, key (f r) = key r) :
    Table key where
  rows := t.rows.map fun r => if p r then f r else r
  unique := by
    have hkeys : (key ∘ fun r => if p r then f r else r) = key := by
      funext r
      simp only [Function.comp_apply]
      split
      · exact hf r
      · rfl
    rw [List.map_map, hkeys]
    exact t.unique

/-- `INSERT`, or the violation of the unique key. -/
def insert (t : Table key) (r : ρ) : Option (Table key) :=
  if h : key r ∈ t.keys then none
  else some ⟨t.rows ++ [r], by
    rw [List.map_append, List.map_cons, List.map_nil]
    exact List.Nodup.append t.unique (List.nodup_singleton _)
      (List.disjoint_singleton.mpr h)⟩

/-- `DELETE ... WHERE p`. -/
def delete (t : Table key) (p : ρ → Bool) : Table key where
  rows := t.rows.filter fun r => !p r
  unique := t.unique.sublist (List.filter_sublist.map key)

/-- `INSERT ... ON CONFLICT DO UPDATE` of all columns. -/
def upsert (t : Table key) (r : ρ) : Table key :=
  if h : key r ∈ t.keys then
    t.update (fun r' => key r' = key r) (fun r' => if key r' = key r then r else r')
    fun r' => by
      split
      · rename_i hk
        exact hk.symm
      · rfl
  else ⟨t.rows ++ [r], by
    rw [List.map_append, List.map_cons, List.map_nil]
    exact List.Nodup.append t.unique (List.nodup_singleton _)
      (List.disjoint_singleton.mpr h)⟩

variable {t t' : Table key} {k : κ} {r : ρ}

theorem key_of_get (h : t.get k = some r) : key r = k := by
  have hk := List.find?_some h
  exact of_decide_eq_true hk

theorem get_eq_some_iff : t.get k = some r ↔ r ∈ t.rows ∧ key r = k := by
  constructor
  · exact fun h => ⟨List.mem_of_find?_eq_some h, key_of_get h⟩
  · rintro ⟨hr, rfl⟩
    obtain ⟨r', hr'⟩ : ∃ r', t.get (key r) = some r' := by
      rw [← Option.isSome_iff_exists]
      exact List.find?_isSome.mpr ⟨r, hr, by simp⟩
    have hmem := List.mem_of_find?_eq_some hr'
    rw [hr', List.inj_on_of_nodup_map t.unique hmem hr (key_of_get hr')]

theorem mem_keys_iff : k ∈ t.keys ↔ ∃ r, t.get k = some r := by
  simp only [keys, List.mem_map, get_eq_some_iff]

theorem mem_select_iff {p : ρ → Bool} :
    k ∈ t.select p ↔ ∃ r, t.get k = some r ∧ p r = true := by
  simp only [select, List.mem_map, List.mem_filter, get_eq_some_iff]
  constructor
  · rintro ⟨r, ⟨hr, hp⟩, hk⟩
    exact ⟨r, ⟨hr, hk⟩, hp⟩
  · rintro ⟨r, ⟨hr, hk⟩, hp⟩
    exact ⟨r, ⟨hr, hp⟩, hk⟩

theorem get_update {p : ρ → Bool} {f : ρ → ρ} {hf : ∀ r, key (f r) = key r} :
    (t.update p f hf).get k = (t.get k).map fun r => if p r then f r else r := by
  cases h : t.get k with
  | none =>
    rw [Option.map_none, get, List.find?_eq_none]
    intro r hr
    simp only [update, List.mem_map] at hr
    obtain ⟨r₀, hr₀, rfl⟩ := hr
    have hne := List.find?_eq_none.mp h r₀ hr₀
    split
    · rwa [hf]
    · exact hne
  | some r =>
    obtain ⟨hr, hk⟩ := get_eq_some_iff.mp h
    rw [Option.map_some, get_eq_some_iff]
    refine ⟨List.mem_map.mpr ⟨r, hr, rfl⟩, ?_⟩
    split
    · rw [hf, hk]
    · exact hk

theorem get_insert (h : t.insert r = some t') :
    t'.get k = if k = key r then some r else t.get k := by
  unfold insert at h
  split at h
  · cases h
  · rename_i hfresh
    obtain rfl := Option.some.inj h
    by_cases hk : k = key r
    · rw [if_pos hk, get_eq_some_iff]
      exact ⟨by simp, hk.symm⟩
    · rw [if_neg hk, get, List.find?_append]
      simp only [List.find?_cons, Ne.symm hk, decide_false, List.find?_nil, Option.or_none]
      rfl

theorem insert_fresh (h : t.insert r = some t') : t.get (key r) = none := by
  unfold insert at h
  split at h
  · cases h
  · rename_i hfresh
    rw [Option.eq_none_iff_forall_ne_some]
    exact fun r' hr' => hfresh (mem_keys_iff.mpr ⟨r', hr'⟩)

omit [DecidableEq κ] in
theorem keys_update {p : ρ → Bool} {f : ρ → ρ} {hf : ∀ r, key (f r) = key r} :
    (t.update p f hf).keys = t.keys := by
  simp only [keys, update, List.map_map]
  refine List.map_congr_left fun r _ => ?_
  simp only [Function.comp_apply]
  split
  · exact hf r
  · rfl

theorem keys_upsert_of_mem (h : key r ∈ t.keys) : (t.upsert r).keys = t.keys := by
  rw [upsert, dif_pos h, keys_update]

theorem mem_keys_upsert : k ∈ (t.upsert r).keys ↔ k ∈ t.keys ∨ k = key r := by
  unfold upsert
  split
  · rename_i h
    rw [keys_update]
    exact ⟨.inl, fun hk => hk.elim id fun he => he ▸ h⟩
  · simp only [keys, List.map_append, List.mem_append, List.map_cons, List.map_nil,
      List.mem_singleton]

theorem get_append {rows : List ρ} {hk : ((t.rows ++ rows).map key).Nodup} :
    (Table.mk (t.rows ++ rows) hk).get k =
      (t.get k).or (rows.find? fun r => decide (key r = k)) :=
  List.find?_append

theorem get_upsert : (t.upsert r).get k = if key r = k then some r else t.get k := by
  unfold upsert
  split
  · rename_i h
    obtain ⟨r', hr'⟩ := mem_keys_iff.mp h
    rw [get_update]
    split_ifs with hk
    · obtain rfl := hk
      have hkey : decide (key r' = key r) = true := decide_eq_true (key_of_get hr')
      rw [hr', Option.map_some, hkey, if_pos rfl, if_pos (key_of_get hr')]
    · cases hget : t.get k with
      | none => rfl
      | some r'' =>
        have hkey : ¬decide (key r'' = key r) = true := by
          rw [key_of_get hget, decide_eq_true_eq]
          exact fun he => hk he.symm
        rw [Option.map_some, if_neg hkey]
  · rename_i h
    rw [get_append, List.find?_singleton]
    by_cases hk : key r = k
    · have hnone : t.get k = none :=
        Option.eq_none_iff_forall_ne_some.mpr fun r' hr' => h (mem_keys_iff.mpr ⟨r', hk ▸ hr'⟩)
      rw [hnone, Option.none_or, if_pos (decide_eq_true hk), if_pos hk]
    · rw [if_neg hk, if_neg (by rwa [decide_eq_true_eq]), Option.or_none]

/-- A row that is there is not changed by its upsert. -/
theorem upsert_of_mem (h : r ∈ t.rows) : t.upsert r = t := by
  have hget : t.get (key r) = some r := get_eq_some_iff.mpr ⟨h, rfl⟩
  have hmem : key r ∈ t.keys := mem_keys_iff.mpr ⟨r, hget⟩
  have hrows : t.rows.map (fun r' => if decide (key r' = key r) = true then
      (if key r' = key r then r else r') else r') = t.rows.map id := by
    refine List.map_congr_left fun r' hr' => ?_
    by_cases hk : key r' = key r
    · have hget' : t.get (key r) = some r' := get_eq_some_iff.mpr ⟨hr', hk⟩
      rw [if_pos (decide_eq_true hk), if_pos hk]
      exact Option.some.inj (hget.symm.trans hget')
    · rw [if_neg (by rwa [decide_eq_true_eq])]
      rfl
  rw [upsert, dif_pos hmem]
  cases t with
  | mk rows hunique =>
    rw [List.map_id] at hrows
    simp only [update, hrows]

theorem get_upsertAll_of_notMem {rows : List ρ} (h : k ∉ rows.map key) :
    (rows.foldl upsert t).get k = t.get k := by
  induction rows generalizing t with
  | nil => rfl
  | cons r rows ih =>
    rw [List.map_cons, List.mem_cons, not_or] at h
    rw [List.foldl_cons, ih h.2, get_upsert, if_neg fun he => h.1 he.symm]

theorem get_upsertAll_of_mem {rows : List ρ} (hnodup : (rows.map key).Nodup) (h : r ∈ rows) :
    (rows.foldl upsert t).get (key r) = some r := by
  induction rows generalizing t with
  | nil => cases h
  | cons r' rows ih =>
    rw [List.map_cons, List.nodup_cons] at hnodup
    cases h with
    | head => rw [List.foldl_cons, get_upsertAll_of_notMem hnodup.1, get_upsert, if_pos rfl]
    | tail _ h => exact ih hnodup.2 h

/-- Upserts of rows of different keys change nothing exactly where the rows are there. -/
theorem upsertAll_eq_self_iff {rows : List ρ} (hnodup : (rows.map key).Nodup) :
    rows.foldl upsert t = t ↔ ∀ r ∈ rows, r ∈ t.rows := by
  constructor
  · intro h r hr
    have hget := get_upsertAll_of_mem (t := t) hnodup hr
    rw [h] at hget
    exact (get_eq_some_iff.mp hget).1
  · intro h
    clear hnodup
    induction rows with
    | nil => rfl
    | cons r rows ih =>
      rw [List.foldl_cons, upsert_of_mem (h r List.mem_cons_self)]
      exact ih fun r' hr' => h r' (List.mem_cons_of_mem _ hr')

theorem get_delete {p : ρ → Bool} : (t.delete p).get k = (t.get k).filter fun r => !p r := by
  cases h : t.get k with
  | none =>
    rw [Option.filter_none, get, List.find?_eq_none]
    exact fun r hr => List.find?_eq_none.mp h r (List.mem_of_mem_filter hr)
  | some r =>
    obtain ⟨hr, hk⟩ := get_eq_some_iff.mp h
    cases hp : p r with
    | false =>
      rw [Option.filter_some, hp, Bool.not_false, if_pos rfl, get_eq_some_iff]
      exact ⟨List.mem_filter.mpr ⟨hr, by rw [hp]; rfl⟩, hk⟩
    | true =>
      rw [Option.filter_some, hp, Bool.not_true, if_neg (by decide),
        Option.eq_none_iff_forall_ne_some]
      intro r' hr'
      obtain ⟨hmem, hk'⟩ := get_eq_some_iff.mp hr'
      obtain ⟨hmem', hp'⟩ := List.mem_filter.mp hmem
      have heq : t.get k = some r' := get_eq_some_iff.mpr ⟨hmem', hk'⟩
      rw [h] at heq
      obtain rfl := Option.some.inj heq
      rw [hp] at hp'
      cases hp'

end Table

/-! ## A partial unique index -/

/-- The row is in the index, under the key. -/
def occupies {κ ρ : Type} [DecidableEq κ] (key : ρ → κ) (indexed : ρ → Bool) (k : κ) (r : ρ) :
    Bool := decide (key r = k) && indexed r

/-- A table in the order of its rows: of the indexed rows no two have one key. -/
structure PartialTable {κ ρ : Type} [DecidableEq κ] (key : ρ → κ) (indexed : ρ → Bool) where
  rows : List ρ
  unique : ∀ k, rows.countP (occupies key indexed k) ≤ 1

namespace PartialTable

variable {ρ : Type} {p : ρ → Bool} {rows : List ρ} {i j : Nat} {r r' : ρ}

theorem countP_set_le (h : p r = false) : (rows.set i r).countP p ≤ rows.countP p := by
  induction rows generalizing i with
  | nil => exact Nat.le_refl 0
  | cons first rows ih =>
    cases i with
    | zero =>
      rw [List.set_cons_zero, List.countP_cons_of_neg (by simp [h])]
      exact (List.sublist_cons_self first rows).countP_le
    | succ i =>
      rw [List.set_cons_succ, List.countP_cons, List.countP_cons]
      exact Nat.add_le_add_right ih _

/-- A second row finds no place where one at most may be. -/
theorem place_unique (h : rows.countP p ≤ 1) (hi : rows[i]? = some r) (hj : rows[j]? = some r')
    (hr : p r = true) (hr' : p r' = true) : i = j := by
  induction rows generalizing i j with
  | nil => simp at hi
  | cons first rows ih =>
    have hnone : p first = true → ∀ s ∈ rows, ¬ p s = true := by
      intro hfirst
      rw [List.countP_cons_of_pos hfirst] at h
      exact List.countP_eq_zero.mp (Nat.le_zero.mp (Nat.le_of_succ_le_succ h))
    cases i with
    | zero =>
      rw [List.getElem?_cons_zero, Option.some_inj] at hi
      cases j with
      | zero => rfl
      | succ j => exact absurd hr' (hnone (hi ▸ hr) r' (List.mem_of_getElem? hj))
    | succ i =>
      cases j with
      | zero =>
        rw [List.getElem?_cons_zero, Option.some_inj] at hj
        exact absurd hr (hnone (hj ▸ hr') r (List.mem_of_getElem? hi))
      | succ j =>
        rw [List.getElem?_cons_succ] at hi hj
        have hle : rows.countP p ≤ (first :: rows).countP p :=
          (List.sublist_cons_self first rows).countP_le
        rw [ih (Nat.le_trans hle h) hi hj]

variable {κ : Type} [DecidableEq κ] {key : ρ → κ} {indexed : ρ → Bool}

/-- `UPDATE` of one row, which leaves the index. -/
def set (t : PartialTable key indexed) (i : Nat) (r : ρ) (hr : indexed r = false) :
    PartialTable key indexed where
  rows := t.rows.set i r
  unique k :=
    have hout : occupies key indexed k r = false := by rw [occupies, hr, Bool.and_false]
    Nat.le_trans (countP_set_le hout) (t.unique k)

/-- `INSERT`, or the violation of the index. -/
def insert (t : PartialTable key indexed) (r : ρ) : Option (PartialTable key indexed) :=
  if h : indexed r = true ∧ t.rows.countP (occupies key indexed (key r)) ≠ 0 then none
  else some
    { rows := t.rows ++ [r]
      unique := fun k => by
        rw [List.countP_append, List.countP_singleton]
        split_ifs with hr
        · rw [occupies, Bool.and_eq_true, decide_eq_true_iff] at hr
          have habsent : t.rows.countP (occupies key indexed k) = 0 := by
            rw [← hr.1]
            exact not_not.mp fun hne => h ⟨hr.2, hne⟩
          exact Nat.le_of_eq (by rw [habsent])
        · exact t.unique k }

theorem rows_insert {t t' : PartialTable key indexed} (h : t.insert r = some t') :
    t'.rows = t.rows ++ [r] := by
  unfold insert at h
  split at h
  · cases h
  · obtain rfl := Option.some.inj h
    rfl

/-- The index refuses no row where no other has its key. -/
theorem insert_of_absent {t : PartialTable key indexed}
    (h : ∀ s ∈ t.rows, occupies key indexed (key r) s = false) : ∃ t', t.insert r = some t' := by
  have hzero : t.rows.countP (occupies key indexed (key r)) = 0 :=
    List.countP_eq_zero.mpr fun s hs => by rw [h s hs]; exact Bool.false_ne_true
  exact ⟨_, dif_neg fun hin => hin.2 hzero⟩

theorem place_eq {t : PartialTable key indexed} {k : κ} (hi : t.rows[i]? = some r)
    (hj : t.rows[j]? = some r') (hr : occupies key indexed k r = true)
    (hr' : occupies key indexed k r' = true) : i = j :=
  place_unique (t.unique k) hi hj hr hr'

end PartialTable

end Apm.Lib
