import Mathlib.Data.List.Count
import Mathlib.Logic.Function.Basic

/-!
# Demands on a stock

Each demand takes one piece of its key from the stock, while there is one. Two stocks serve the
same demands where they have as many pieces of each key, up to the number of its demands.
-/

namespace Apm.Lib

set_option autoImplicit false

variable {κ : Type} [DecidableEq κ]

/-- The stock with one piece of the key less. -/
def take (stock : κ → Nat) (key : κ) : κ → Nat :=
  Function.update stock key (stock key - 1)

/-- For each demand whether it is served. -/
def serve (stock : κ → Nat) : List κ → List Bool
  | [] => []
  | key :: demands => decide (0 < stock key) :: serve (take stock key) demands

variable {stock stock' : κ → Nat} {key : κ}

theorem take_self (stock : κ → Nat) (key : κ) : take stock key key = stock key - 1 :=
  Function.update_self ..

theorem take_of_ne (stock : κ → Nat) {key other : κ} (h : other ≠ key) :
    take stock key other = stock other :=
  Function.update_of_ne h ..

/-- What is not there is not taken. -/
theorem take_of_eq_zero (h : stock key = 0) : take stock key = stock := by
  funext other
  by_cases hne : other = key
  · rw [hne, take_self, h]
  · exact take_of_ne stock hne

theorem length_serve (stock : κ → Nat) (demands : List κ) :
    (serve stock demands).length = demands.length := by
  induction demands generalizing stock with
  | nil => rfl
  | cons key demands ih => rw [serve, List.length_cons, ih, List.length_cons]

variable {β : Type} {queues : κ → List β}

/-- Each demand takes the first piece of its key that is left. -/
def deal (queues : κ → List β) : List κ → List (Option β)
  | [] => []
  | key :: demands =>
    (queues key).head? :: deal (Function.update queues key (queues key).tail) demands

theorem length_deal (queues : κ → List β) (demands : List κ) :
    (deal queues demands).length = demands.length := by
  induction demands generalizing queues with
  | nil => rfl
  | cons key demands ih => rw [deal, List.length_cons, ih, List.length_cons]

/-- A stock is served as pieces that are all alike. -/
theorem serve_eq_deal (stock : κ → Nat) (demands : List κ) :
    serve stock demands =
      (deal (fun key => List.replicate (stock key) ()) demands).map Option.isSome := by
  induction demands generalizing stock with
  | nil => rfl
  | cons key demands ih =>
    have hrest : (fun other => List.replicate (take stock key other) ()) =
        Function.update (fun other => List.replicate (stock other) ()) key
          (List.replicate (stock key) ()).tail := by
      funext other
      by_cases hne : other = key
      · subst hne
        rw [take_self, Function.update_self, List.tail_replicate]
      · rw [take_of_ne _ hne, Function.update_of_ne hne]
    rw [serve, deal, List.map_cons, ih, hrest]
    congr 1
    cases hstock : stock key with
    | zero => rfl
    | succ n => simp [List.replicate_succ]

variable [BEq κ] [LawfulBEq κ]

/-- The demands of a key are served as often as there are pieces of it. -/
theorem count_served (stock : κ → Nat) (demands : List κ) (key : κ) :
    (demands.zip (serve stock demands)).count (key, true) =
      min (demands.count key) (stock key) := by
  induction demands generalizing stock with
  | nil => simp [serve]
  | cons first demands ih =>
    rw [serve, List.zip_cons_cons, List.count_cons, ih, List.count_cons]
    by_cases hkey : first = key
    · subst hkey
      rw [take_self]
      by_cases hstock : 0 < stock first
      · simp [hstock]
        omega
      · simp [hstock]
        omega
    · rw [take_of_ne _ (Ne.symm hkey)]
      simp [hkey]

/-- What is served depends on the stock of each key up to the number of its demands. -/
theorem serve_eq_iff (demands : List κ) : serve stock demands = serve stock' demands ↔
    ∀ key ∈ demands,
      min (demands.count key) (stock key) = min (demands.count key) (stock' key) := by
  constructor
  · intro h key _
    rw [← count_served, h, count_served]
  · intro h
    induction demands generalizing stock stock' with
    | nil => rfl
    | cons first demands ih =>
      have hfirst := h first List.mem_cons_self
      rw [List.count_cons_self] at hfirst
      have hrest : serve (take stock first) demands = serve (take stock' first) demands := by
        refine ih fun key hkey => ?_
        by_cases hne : key = first
        · subst hne
          rw [take_self, take_self]
          omega
        · have hother := h key (List.mem_cons_of_mem _ hkey)
          rw [List.count_cons_of_ne (Ne.symm hne)] at hother
          rw [take_of_ne _ hne, take_of_ne _ hne, hother]
      have hserved : decide (0 < stock first) = decide (0 < stock' first) :=
        decide_eq_decide.mpr (by omega)
      rw [serve, serve, hrest, hserved]

/-- Every demand is served where there are as many pieces of its key. -/
theorem serve_all_iff (demands : List κ) : (∀ served ∈ serve stock demands, served = true) ↔
    ∀ key, demands.count key ≤ stock key := by
  induction demands generalizing stock with
  | nil => simp [serve]
  | cons first demands ih =>
    rw [serve, List.forall_mem_cons, ih, decide_eq_true_iff]
    constructor
    · rintro ⟨hstock, hrest⟩ key
      have hkey := hrest key
      by_cases hne : key = first
      · subst hne
        rw [take_self] at hkey
        rw [List.count_cons_self]
        omega
      · rw [take_of_ne _ hne] at hkey
        rwa [List.count_cons_of_ne (Ne.symm hne)]
    · intro h
      have hfirst := h first
      rw [List.count_cons_self] at hfirst
      refine ⟨by omega, fun key => ?_⟩
      by_cases hne : key = first
      · subst hne
        rw [take_self]
        omega
      · rw [take_of_ne _ hne, ← List.count_cons_of_ne (Ne.symm hne)]
        exact h key

/-- The demands of a key take its pieces in their order. -/
theorem dealt_of_key (queues : κ → List β) (demands : List κ) (key : κ) :
    ((demands.zip (deal queues demands)).filter fun d => d.1 = key).map Prod.snd =
      (List.range (demands.count key)).map fun k => (queues key)[k]? := by
  induction demands generalizing queues with
  | nil => rfl
  | cons first demands ih =>
    rw [deal, List.zip_cons_cons, List.count_cons]
    by_cases hkey : first = key
    · subst hkey
      rw [List.filter_cons_of_pos (by simp), List.map_cons, ih, Function.update_self, beq_self_eq_true,
        if_pos rfl, List.range_succ_eq_map, List.map_cons, List.map_map, List.head?_eq_getElem?]
      congr 1
      refine List.map_congr_left fun k _ => ?_
      rw [List.getElem?_tail]
      rfl
    · rw [List.filter_cons_of_neg (by simpa using hkey), ih, Function.update_of_ne (Ne.symm hkey)]
      simp [hkey]

/-- The first demands of a key are served, as many as there are pieces of it. -/
theorem served_of_key (stock : κ → Nat) (demands : List κ) (key : κ) :
    ((demands.zip (serve stock demands)).filter fun d => d.1 = key).map Prod.snd =
      (List.range (demands.count key)).map fun k => decide (k < stock key) := by
  have hdealt := congrArg (List.map Option.isSome)
    (dealt_of_key (fun key => List.replicate (stock key) ()) demands key)
  rw [List.map_map, List.map_map] at hdealt
  rw [serve_eq_deal, List.zip_map_right, List.filter_map, List.map_map]
  refine Eq.trans ?_ (hdealt.trans (List.map_congr_left fun k _ => ?_))
  · rfl
  · by_cases hk : k < stock key <;> simp [List.getElem?_replicate, hk]

end Apm.Lib
