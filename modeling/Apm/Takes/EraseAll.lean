import Apm.Takes.VaultCalls

/-!
# Erasures and saves, interleaved

Once all calls have returned, nothing is stored of a save that began before an erasure, and a
save that began after the last erasure is stored, unless an older save was still in the file
store, or deleting there, when the new one wrote its take.
-/

namespace Apm.Takes

open Apm.Lib

set_option autoImplicit false

abbrev VaultLoop : Type := Loop Thrown Unit Vault VaultCall Unit

/-- No call has been made, and nothing is stored. -/
def idleVault : VaultLoop := ⟨Device.fresh .none, []⟩

/-- When a new save writes its latest take, the older saves that are under way for the same
files spare them. -/
def SparesTheNew (w : VaultLoop) (_ : LoopAction Unit VaultCall) (w' : VaultLoop) : Prop :=
  ∀ n ∈ w'.state.ghost.begun, New w'.state n → Landed w'.state n → ¬ Landed w.state n →
    Guarded w'.state n

variable {aes : AesGcm} {actions : List (LoopAction Unit VaultCall)} {w : VaultLoop}

theorem core_fresh (aes : AesGcm) : Core aes (Device.fresh .none) where
  ready _ _ := rfl
  cached _ hkey := by cases hkey
  made _ hs := by cases hs
  epoch _ hs := by cases hs
  erased := Nat.le_refl _
  erasing _ hj := by cases hj
  wiping _ hj := by cases hj
  quiet _ _ _ := rfl
  saving _ hs := by cases hs
  entered _ hs := by cases hs
  left _ hs := by cases hs
  writes _ hx := by cases hx
  origin _ _ hfind := by cases hfind
  stale _ _ hfind := by cases hfind
  kept _ _ hlanded := by cases hlanded

/-- In every run whose steps meet the condition the calls keep the contract. -/
theorem vault_sound (hrun : run (loopStep (vaultProgram aes)) idleVault actions = some w)
    (hspares : Along (loopStep (vaultProgram aes)) SparesTheNew idleVault actions) :
    Loop.Sound (vaultContract aes) Returned w := by
  refine Loop.Sound.run (vaultProgram_keeps aes)
    (.idle ⟨core_fresh aes, fun _ _ hlanded => by cases hlanded⟩ fun k => Nat.zero_le k) ?_ hrun
  refine along_of_invariant (I := fun _ => True) (fun u a u' _ hspare _ => ⟨?_, trivial⟩) trivial hspares
  cases a with
  | call c => exact hspare
  | land k answer => exact fun _ _ _ => hspare

section settled

variable (hsound : Loop.Sound (vaultContract aes) Returned w)
  (hdone : ∀ call ∈ w.calls, call.2.returned = true)

include hsound hdone

theorem returned_of_getElem {k : Nat} {c : VaultCall} {p : OnDevice Unit Save Watch Unit}
    (hcall : w.calls[k]? = some (c, p)) : Returned k c (.ok ()) w.state := by
  obtain ⟨_, rfl⟩ := Async.exists_of_returned (hdone (c, p) (List.mem_of_getElem? hcall))
  exact hsound.result hcall

theorem returned_of_lt {k : Nat} (hk : k < w.state.ghost.made) :
    ∃ c p, w.calls[k]? = some (c, p) ∧ Returned k c (.ok ()) w.state := by
  have hlt : k < w.calls.length := Nat.lt_of_lt_of_le hk (hsound.unborn _ (Nat.le_refl _))
  exact ⟨_, _, List.getElem?_eq_getElem hlt,
    returned_of_getElem hsound hdone (List.getElem?_eq_getElem hlt)⟩

theorem completed_of_lt {k : Nat} (hk : k < w.state.ghost.made) : Completed k w.state.ghost := by
  obtain ⟨c, _, -, hreturned⟩ := returned_of_lt hsound hdone hk
  cases c with
  | saveTake skill bytes => exact hreturned.1
  | eraseAll => exact hreturned.1

/-- No save and no erasure is under way. -/
theorem settled : w.state.ghost.saving = [] ∧ w.state.ghost.wiping = [] := by
  have hcore := hsound.inv.1
  constructor
  · refine List.eq_nil_iff_forall_not_mem.mpr fun s hs => ?_
    exact (completed_of_lt hsound hdone (hcore.made s (hcore.saving s hs))).1 s hs rfl
  · refine List.eq_nil_iff_forall_not_mem.mpr fun j hj => ?_
    exact (completed_of_lt hsound hdone (hcore.wiping j hj)).2.2 hj

/-- Nothing that is stored began before the last erasure. -/
theorem stored_epoch {name : DartString} {take : Take Save} (hfind : w.state.find name = some take) :
    take.origin.epoch = w.state.epoch := by
  have hcore := hsound.inv.1
  obtain ⟨hsaving, hwiping⟩ := settled hsound hdone
  refine Nat.le_antisymm (hcore.epoch _ (hcore.origin name take hfind).1).1 (Nat.le_of_not_lt fun hold => ?_)
  rcases hcore.stale name take hfind hold with hmem | hne
  · rw [hsaving] at hmem
    cases hmem
  · exact hne hwiping

/-- The last erasure is a call. -/
theorem erased_le {k : Nat} (hlast : ∀ j p, w.calls[j]? = some (.eraseAll, p) → j < k) :
    w.state.ghost.erased ≤ k := by
  cases herased : w.state.ghost.erased with
  | zero => exact Nat.zero_le k
  | succ e =>
    have hlt : e < w.state.ghost.made := by
      have hle := hsound.inv.1.erased
      rw [herased] at hle
      exact hle
    obtain ⟨c, p, hcall, hreturned⟩ := returned_of_lt hsound hdone hlt
    cases c with
    | saveTake skill bytes => exact absurd herased hreturned.2.1
    | eraseAll => exact hlast e p hcall

end settled

/-- **Erasures and saves.** However saves and erasures interleave, when all have returned and no
older save disturbed a new one: what is stored was saved by a call after every `eraseAll`; and a
save that began when no erasure was under way, with none called later, is stored as the latest
take of its skill, readable with the stored key, unless a save like it has overwritten it. -/
theorem erased_and_kept
    (hrun : run (loopStep (vaultProgram aes)) idleVault actions = some w)
    (hspares : Along (loopStep (vaultProgram aes)) SparesTheNew idleVault actions)
    (hdone : ∀ call ∈ w.calls, call.2.returned = true) :
    (∀ name take, w.state.find name = some take →
      ∀ j p, w.calls[j]? = some (.eraseAll, p) → j < take.origin.id) ∧
    ∀ k skill bytes p, w.calls[k]? = some (.saveTake skill bytes, p) →
      ∃ save ∈ w.state.ghost.begun, save.id = k ∧ save.skill = skill ∧ save.bytes = bytes ∧
        (save.quiet = true → (∀ j p, w.calls[j]? = some (.eraseAll, p) → j < k) →
          KeptLatest aes w.state save) := by
  have hsound := vault_sound hrun hspares
  have hcore := hsound.inv.1
  constructor
  · intro name take hfind j p hcall
    have herased : j < w.state.ghost.erased := (returned_of_getElem hsound hdone hcall).2
    have hbegun := (hcore.origin name take hfind).1
    exact Nat.lt_of_lt_of_le herased ((hcore.epoch _ hbegun).2.mp (stored_epoch hsound hdone hfind))
  · intro k skill bytes p hcall
    obtain ⟨-, -, save, hbegun, rfl, hskill, hbytes, hlanded⟩ :=
      returned_of_getElem hsound hdone hcall
    refine ⟨save, hbegun, rfl, hskill, hbytes, fun hquiet hlast => ?_⟩
    have hnew : New w.state save := ⟨hquiet, (hcore.epoch save hbegun).2.mpr (erased_le hsound hdone hlast)⟩
    exact hcore.kept save hnew (hlanded hnew)

/-- The call lands this often. -/
def lands (k times : Nat) : List (LoopAction Unit VaultCall) := List.replicate times (.land k ())

/-- A save, an erasure and another save, one after the other. -/
def saveEraseSave : List (LoopAction Unit VaultCall) :=
  [.call (.saveTake [97] [1])] ++ lands 0 17 ++ [.call .eraseAll] ++ lands 1 8 ++
    [.call (.saveTake [97] [2])] ++ lands 2 16

instance (d : Vault) (s : Save) : Decidable (New d s) := inferInstanceAs (Decidable (_ ∧ _))
instance (d : Vault) (s : Save) : Decidable (Landed d s) := inferInstanceAs (Decidable (_ ∈ _))
instance (d : Vault) (s : Save) : Decidable (Spares d s) := inferInstanceAs (Decidable (_ ∨ _))
instance (d : Vault) (n : Save) : Decidable (Guarded d n) :=
  inferInstanceAs (Decidable (∀ s ∈ d.ghost.saving, _ → ¬ New d s → Spares d s))
instance (w : VaultLoop) (a : LoopAction Unit VaultCall) (w' : VaultLoop) :
    Decidable (SparesTheNew w a w') :=
  inferInstanceAs (Decidable (∀ n ∈ w'.state.ghost.begun, _ → _ → _ → _))

theorem erased_and_kept_save_erase_save :
    ∃ w, run (loopStep (vaultProgram .tagged)) idleVault saveEraseSave = some w ∧
      (∀ name take, w.state.find name = some take → 1 < take.origin.id) ∧
      ∃ save ∈ w.state.ghost.begun, save.id = 2 ∧ save.bytes = [2] ∧ KeptLatest .tagged w.state save := by
  obtain ⟨w, hrun, hend⟩ := exists_run_of_check (loopStep (vaultProgram .tagged)) idleVault saveEraseSave
    (fun w => w.calls.all (·.2.returned) && w.state.ghost.begun.all (·.quiet) &&
      w.calls.map Prod.fst = [.saveTake [97] [1], .eraseAll, .saveTake [97] [2]]) (by decide +kernel)
  simp only [Bool.and_eq_true, List.all_eq_true, decide_eq_true_iff] at hend
  obtain ⟨⟨hdone, hquiet⟩, hcalls⟩ := hend
  have hcall (j : Nat) : w.calls[j]?.map Prod.fst =
      [VaultCall.saveTake [97] [1], .eraseAll, .saveTake [97] [2]][j]? := by
    rw [← hcalls, List.getElem?_map]
  obtain ⟨⟨_, erasure⟩, herasure, rfl⟩ := Option.map_eq_some_iff.mp (hcall 1)
  obtain ⟨⟨_, second⟩, hsecond, rfl⟩ := Option.map_eq_some_iff.mp (hcall 2)
  have hlast (j : Nat) (p : OnDevice Unit Save Watch Unit) (hj : w.calls[j]? = some (.eraseAll, p)) :
      j < 2 := by
    have hkind := hcall j
    rw [hj] at hkind
    match j with
    | 0 => exact Nat.zero_lt_two
    | 1 => exact Nat.one_lt_two
    | 2 => cases hkind
    | _ + 3 => cases hkind
  obtain ⟨hgone, hkept⟩ := erased_and_kept hrun (by decide +kernel) hdone
  obtain ⟨save, hbegun, hid, -, hbytes, hsaved⟩ := hkept 2 _ _ _ hsecond
  exact ⟨w, hrun, fun name take hfind => hgone name take hfind 1 _ herasure, save, hbegun, hid, hbytes,
    hsaved (hquiet save hbegun) hlast⟩

/-- The first save has written its takes and is about to return when the erasure is called. The
second save begins after the erasure and returns; then the first deletes what it finds. -/
def lateUndo : List (LoopAction Unit VaultCall) :=
  [.call (.saveTake [97] [1])] ++ lands 0 16 ++ [.call .eraseAll] ++ lands 1 8 ++
    [.call (.saveTake [97] [2])] ++ lands 2 16 ++ lands 0 7

theorem late_undo_deletes_the_new :
    ∃ w, run (loopStep (vaultProgram .tagged)) idleVault lateUndo = some w ∧
      (∀ call ∈ w.calls, call.2.returned = true) ∧
      w.calls.map Prod.fst = [.saveTake [97] [1], .eraseAll, .saveTake [97] [2]] ∧
      ∃ save ∈ w.state.ghost.begun, save.id = 2 ∧ save.quiet = true ∧
        ¬ KeptLatest .tagged w.state save := by
  obtain ⟨w, hrun, hend⟩ := exists_run_of_check (loopStep (vaultProgram .tagged)) idleVault lateUndo
    (fun w => w.calls.all (·.2.returned) &&
      w.calls.map Prod.fst = [.saveTake [97] [1], .eraseAll, .saveTake [97] [2]] &&
      decide (⟨2, [97], [2], 1, true⟩ ∈ w.state.ghost.begun) && w.state.find (latestName [97]) = none)
    (by decide +kernel)
  simp only [Bool.and_eq_true, List.all_eq_true, decide_eq_true_iff] at hend
  obtain ⟨⟨⟨hdone, hcalls⟩, hbegun⟩, hnone⟩ := hend
  refine ⟨w, hrun, hdone, hcalls, ⟨2, [97], [2], 1, true⟩, hbegun, rfl, rfl, ?_⟩
  rintro ⟨take, key, hfind, -⟩
  rw [hnone] at hfind
  cases hfind

end Apm.Takes
