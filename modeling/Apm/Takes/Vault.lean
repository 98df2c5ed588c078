import Apm.Lib.EventLoop
import Apm.Takes.Alone

/-!
# Saves and erasures of the vault

The encrypted store over the files, with any number of `saveTake` and `eraseAll` calls. What
is known of the calls is recorded beside the state, where no code reads it. The contract
says what each call may do to the others: it writes and deletes only in its own name, it
touches the key only while it holds the lock, and nothing changes the files' epoch, the
directory or the key while no erasure is under way.
-/

namespace Apm.Takes

open Apm.Lib

set_option autoImplicit false

/-- A call of `saveTake`, as it was made. -/
structure Save where
  /-- the number of the call -/
  id : Nat
  skill : DartString
  bytes : Bytes
  /-- `_epoch` at the call -/
  epoch : Nat
  /-- no `eraseAll` was under way at the call -/
  quiet : Bool
  deriving DecidableEq, Repr

/-- What is recorded of the calls. -/
structure Watch where
  /-- how many calls have been made -/
  made : Nat
  /-- how many had been made after the call of the last `eraseAll` -/
  erased : Nat
  /-- the `eraseAll` calls that have not completed -/
  erasing : List Nat
  /-- the `eraseAll` calls that have not deleted the files yet -/
  wiping : List Nat
  begun : List Save
  /-- the saves that have not completed -/
  saving : List Save
  /-- the saves that have called the file store -/
  entered : List Save
  /-- the saves for which the file store has returned -/
  left : List Save

abbrev Vault : Type := Device Save Watch

def Watch.none : Watch := ⟨0, 0, [], [], [], [], [], []⟩

def Device.watch (record : Watch → Watch) (d : Vault) : Vault := { d with ghost := record d.ghost }

/-- The store, with a record of who has called `saveTake` and whose `eraseAll` is done. -/
def watched {ι : Type} (caller : Nat) (inner : VoiceTakeStore ι Save Watch) :
    VoiceTakeStore ι Save Watch :=
  { inner with
    saveTake := fun skill take => do
      Async.modify (Device.watch fun g => { g with entered := take.origin :: g.entered })
      inner.saveTake skill take
      Async.modify (Device.watch fun g => { g with left := take.origin :: g.left })
    eraseAll := do
      inner.eraseAll
      Async.modify (Device.watch fun g => { g with wiping := g.wiping.filter (· ≠ caller) }) }

/-- `EncryptedVoiceTakeStore` over `FileVoiceTakeStore`, where no operation fails. -/
def vaultStore (aes : AesGcm) (caller : Nat) : VoiceTakeStore Unit Save Watch :=
  encryptedVoiceTakeStore aes caller (watched caller (fileVoiceTakeStore fun _ => .none))

inductive VaultCall where
  | saveTake (skill : DartString) (bytes : Bytes)
  | eraseAll
  deriving DecidableEq, Repr

/-- The program of the call with the number `k`. -/
def vaultProgram (aes : AesGcm) (k : Nat) : VaultCall → OnDevice Unit Save Watch Unit
  | .saveTake skill bytes => do
    let d ← Async.get
    let save : Save := ⟨k, skill, bytes, d.epoch, d.ghost.erasing.isEmpty⟩
    Async.modify (Device.watch fun g =>
      { g with made := k + 1, begun := save :: g.begun, saving := save :: g.saving })
    (vaultStore aes k).saveTake skill ⟨bytes, save⟩
    Async.modify (Device.watch fun g => { g with saving := g.saving.filter (· ≠ save) })
  | .eraseAll => do
    Async.modify (Device.watch fun g =>
      { g with made := k + 1, erased := k + 1, erasing := k :: g.erasing, wiping := k :: g.wiping })
    (vaultStore aes k).eraseAll
    Async.modify (Device.watch fun g => { g with erasing := g.erasing.filter (· ≠ k) })

/-! ## What holds of the vault -/

/-- The save began after every `eraseAll` that has been called so far had completed. -/
def New (d : Vault) (s : Save) : Prop := s.quiet = true ∧ s.epoch = d.epoch

/-- The save has written its latest take. -/
def Landed (d : Vault) (s : Save) : Prop := (latestName s.skill, s) ∈ d.writes

/-- The save `s`, which is under way, will not write the latest take of its skill any more, and
will not delete it: it aborts at its check of the epoch, or it has nothing left to do. -/
def Spares (d : Vault) (s : Save) : Prop :=
  s.epoch < d.epoch ∧ s ∉ d.ghost.entered ∨ s.epoch = d.epoch ∧ s ∈ d.ghost.left

/-- Every older save that is under way for the files of `n` spares them. -/
def Guarded (d : Vault) (n : Save) : Prop :=
  ∀ s ∈ d.ghost.saving, safeStorageKey s.skill = safeStorageKey n.skill → ¬ New d s → Spares d s

/-- After its latest take, `m` has written its own to the same file. -/
def LandedAfter (d : Vault) (n m : Save) : Prop :=
  ∃ before after, d.writes = before ++ (latestName n.skill, n) :: after ∧
    (latestName n.skill, m) ∈ after

/-- The latest take of the skill is that of the save, or of a new save that has overwritten it,
and the stored key decrypts it. -/
def KeptLatest (aes : AesGcm) (d : Vault) (n : Save) : Prop :=
  ∃ take key, d.find (latestName n.skill) = some take ∧ d.keyStorage = some key ∧
    aes.decrypt key (EncryptedVoiceTakeStore.aad n.skill) take.bytes = some take.origin.bytes ∧
    New d take.origin ∧ (take.origin = n ∨ LandedAfter d n take.origin)

structure Core (aes : AesGcm) (d : Vault) : Prop where
  ready : FileVoiceTakeStore.Ready d
  cached : ∀ key, d.cachedKey = some key → d.keyStorage = some key
  made : ∀ s ∈ d.ghost.begun, s.id < d.ghost.made
  epoch : ∀ s ∈ d.ghost.begun, s.epoch ≤ d.epoch ∧ (s.epoch = d.epoch ↔ d.ghost.erased ≤ s.id)
  erased : d.ghost.erased ≤ d.ghost.made
  erasing : ∀ j ∈ d.ghost.erasing, j < d.ghost.made
  wiping : ∀ j ∈ d.ghost.wiping, j < d.ghost.made
  quiet : ∀ s ∈ d.ghost.begun, New d s → d.ghost.erasing = []
  saving : ∀ s ∈ d.ghost.saving, s ∈ d.ghost.begun
  entered : ∀ s ∈ d.ghost.entered, s ∈ d.ghost.begun
  left : ∀ s ∈ d.ghost.left, s ∈ d.ghost.begun
  writes : ∀ x ∈ d.writes, x.2 ∈ d.ghost.begun
  origin : ∀ name take, d.find name = some take → take.origin ∈ d.ghost.begun ∧
    (name = baselineName take.origin.skill ∨ name = latestName take.origin.skill)
  /-- what an erasure should have deleted is on its way out -/
  stale : ∀ name take, d.find name = some take → take.origin.epoch < d.epoch →
    take.origin ∈ d.ghost.saving ∨ d.ghost.wiping ≠ []
  kept : ∀ n, New d n → Landed d n → KeptLatest aes d n

/-- What the others leave to the call `k`. -/
structure Rely (k : Nat) (d t : Vault) : Prop where
  epoch : d.epoch ≤ t.epoch
  begun : ∀ s ∈ d.ghost.begun, s ∈ t.ghost.begun
  erased : d.ghost.erased ≤ t.ghost.erased
  notErased : t.ghost.erased = k + 1 → d.ghost.erased = k + 1
  writes : ∀ x ∈ d.writes, x ∈ t.writes
  saving : ∀ s, s.id = k → (s ∈ t.ghost.saving ↔ s ∈ d.ghost.saving)
  entered : ∀ s, s.id = k → (s ∈ t.ghost.entered ↔ s ∈ d.ghost.entered)
  left : ∀ s, s.id = k → (s ∈ t.ghost.left ↔ s ∈ d.ghost.left)
  erasing : k ∈ t.ghost.erasing ↔ k ∈ d.ghost.erasing
  wiping : k ∈ t.ghost.wiping ↔ k ∈ d.ghost.wiping
  /-- nobody writes in the name of the call -/
  files : ∀ name take, t.find name = some take → take.origin.id = k → d.find name = some take
  /-- nobody touches the key while the call holds the lock -/
  held : d.keyLock.Holds k →
    t.keyLock.Holds k ∧ t.keyStorage = d.keyStorage ∧ t.cachedKey = d.cachedKey
  /-- while no erasure is under way -/
  calm : d.ghost.erasing = [] → t.epoch = d.epoch →
    t.ghost.erasing = [] ∧ t.fileEpoch = d.fileEpoch ∧
      ∀ key, d.keyStorage = some key → t.keyStorage = some key

theorem Rely.refl (k : Nat) (d : Vault) : Rely k d d where
  epoch := Nat.le_refl _
  begun _ h := h
  erased := Nat.le_refl _
  notErased h := h
  writes _ h := h
  saving _ _ := Iff.rfl
  entered _ _ := Iff.rfl
  left _ _ := Iff.rfl
  erasing := Iff.rfl
  wiping := Iff.rfl
  files _ _ h _ := h
  held h := ⟨h, rfl, rfl⟩
  calm h _ := ⟨h, rfl, fun _ hkey => hkey⟩

theorem Rely.trans {k : Nat} {d t u : Vault} (h : Rely k d t) (h' : Rely k t u) : Rely k d u where
  epoch := Nat.le_trans h.epoch h'.epoch
  begun s hs := h'.begun s (h.begun s hs)
  erased := Nat.le_trans h.erased h'.erased
  notErased hu := h.notErased (h'.notErased hu)
  writes x hx := h'.writes x (h.writes x hx)
  saving s hs := (h'.saving s hs).trans (h.saving s hs)
  entered s hs := (h'.entered s hs).trans (h.entered s hs)
  left s hs := (h'.left s hs).trans (h.left s hs)
  erasing := h'.erasing.trans h.erasing
  wiping := h'.wiping.trans h.wiping
  files name take hu hk := h.files name take (h'.files name take hu hk) hk
  held hd := by
    obtain ⟨ht, hstorage, hcached⟩ := h.held hd
    obtain ⟨hu, hstorage', hcached'⟩ := h'.held ht
    exact ⟨hu, hstorage'.trans hstorage, hcached'.trans hcached⟩
  calm hd hepoch := by
    have ht : t.epoch = d.epoch := Nat.le_antisymm (hepoch ▸ h'.epoch) h.epoch
    obtain ⟨herasing, hfile, hkey⟩ := h.calm hd ht
    obtain ⟨herasing', hfile', hkey'⟩ := h'.calm herasing (hepoch.trans ht.symm)
    exact ⟨herasing', hfile'.trans hfile, fun key hk => hkey' key (hkey key hk)⟩

/-- What the call `k` has done in a step that began in `d`. -/
structure During (aes : AesGcm) (k : Nat) (d t : Vault) : Prop where
  core : Core aes t
  guarded : ∀ n, New t n → Landed d n → Guarded t n
  rely : ∀ j, k ≠ j → Rely j d t
  made : t.ghost.made ≤ max d.ghost.made (k + 1)

/-- Of a step in which a new save writes its latest take it is assumed that the older saves
spare it. -/
def vaultContract (aes : AesGcm) : Contract Vault VaultCall where
  inv d := Core aes d ∧ ∀ n, New d n → Landed d n → Guarded d n
  rely := Rely
  guar k _ := During aes k
  cond _ _ d t := ∀ n ∈ t.ghost.begun, New t n → Landed t n → ¬ Landed d n → Guarded t n
  unborn k d := d.ghost.made ≤ k
  rely_refl := Rely.refl
  rely_trans := Rely.trans
  guar_refl h := ⟨h.1, h.2, fun j _ => .refl j _, Nat.le_max_left _ _⟩
  inv_of_guar := by
    intro k c d t _ hduring hcond
    refine ⟨hduring.core, fun n hnew hlanded => ?_⟩
    by_cases hbefore : Landed d n
    · exact hduring.guarded n hnew hbefore
    · exact hcond n (hduring.core.writes _ hlanded) hnew hlanded hbefore
  rely_of_guar hjk _ _ hduring _ := hduring.rely _ hjk
  unborn_of_guar hjk hduring hunborn := by
    have hmade := hduring.made
    exact Nat.le_trans hmade (Nat.max_le.mpr ⟨hunborn, hjk⟩)

/-- A step begins. -/
theorem During.start {aes : AesGcm} {k : Nat} {d : Vault} (h : (vaultContract aes).inv d) :
    During aes k d d := (vaultContract aes).guar_refl (c := .eraseAll) h

theorem Core.not_landed {aes : AesGcm} {t : Vault} (h : Core aes t) {j : Nat}
    (hj : j ∈ t.ghost.erasing) {n : Save} (hnew : New t n) : ¬ Landed t n := by
  intro hlanded
  have hcalm := h.quiet n (h.writes _ hlanded) hnew
  rw [hcalm] at hj
  cases hj

theorem KeptLatest.frame {aes : AesGcm} {t u : Vault} {n : Save} (hkept : KeptLatest aes t n)
    (hfind : u.find (latestName n.skill) = t.find (latestName n.skill))
    (hkey : u.keyStorage = t.keyStorage) (hepoch : u.epoch = t.epoch)
    (hwrites : ∃ more, u.writes = t.writes ++ more) : KeptLatest aes u n := by
  obtain ⟨take, key, htake, hstored, hclear, ⟨hquiet, hnew⟩, hlast⟩ := hkept
  refine ⟨take, key, hfind.trans htake, hkey.trans hstored, hclear, ⟨hquiet, hnew.trans hepoch.symm⟩,
    hlast.imp id ?_⟩
  rintro ⟨before, after, hsplit, hafter⟩
  obtain ⟨more, hmore⟩ := hwrites
  exact ⟨before, after ++ more, by rw [hmore, hsplit]; simp, List.mem_append_left more hafter⟩

/-! ## What a call may do -/

namespace During

variable {aes : AesGcm} {k : Nat} {d t u : Vault} {n : Save}

theorem move (h : During aes k d t) (hcore : Core aes u)
    (hguarded : ∀ n, New u n → Landed d n → Guarded u n) (hrely : ∀ j, k ≠ j → Rely j t u)
    (hmade : u.ghost.made ≤ max t.ghost.made (k + 1)) : During aes k d u where
  core := hcore
  guarded := hguarded
  rely j hj := (h.rely j hj).trans (hrely j hj)
  made := Nat.le_trans hmade (Nat.max_le.mpr ⟨h.made, Nat.le_max_right _ _⟩)

theorem opened (h : During aes k d t) : During aes k d { t with dirOpened := true } :=
  h.move { h.core with } h.guarded (fun j _ => { Rely.refl j t with }) (Nat.le_max_left _ _)

theorem drew (h : During aes k d t) : During aes k d { t with drawn := t.drawn + 1 } :=
  h.move { h.core with } h.guarded (fun j _ => { Rely.refl j t with }) (Nat.le_max_left _ _)

theorem createDir (h : During aes k d t) : During aes k d { t with directory := true } :=
  h.move { h.core with ready := FileVoiceTakeStore.ready_of_directory rfl } h.guarded
    (fun j _ => { Rely.refl j t with }) (Nat.le_max_left _ _)

theorem enterLock (h : During aes k d t) :
    During aes k d { t with keyLock := t.keyLock.enter k } :=
  h.move { h.core with } h.guarded
    (fun j _ => { Rely.refl j t with held := fun hj => ⟨hj.enter, rfl, rfl⟩ }) (Nat.le_max_left _ _)

theorem not_calm (herasing : k ∈ t.ghost.erasing) {P : Prop} : t.ghost.erasing = [] → P := by
  intro hnone
  rw [hnone] at herasing
  cases herasing

/-! The key, under the lock. -/

section key

variable (hk : t.keyLock.Holds k)

include hk

theorem held_of_ne {j : Nat} {P : Prop} (hj : k ≠ j) : t.keyLock.Holds j → P :=
  fun hheld => absurd (hk.unique hheld) hj

theorem leaveLock (h : During aes k d t) : During aes k d { t with keyLock := t.keyLock.leave } :=
  h.move { h.core with } h.guarded
    (fun j hj => { Rely.refl j t with held := held_of_ne hk hj }) (Nat.le_max_left _ _)

theorem cacheKey (h : During aes k d t) (cached : Option Bytes)
    (hcached : ∀ key, cached = some key → t.keyStorage = some key) :
    During aes k d { t with cachedKey := cached } :=
  h.move { h.core with cached := hcached } h.guarded
    (fun j hj => { Rely.refl j t with held := held_of_ne hk hj }) (Nat.le_max_left _ _)

theorem storeKey (h : During aes k d t) (hnone : t.keyStorage = none) (key : Bytes) :
    During aes k d { t with keyStorage := some key } := by
  have hcached : ∀ key', t.cachedKey = some key' → some key = some key' := by
    intro key' hkey'
    rw [h.core.cached key' hkey'] at hnone
    cases hnone
  have hkept : ∀ n, New t n → Landed t n → KeptLatest aes { t with keyStorage := some key } n := by
    intro n hnew hlanded
    obtain ⟨_, key', _, hkey', _⟩ := h.core.kept n hnew hlanded
    rw [hnone] at hkey'
    cases hkey'
  refine h.move { h.core with cached := hcached, kept := hkept } h.guarded
    (fun j hj => { Rely.refl j t with held := held_of_ne hk hj, calm := ?_ }) (Nat.le_max_left _ _)
  intro herasing _
  refine ⟨herasing, rfl, fun key' hkey' => ?_⟩
  rw [hnone] at hkey'
  cases hkey'

theorem deleteKey (h : During aes k d t) (herasing : k ∈ t.ghost.erasing)
    (hcached : t.cachedKey = none) : During aes k d { t with keyStorage := none } := by
  have hcached' : ∀ key, t.cachedKey = some key → none = some key := by
    intro key hkey
    rw [hcached] at hkey
    cases hkey
  exact h.move { h.core with
      cached := hcached'
      kept := fun n hnew hlanded => absurd hlanded (h.core.not_landed herasing hnew) }
    h.guarded (fun j hj => { Rely.refl j t with
      held := held_of_ne hk hj
      calm := not_calm herasing }) (Nat.le_max_left _ _)

end key

/-! The files, under an erasure. -/

section erasure

variable (herasing : k ∈ t.ghost.erasing)

include herasing

theorem bumpFileEpoch (h : During aes k d t) :
    During aes k d { t with fileEpoch := t.fileEpoch + 1 } :=
  h.move { h.core with } h.guarded
    (fun j _ => { Rely.refl j t with calm := not_calm herasing }) (Nat.le_max_left _ _)

theorem deleteDir (h : During aes k d t) :
    During aes k d { t with directory := false, entries := ∅ } := by
  refine h.move { h.core with
      ready := fun _ _ => rfl
      origin := fun _ _ hfind => by cases hfind
      stale := fun _ _ hfind => by cases hfind
      kept := fun n hnew hlanded => absurd hlanded (h.core.not_landed herasing hnew) }
    h.guarded (fun j _ => { Rely.refl j t with files := ?_, calm := not_calm herasing })
    (Nat.le_max_left _ _)
  intro name take hfind
  cases hfind

end erasure

/-- The call has deleted the files, or has found none. -/
theorem wiped (h : During aes k d t) (hnone : ∀ name, t.find name = none) :
    During aes k d (t.watch fun g => { g with wiping := g.wiping.filter (· ≠ k) }) := by
  have hempty : ∀ {P : Prop} name take, t.find name = some take → P := by
    intro P name take hfind
    rw [hnone] at hfind
    cases hfind
  refine h.move { h.core with
      wiping := fun j hj => h.core.wiping j (List.mem_of_mem_filter hj)
      stale := fun name take hfind => hempty name take hfind }
    h.guarded (fun j hj => { Rely.refl j t with wiping := ?_ }) (Nat.le_max_left _ _)
  show j ∈ t.ghost.wiping.filter (· ≠ k) ↔ j ∈ t.ghost.wiping
  rw [List.mem_filter]
  exact and_iff_left (decide_eq_true hj.symm)

/-- An erasure completes. -/
theorem finishErase (h : During aes k d t) :
    During aes k d (t.watch fun g => { g with erasing := g.erasing.filter (· ≠ k) }) := by
  have hnil : t.ghost.erasing = [] → t.ghost.erasing.filter (· ≠ k) = [] := fun hnone => by rw [hnone]; rfl
  refine h.move { h.core with
      erasing := fun j hj => h.core.erasing j (List.mem_of_mem_filter hj)
      quiet := fun s hs hnew => hnil (h.core.quiet s hs hnew) }
    h.guarded (fun j hj => { Rely.refl j t with
      erasing := ?_
      calm := fun hnone _ => ⟨hnil hnone, rfl, fun _ hkey => hkey⟩ }) (Nat.le_max_left _ _)
  show j ∈ t.ghost.erasing.filter (· ≠ k) ↔ j ∈ t.ghost.erasing
  rw [List.mem_filter]
  exact and_iff_left (decide_eq_true hj.symm)

/-! A save. -/

section save

variable {save : Save} (hid : save.id = k)

include hid

theorem ne_of_id {j : Nat} (hj : k ≠ j) {s : Save} (hs : s.id = j) : s ≠ save := by
  rintro rfl
  exact hj (hid.symm.trans hs)

/-- The file store is called, right after the check of the epoch. -/
theorem enter (h : During aes k d t) (hbegun : save ∈ t.ghost.begun) (hepoch : save.epoch = t.epoch) :
    During aes k d (t.watch fun g => { g with entered := save :: g.entered }) := by
  refine h.move { h.core with entered := List.forall_mem_cons.mpr ⟨hbegun, h.core.entered⟩ }
    (fun n hnew hlanded s hs hfile hold => ?_)
    (fun j hj => { Rely.refl j t with entered := fun s hs => ?_ }) (Nat.le_max_left _ _)
  · refine (h.guarded n hnew hlanded s hs hfile hold).imp ?_ id
    rintro ⟨holder, hnot⟩
    refine ⟨holder, fun hmem => ?_⟩
    cases hmem with
    | head => exact absurd hepoch (Nat.ne_of_lt holder)
    | tail _ hmem => exact hnot hmem
  · exact List.mem_cons.trans (or_iff_right (ne_of_id hid hj hs))

/-- The file store returns. -/
theorem leave (h : During aes k d t) (hbegun : save ∈ t.ghost.begun) :
    During aes k d (t.watch fun g => { g with left := save :: g.left }) := by
  refine h.move { h.core with left := List.forall_mem_cons.mpr ⟨hbegun, h.core.left⟩ }
    (fun n hnew hlanded s hs hfile hold => ?_)
    (fun j hj => { Rely.refl j t with left := fun s hs => ?_ }) (Nat.le_max_left _ _)
  · refine (h.guarded n hnew hlanded s hs hfile hold).imp id ?_
    rintro ⟨hepoch, hleft⟩
    exact ⟨hepoch, List.mem_cons_of_mem _ hleft⟩
  · exact List.mem_cons.trans (or_iff_right (ne_of_id hid hj hs))

/-- A save completes: it is not older than an erasure, or nothing is left of it. -/
theorem finish (h : During aes k d t)
    (hdone : save.epoch = t.epoch ∨ ∀ name take, t.find name = some take → take.origin ≠ save) :
    During aes k d (t.watch fun g => { g with saving := g.saving.filter (· ≠ save) }) := by
  refine h.move { h.core with
      saving := fun s hs => h.core.saving s (List.mem_of_mem_filter hs)
      stale := fun name take hfind hold => ?_ }
    (fun n hnew hlanded s hs => h.guarded n hnew hlanded s (List.mem_of_mem_filter hs))
    (fun j hj => { Rely.refl j t with saving := fun s hs => ?_ }) (Nat.le_max_left _ _)
  · refine (h.core.stale name take hfind hold).imp ?_ id
    intro hsaving
    refine List.mem_filter.mpr ⟨hsaving, decide_eq_true fun horigin => ?_⟩
    cases hdone with
    | inl hepoch => exact absurd (horigin ▸ hepoch) (Nat.ne_of_lt hold)
    | inr hnone => exact hnone name take hfind horigin
  · show s ∈ t.ghost.saving.filter (· ≠ save) ↔ s ∈ t.ghost.saving
    rw [List.mem_filter]
    exact and_iff_left (decide_eq_true (ne_of_id hid hj hs))

end save

/-! A save's files. It is under way, and has called the file store. -/

section files

variable {save : Save}

/-- An older save that is in the file store, or deletes what it has written, would not spare
the takes of a new one. -/
theorem no_older (h : During aes k t t) (hsaving : save ∈ t.ghost.saving)
    (hentered : save ∈ t.ghost.entered) (hbusy : save.epoch < t.epoch ∨ save ∉ t.ghost.left)
    {n : Save} (hnew : New t n) (hlanded : Landed t n)
    (hfile : safeStorageKey save.skill = safeStorageKey n.skill) : New t save := by
  by_contra hold
  rcases h.guarded n hnew hlanded save hsaving hfile hold with ⟨-, hnot⟩ | ⟨hepoch, hleft⟩
  · exact hnot hentered
  · exact hbusy.elim (fun hlt => absurd hepoch (Nat.ne_of_lt hlt)) fun hnot => hnot hleft

theorem put (h : During aes k t t) (hid : save.id = k) (hsaving : save ∈ t.ghost.saving)
    (hdirectory : t.directory = true) {name : DartString}
    (hname : name = baselineName save.skill ∨ name = latestName save.skill) {box : Bytes}
    (hkept : ∀ n, New t n → Landed (t.put name ⟨box, save⟩) n →
      KeptLatest aes (t.put name ⟨box, save⟩) n) : During aes k t (t.put name ⟨box, save⟩) := by
  have hfind : ∀ {other take}, (t.put name ⟨box, save⟩).find other = some take →
      other = name ∧ take = ⟨box, save⟩ ∨ t.find other = some take := by
    intro other take hother
    by_cases heq : other = name
    · rw [heq, Device.find_put_self] at hother
      exact .inl ⟨heq, (Option.some.inj hother).symm⟩
    · rw [Device.find_put_of_ne heq] at hother
      exact .inr hother
  refine h.move { h.core with
      ready := FileVoiceTakeStore.ready_of_directory hdirectory
      writes := fun x hx => ?_, origin := fun other take hother => ?_
      stale := fun other take hother hold => ?_, kept := hkept }
    h.guarded
    (fun j hj => { Rely.refl j t with
      writes := fun x hx => List.mem_append_left _ hx
      files := fun other take hother hid' => ?_ }) (Nat.le_max_left _ _)
  · rcases List.mem_append.mp hx with hx | hx
    · exact h.core.writes x hx
    · rw [List.mem_singleton.mp hx]
      exact h.core.saving save hsaving
  · rcases hfind hother with ⟨rfl, rfl⟩ | hother
    · exact ⟨h.core.saving save hsaving, hname⟩
    · exact h.core.origin other take hother
  · rcases hfind hother with ⟨rfl, rfl⟩ | hother
    · exact .inl hsaving
    · exact h.core.stale other take hother hold
  · rcases hfind hother with ⟨rfl, rfl⟩ | hother
    · exact absurd (hid.symm.trans hid') hj
    · exact hother

theorem putBaseline (h : During aes k t t) (hid : save.id = k) (hsaving : save ∈ t.ghost.saving)
    (hdirectory : t.directory = true) (box : Bytes) :
    During aes k t (t.put (baselineName save.skill) ⟨box, save⟩) := by
  refine h.put hid hsaving hdirectory (.inl rfl) fun n hnew hlanded => ?_
  have hne := baselineName_ne_latestName save.skill n.skill
  have hbefore : Landed t n := by
    rcases List.mem_append.mp hlanded with hbefore | hnow
    · exact hbefore
    · exact absurd (congrArg Prod.fst (List.mem_singleton.mp hnow)).symm hne
  exact (h.core.kept n hnew hbefore).frame (Device.find_put_of_ne hne.symm) rfl rfl ⟨_, rfl⟩

theorem putLatest (h : During aes k t t) (hid : save.id = k) (hsaving : save ∈ t.ghost.saving)
    (hdirectory : t.directory = true) (hentered : save ∈ t.ghost.entered)
    (hleft : save ∉ t.ghost.left) {box : Bytes}
    (hkey : New t save → ∃ key, t.keyStorage = some key ∧
      aes.decrypt key (EncryptedVoiceTakeStore.aad save.skill) box = some save.bytes) :
    During aes k t (t.put (latestName save.skill) ⟨box, save⟩) := by
  refine h.put hid hsaving hdirectory (.inr rfl) fun n hnew hlanded => ?_
  rcases List.mem_append.mp hlanded with hbefore | hnow
  · by_cases hfile : safeStorageKey save.skill = safeStorageKey n.skill
    · -- the take of `n` is overwritten
      have hnewer := no_older h hsaving hentered (.inr hleft) hnew hbefore hfile
      obtain ⟨key, hstored, hclear⟩ := hkey hnewer
      obtain ⟨before, after, hsplit⟩ := List.append_of_mem hbefore
      have hname : latestName save.skill = latestName n.skill := latestName_inj.mpr hfile
      refine ⟨⟨box, save⟩, key, ?_, hstored, ?_, hnewer,
        .inr ⟨before, after ++ [(latestName save.skill, save)], ?_, ?_⟩⟩
      · rw [hname, Device.find_put_self]
      · rwa [EncryptedVoiceTakeStore.aad, ← hfile]
      · rw [Device.put, hsplit, List.append_assoc, List.cons_append]
      · rw [hname]
        exact List.mem_append_right after (List.mem_singleton_self _)
    · have hne : latestName n.skill ≠ latestName save.skill :=
        fun hname => hfile (latestName_inj.mp hname).symm
      exact (h.core.kept n hnew hbefore).frame (Device.find_put_of_ne hne) rfl rfl ⟨_, rfl⟩
  · obtain rfl : n = save := congrArg Prod.snd (List.mem_singleton.mp hnow)
    obtain ⟨key, hstored, hclear⟩ := hkey hnew
    exact ⟨⟨box, n⟩, key, Device.find_put_self, hstored, hclear, hnew, .inl rfl⟩

theorem remove (h : During aes k t t) (hsaving : save ∈ t.ghost.saving)
    (hentered : save ∈ t.ghost.entered) (hold : save.epoch < t.epoch) {name : DartString}
    (hname : name = baselineName save.skill ∨ name = latestName save.skill) :
    During aes k t (t.remove name) := by
  refine h.move { h.core with
      ready := fun habsent other => ?_
      origin := fun other take hfind => h.core.origin other take (Device.find_of_find_remove hfind)
      stale := fun other take hfind => h.core.stale other take (Device.find_of_find_remove hfind)
      kept := fun n hnew hlanded => ?_ }
    h.guarded
    (fun j _ => { Rely.refl j t with
      files := fun other take hfind _ => Device.find_of_find_remove hfind }) (Nat.le_max_left _ _)
  · cases hfind : (t.remove name).find other with
    | none => rfl
    | some take =>
      have hbefore := Device.find_of_find_remove hfind
      rw [h.core.ready habsent other] at hbefore
      cases hbefore
  · have hne : latestName n.skill ≠ name := by
      rcases hname with rfl | rfl
      · exact (baselineName_ne_latestName save.skill n.skill).symm
      · intro hfile
        have hnewer := no_older h hsaving hentered (.inl hold) hnew hlanded (latestName_inj.mp hfile).symm
        exact absurd hnewer.2 (Nat.ne_of_lt hold)
    exact (h.core.kept n hnew hlanded).frame (Device.find_remove_of_ne hne) rfl rfl
      ⟨[], (List.append_nil _).symm⟩

end files

/-! The start of a call. -/

theorem beginSave (h : During aes k t t) (hmade : t.ghost.made ≤ k) (skill : DartString)
    (bytes : Bytes) {save : Save}
    (hsave : save = ⟨k, skill, bytes, t.epoch, t.ghost.erasing.isEmpty⟩) :
    During aes k t (t.watch fun g =>
      { g with made := k + 1, begun := save :: g.begun, saving := save :: g.saving }) := by
  have herased : t.ghost.erased ≤ k := Nat.le_trans h.core.erased hmade
  have hnew : t.ghost.erasing = [] → New t save := by
    intro hnone
    rw [hsave, hnone]
    exact ⟨rfl, rfl⟩
  have hcalm : New t save → t.ghost.erasing = [] := by
    rintro ⟨hquiet, -⟩
    rw [hsave] at hquiet
    exact List.isEmpty_iff.mp hquiet
  refine h.move { h.core with
      made := ?_, epoch := ?_, erased := Nat.le_succ_of_le herased
      erasing := fun j hj => Nat.lt_succ_of_lt (Nat.lt_of_lt_of_le (h.core.erasing j hj) hmade)
      wiping := fun j hj => Nat.lt_succ_of_lt (Nat.lt_of_lt_of_le (h.core.wiping j hj) hmade)
      quiet := ?_, saving := ?_
      entered := fun s hs => List.mem_cons_of_mem _ (h.core.entered s hs)
      left := fun s hs => List.mem_cons_of_mem _ (h.core.left s hs)
      writes := fun x hx => List.mem_cons_of_mem _ (h.core.writes x hx)
      origin := fun name take hfind => (h.core.origin name take hfind).imp_left (List.mem_cons_of_mem _)
      stale := fun name take hfind hold =>
        (h.core.stale name take hfind hold).imp_left (List.mem_cons_of_mem _) }
    (fun n hn hlanded s hs hfile hold => ?_)
    (fun j hj => { Rely.refl j t with
      begun := fun s hs => List.mem_cons_of_mem _ hs
      saving := fun s hs => ?_ }) (Nat.le_max_right _ _)
  · rintro s (_ | ⟨_, hs⟩)
    · rw [hsave]
      exact Nat.lt_succ_self k
    · exact Nat.lt_succ_of_lt (Nat.lt_of_lt_of_le (h.core.made s hs) hmade)
  · rintro s (_ | ⟨_, hs⟩)
    · rw [hsave]
      exact ⟨Nat.le_refl _, fun _ => herased, fun _ => rfl⟩
    · exact h.core.epoch s hs
  · rintro s (_ | ⟨_, hs⟩) hs'
    · exact hcalm hs'
    · exact h.core.quiet s hs hs'
  · rintro s (_ | ⟨_, hs⟩)
    · exact List.mem_cons_self
    · exact List.mem_cons_of_mem _ (h.core.saving s hs)
  · cases hs with
    | head => exact absurd (hnew (h.core.quiet n (h.core.writes _ hlanded) hn)) hold
    | tail _ hs => exact h.guarded n hn hlanded s hs hfile hold
  · have hne : s ≠ save := ne_of_id (by rw [hsave]) hj hs
    exact List.mem_cons.trans (or_iff_right hne)

/-- The epoch goes up, and the erasure queues for the lock. -/
theorem beginErase (h : During aes k t t) (hmade : t.ghost.made ≤ k) :
    During aes k t { t.watch (fun g =>
        { g with made := k + 1, erased := k + 1, erasing := k :: g.erasing, wiping := k :: g.wiping }) with
      epoch := t.epoch + 1, keyLock := t.keyLock.enter k } := by
  have hlt : ∀ s ∈ t.ghost.begun, s.id < k := fun s hs => Nat.lt_of_lt_of_le (h.core.made s hs) hmade
  have hold : ∀ s ∈ t.ghost.begun, s.epoch ≠ t.epoch + 1 :=
    fun s hs => Nat.ne_of_lt (Nat.lt_succ_of_le (h.core.epoch s hs).1)
  refine h.move { h.core with
      made := fun s hs => Nat.lt_succ_of_lt (hlt s hs)
      epoch := fun s hs => ⟨Nat.le_succ_of_le (h.core.epoch s hs).1, ?_⟩
      erased := Nat.le_refl _, erasing := ?_, wiping := ?_
      quiet := fun s hs hnew => absurd hnew.2 (hold s hs)
      stale := fun _ _ _ _ => .inr (List.cons_ne_nil _ _)
      kept := fun n hnew hlanded => absurd hnew.2 (hold n (h.core.writes _ hlanded)) }
    (fun n hnew hlanded => absurd hnew.2 (hold n (h.core.writes _ hlanded)))
    (fun j hj => { Rely.refl j t with
      epoch := Nat.le_succ _
      erased := Nat.le_succ_of_le (Nat.le_trans h.core.erased hmade)
      notErased := fun hk => absurd (Nat.succ.inj hk) hj
      erasing := List.mem_cons.trans (or_iff_right hj.symm)
      wiping := List.mem_cons.trans (or_iff_right hj.symm)
      held := fun hheld => ⟨hheld.enter, rfl, rfl⟩
      calm := fun _ hepoch => absurd hepoch (Nat.succ_ne_self _) }) (Nat.le_max_right _ _)
  · constructor
    · exact fun hepoch => absurd hepoch (hold s hs)
    · exact fun hid => absurd hid (Nat.not_le_of_lt (Nat.lt_succ_of_lt (hlt s hs)))
  · rintro j (_ | ⟨_, hj⟩)
    · exact Nat.lt_succ_self k
    · exact Nat.lt_succ_of_lt (Nat.lt_of_lt_of_le (h.core.erasing j hj) hmade)
  · rintro j (_ | ⟨_, hj⟩)
    · exact Nat.lt_succ_self k
    · exact Nat.lt_succ_of_lt (Nat.lt_of_lt_of_le (h.core.wiping j hj) hmade)

end During

end Apm.Takes
