import Apm.Takes.Vault

/-!
# The calls keep the contract

What is known of a call at each of its awaits, whatever the other calls do there: of a save
before it has called the file store, while it is in it, and after; and of an erasure.
-/

namespace Apm.Takes

open Apm.Lib

set_option autoImplicit false

variable {aes : AesGcm} {k : Nat} {c : VaultCall} {save : Save} {d₀ d t : Vault}

/-- The call is a save that has not completed. -/
structure Underway (k : Nat) (save : Save) (g : Watch) : Prop where
  id : save.id = k
  begun : save ∈ g.begun
  saving : save ∈ g.saving
  only : ∀ s ∈ g.saving, s.id = k → s = save
  erasing : k ∉ g.erasing
  wiping : k ∉ g.wiping
  notErased : g.erased ≠ k + 1

/-- The call is an erasure that has not completed. -/
structure Erasing (k : Nat) (g : Watch) : Prop where
  erasing : k ∈ g.erasing
  erased : k < g.erased
  noSave : ∀ s ∈ g.saving, s.id ≠ k

/-- Nothing that is stored comes from the save. -/
def NoTake (save : Save) (d : Vault) : Prop := ∀ name take, d.find name = some take → take.origin ≠ save

def NoTakeAt (save : Save) (name : DartString) (d : Vault) : Prop :=
  ∀ take, d.find name = some take → take.origin ≠ save

/-- Before the call of the file store. -/
def Before (save : Save) (d : Vault) : Prop :=
  save ∉ d.ghost.entered ∧ save ∉ d.ghost.left ∧ NoTake save d

/-- The key of a new save is the stored one. -/
def HasKey (save : Save) (key : Bytes) (d : Vault) : Prop := New d save → d.keyStorage = some key

/-! ## What the others leave alone -/

theorem Underway.rely (h : Underway k save d.ghost) (hrely : Rely k d t) :
    Underway k save t.ghost where
  id := h.id
  begun := hrely.begun save h.begun
  saving := (hrely.saving save h.id).mpr h.saving
  only s hs hid := h.only s ((hrely.saving s hid).mp hs) hid
  erasing hk := h.erasing (hrely.erasing.mp hk)
  wiping hk := h.wiping (hrely.wiping.mp hk)
  notErased hk := h.notErased (hrely.notErased hk)

theorem Erasing.rely (h : Erasing k d.ghost) (hrely : Rely k d t) : Erasing k t.ghost where
  erasing := hrely.erasing.mpr h.erasing
  erased := Nat.lt_of_lt_of_le h.erased hrely.erased
  noSave s hs hid := h.noSave s ((hrely.saving s hid).mp hs) hid

theorem NoTakeAt.rely {name : DartString} (hid : save.id = k) (h : NoTakeAt save name d)
    (hrely : Rely k d t) : NoTakeAt save name t :=
  fun take hfind horigin => h take (hrely.files name take hfind (horigin ▸ hid)) horigin

theorem NoTake.rely (hid : save.id = k) (h : NoTake save d) (hrely : Rely k d t) : NoTake save t :=
  fun name => NoTakeAt.rely hid (h name) hrely

theorem Before.rely (hid : save.id = k) (h : Before save d) (hrely : Rely k d t) : Before save t :=
  ⟨fun hs => h.1 ((hrely.entered save hid).mp hs), fun hs => h.2.1 ((hrely.left save hid).mp hs),
    h.2.2.rely hid hrely⟩

/-- A save that is still new was new before, and no erasure has come between. -/
theorem new_of_rely (hduring : During aes k d₀ d) (hrely : Rely k d t) (hbegun : save ∈ d.ghost.begun)
    (hnew : New t save) :
    New d save ∧ t.fileEpoch = d.fileEpoch ∧ ∀ key, d.keyStorage = some key → t.keyStorage = some key := by
  have hle := (hduring.core.epoch save hbegun).1
  have hepoch : t.epoch = d.epoch := Nat.le_antisymm (hnew.2 ▸ hle) hrely.epoch
  have hbefore : New d save := ⟨hnew.1, hnew.2.trans hepoch⟩
  obtain ⟨-, hfile, hkey⟩ := hrely.calm (hduring.core.quiet save hbegun hbefore) hepoch
  exact ⟨hbefore, hfile, hkey⟩

/-- What is known of a new save outlives what the others do. -/
theorem stable_of_new {P : Vault → Prop} (hunderway : Underway k save d.ghost)
    (hduring : During aes k d₀ d) (hrely : Rely k d t) (h : New d save → P d)
    (hstep : t.fileEpoch = d.fileEpoch →
      (∀ key, d.keyStorage = some key → t.keyStorage = some key) → P d → P t) : New t save → P t := by
  intro hnew
  obtain ⟨hbefore, hfile, hkey⟩ := new_of_rely hduring hrely hunderway.begun hnew
  exact hstep hfile hkey (h hbefore)

abbrev VaultStable (aes : AesGcm) (k : Nat) (c : VaultCall) (P : Vault → Prop) : Prop :=
  Async.Stable (vaultContract aes) k c P

abbrev VaultRuns {α : Type} (aes : AesGcm) (k : Nat) (c : VaultCall) (pre : Vault → Prop)
    (p : OnDevice Unit Save Watch α) (post : α → Vault → Prop) (err : Vault → Prop) : Prop :=
  Async.Runs (vaultContract aes) k c pre p post err

theorem stable_holds : VaultStable aes k c fun d => d.keyLock.Holds k :=
  fun _ _ _ _ hrely _ h => (hrely.held h).1

theorem stable_before : VaultStable aes k c fun d => Underway k save d.ghost ∧ Before save d :=
  fun _ _ _ _ hrely _ h => ⟨h.1.rely hrely, h.2.rely h.1.id hrely⟩

theorem stable_hasKey {key : Bytes} :
    VaultStable aes k c fun d => Underway k save d.ghost ∧ HasKey save key d :=
  fun _ _ _ hguar hrely _ h => ⟨h.1.rely hrely,
    stable_of_new (P := fun d => d.keyStorage = some key) h.1 hguar hrely h.2
      fun _ hkey hstored => hkey key hstored⟩

/-! ## The lock -/

namespace EncryptedVoiceTakeStore

/-- What follows in `synchronized` when the call has queued for the lock. -/
def locked {α : Type} (caller : Nat) (action : OnDevice Unit Save Watch α) :
    OnDevice Unit Save Watch α := do
  Async.waitFor fun d => decide (d.keyLock.Holds caller)
  let result ←
    try
      let a ← Async.awaiting action
      pure (Except.ok a)
    catch e => pure (Except.error e)
  Async.modify fun d => { d with keyLock := d.keyLock.leave }
  Async.hop
  Async.ofExcept result

theorem synchronized_eq {α : Type} (caller : Nat) (action : OnDevice Unit Save Watch α) :
    synchronized caller action = (do
      Async.modify fun d => { d with keyLock := d.keyLock.enter caller }
      locked caller action) := rfl

variable {α : Type} {action : OnDevice Unit Save Watch α} {pre : Vault → Prop}
  {post : α → Vault → Prop}

theorem locked_runs (hpre : VaultStable aes k c pre)
    (haction : VaultRuns aes k c (fun d => pre d ∧ d.keyLock.Holds k) action
      (fun a d => post a d ∧ d.keyLock.Holds k) fun d => d.keyLock.Holds k)
    (hpost : ∀ a, VaultStable aes k c (post a))
    (hlock : ∀ a d m, post a d → post a { d with keyLock := m }) :
    VaultRuns aes k c pre (locked k action) post fun _ => True := by
  refine .bind ((Async.Runs.waitFor hpre).mono (fun _ _ _ h => h)
    (fun _ _ _ _ h => (⟨h.1, of_decide_eq_true h.2⟩ : pre _ ∧ _)) fun _ h => h) fun _ => ?_
  refine .bind (Q := fun r d => d.keyLock.Holds k ∧ ∀ a, r = .ok a → post a d) (.handle
    (.bind (haction.awaiting fun a => (hpost a).and stable_holds) fun a => .pure fun _ _ _ h => ?_)
    fun e => .pure fun _ _ _ h => ?_) fun r => ?_
  · refine ⟨h.2, fun b hb => ?_⟩
    cases hb
    exact h.1
  · exact ⟨h, fun b hb => by cases hb⟩
  · refine .bind (Q := fun _ d => ∀ a, r = .ok a → post a d) (.modify fun _ d hduring h =>
      ⟨hduring.leaveLock h.1, fun a ha => hlock a d _ (h.2 a ha)⟩) fun _ => ?_
    refine .bind (.hop fun s₀ s t hguar hrely hinv h a ha => hpost a s₀ s t hguar hrely hinv (h a ha))
      fun _ => ?_
    cases r with
    | ok a => exact .pure fun _ _ _ h => h a rfl
    | error e => exact .throw fun _ _ => trivial

/-! ## The key -/

theorem resolveKey_runs :
    VaultRuns aes k c (fun d => (Underway k save d.ghost ∧ Before save d) ∧ d.keyLock.Holds k)
      (resolveKey aes)
      (fun key d => ((Underway k save d.ghost ∧ Before save d) ∧ HasKey save key d) ∧ d.keyLock.Holds k)
      fun d => d.keyLock.Holds k := by
  have hwaits : VaultStable aes k c
      fun d => (Underway k save d.ghost ∧ Before save d) ∧ d.keyLock.Holds k :=
    stable_before.and stable_holds
  have hnone : VaultStable aes k c fun d =>
      ((Underway k save d.ghost ∧ Before save d) ∧ d.keyLock.Holds k) ∧ d.keyStorage = none :=
    fun s₀ s t hguar hrely hinv h =>
      ⟨hwaits s₀ s t hguar hrely hinv h.1, (hrely.held h.1.2).2.1.trans h.2⟩
  refine .get fun d₁ => ?_
  cases hcached : d₁.cachedKey with
  | some cached =>
    refine .pure fun s₀ s hduring h => ⟨⟨h.2.1, fun _ => hduring.core.cached cached ?_⟩, h.2.2⟩
    rw [h.1, hcached]
  | none =>
    refine .bind ((Async.Runs.reads hwaits).weaken fun _ _ _ h => h.2) fun stored => ?_
    have hcache (key : Bytes) : VaultRuns aes k c
        (fun d => ((Underway k save d.ghost ∧ Before save d) ∧ d.keyLock.Holds k) ∧ d.keyStorage = some key)
        (do Async.modify fun d => { d with cachedKey := some key }; pure key)
        (fun key d => ((Underway k save d.ghost ∧ Before save d) ∧ HasKey save key d) ∧ d.keyLock.Holds k)
        fun d => d.keyLock.Holds k := by
      refine .bind (.update fun _ s hduring h => ⟨hduring.cacheKey h.1.2 (some key) ?_, h⟩) fun _ =>
        .pure fun _ s _ h => ⟨⟨h.1.1, fun _ => h.2⟩, h.1.2⟩
      rintro _ ⟨⟩
      exact h.2
    cases stored with
    | some key => exact hcache key
    | none =>
      refine .bind (Q := fun _ d =>
        ((Underway k save d.ghost ∧ Before save d) ∧ d.keyLock.Holds k) ∧ d.keyStorage = none)
        (.lands hnone fun t hinv h => ⟨(During.start hinv).drew, h⟩) fun key => ?_
      refine .bind (.hop hnone) fun _ => .bind (.lands hnone fun t hinv h =>
        ⟨(During.start hinv).storeKey h.1.2 h.2 key, h.1, rfl⟩) fun _ => hcache key

theorem keyOrCreate_runs :
    VaultRuns aes k c (fun d => Underway k save d.ghost ∧ Before save d) (keyOrCreate aes k)
      (fun key d => (Underway k save d.ghost ∧ Before save d) ∧ HasKey save key d) fun _ => True := by
  refine .get fun d₁ => ?_
  cases hcached : d₁.cachedKey with
  | some cached =>
    refine .pure fun s₀ s hduring h => ⟨h.2, fun _ => hduring.core.cached cached ?_⟩
    rw [h.1, hcached]
  | none =>
    show VaultRuns aes k c _ (synchronized k (resolveKey aes)) _ _
    rw [synchronized_eq]
    refine .bind (Q := fun _ d => Underway k save d.ghost ∧ Before save d)
      (.modify fun _ s hduring h => ⟨hduring.enterLock, h.2⟩) fun _ => locked_runs
      stable_before resolveKey_runs (fun key => ?_) fun _ _ _ h => h
    exact fun s₀ s t hguar hrely hinv h => ⟨stable_before s₀ s t hguar hrely hinv h.1,
      (stable_hasKey s₀ s t hguar hrely hinv ⟨h.1.1, h.2⟩).2⟩

end EncryptedVoiceTakeStore

/-! ## The files -/

/-- In the file store, with the key of the box that is being saved. -/
def Inside (k : Nat) (save : Save) (key : Bytes) (d : Vault) : Prop :=
  Underway k save d.ghost ∧ save ∈ d.ghost.entered ∧ save ∉ d.ghost.left ∧ HasKey save key d

theorem stable_inside {key : Bytes} : VaultStable aes k c (Inside k save key) :=
  fun s₀ s t hguar hrely hinv h => ⟨h.1.rely hrely, (hrely.entered save h.1.id).mpr h.2.1,
    fun hs => h.2.2.1 ((hrely.left save h.1.id).mp hs),
    (stable_hasKey s₀ s t hguar hrely hinv ⟨h.1, h.2.2.2⟩).2⟩

/-- An older save that deletes what it has written. -/
def Undoing (k : Nat) (save : Save) (d : Vault) : Prop :=
  Underway k save d.ghost ∧ save ∈ d.ghost.entered ∧ save.epoch < d.epoch

theorem stable_undoing : VaultStable aes k c (Undoing k save) :=
  fun _ _ _ _ hrely _ h => ⟨h.1.rely hrely, (hrely.entered save h.1.id).mpr h.2.1,
    Nat.lt_of_lt_of_le h.2.2 hrely.epoch⟩

namespace FileVoiceTakeStore

variable {P : Vault → Prop} {err : Vault → Prop}

theorem openDir_runs (hP : VaultStable aes k c P) (hopened : ∀ d, P d → P { d with dirOpened := true }) :
    VaultRuns aes k c P openDir (fun _ => P) err := by
  refine .get fun d₁ => .when (fun _ => ?_) fun _ _ _ _ h => h.2
  exact .bind ((Async.Runs.hop hP).weaken fun _ _ _ h => h.2) fun _ =>
    .update fun _ s hduring h => ⟨hduring.opened, hopened s h⟩

theorem dir_runs (hP : VaultStable aes k c P) (hopened : ∀ d, P d → P { d with dirOpened := true })
    (hcreated : ∀ d, P d → P { d with directory := true }) :
    VaultRuns aes k c P dir_ (fun _ => P) err := by
  refine .bind (openDir_runs hP hopened) fun _ => .bind (.reads hP) fun present => ?_
  refine .when (fun _ => ?_) fun _ _ _ _ h => h.1
  exact (Async.Runs.lands hP fun t hinv h => ⟨(During.start hinv).createDir, hcreated t h⟩).weaken
    fun _ _ _ h => h.1

theorem saveTake_runs {key box : Bytes}
    (hbox : aes.decrypt key (EncryptedVoiceTakeStore.aad save.skill) box = some save.bytes) :
    VaultRuns aes k c (Inside k save key) (saveTake save.skill ⟨box, save⟩)
      (fun _ d => Inside k save key d ∧ (New d save → Landed d save)) fun _ => True := by
  refine .get fun d₁ => ?_
  have hstable : VaultStable aes k c fun d =>
      Inside k save key d ∧ (New d save → d.fileEpoch = d₁.fileEpoch) :=
    fun s₀ s t hguar hrely hinv h => ⟨stable_inside s₀ s t hguar hrely hinv h.1,
      stable_of_new (P := fun d => d.fileEpoch = d₁.fileEpoch) h.1.1 hguar hrely h.2
        fun hfile _ h => hfile.trans h⟩
  have haborts (d₂ : Vault) (hne : d₂.fileEpoch ≠ d₁.fileEpoch) : VaultRuns aes k c
      (fun d => d = d₂ ∧ Inside k save key d ∧ (New d save → d.fileEpoch = d₁.fileEpoch)) (pure ())
      (fun _ d => Inside k save key d ∧ (New d save → Landed d save)) fun _ => True := by
    refine .pure fun _ s _ h => ⟨h.2.1, fun hnew => absurd (h.2.2 hnew) ?_⟩
    rwa [h.1]
  refine (Async.Runs.bind ((dir_runs hstable (fun _ h => h) fun _ h => h).awaiting fun _ => hstable)
    fun _ => ?_).weaken fun _ s _ h => ⟨h.2, fun _ => congrArg _ h.1⟩
  refine .get fun d₂ => .ite (haborts d₂) fun _ => ?_
  refine .bind ((Async.Runs.reads hstable).weaken fun _ _ _ h => h.2) fun present => ?_
  refine .bind (Q := fun _ d => Inside k save key d ∧ (New d save → d.fileEpoch = d₁.fileEpoch))
    (.when (fun _ => ?_) fun _ _ _ _ h => h.1) fun _ => .get fun d₃ => .ite (haborts d₃) fun _ => ?_
  · refine (Async.Runs.io hstable fun _ t hinv h => ?_).weaken fun _ _ _ h => h.1
    cases hdirectory : t.directory with
    | true => exact ⟨(During.start hinv).putBaseline h.1.1.id h.1.1.saving hdirectory box, h⟩
    | false => exact ⟨.start hinv, trivial⟩
  · refine (Async.Runs.io hstable fun _ t hinv h => ?_).weaken fun _ _ _ h => h.2
    cases hdirectory : t.directory with
    | true =>
      refine ⟨(During.start hinv).putLatest h.1.1.id h.1.1.saving hdirectory h.1.2.1 h.1.2.2.1
        fun hnew => ⟨key, h.1.2.2.2 hnew, hbox⟩, h.1, fun _ => ?_⟩
      exact List.mem_append_right _ (List.mem_singleton_self _)
    | false => exact ⟨.start hinv, trivial⟩

theorem delete_runs (hP : VaultStable aes k c P) (hundoing : ∀ d, P d → Undoing k save d)
    {name : DartString} (hremoved : ∀ d, P d → P (d.remove name))
    (hname : name = baselineName save.skill ∨ name = latestName save.skill) (present : Bool) :
    VaultRuns aes k c (fun d => P d ∧ (d.find name).isSome = present)
      (Async.when present (delete name)) (fun _ d => P d ∧ NoTakeAt save name d) fun _ => True := by
  refine .when (fun _ => ?_) fun habsent _ s _ h => ⟨h.1, fun take hfind => ?_⟩
  · refine (Async.Runs.io hP fun _ t hinv h => ?_).weaken fun _ _ _ h => h.1
    obtain ⟨hunderway, hentered, hold⟩ := hundoing t h
    cases hfind : (t.find name).isSome with
    | true =>
      refine ⟨(During.start hinv).remove hunderway.saving hentered hold hname, hremoved t h, ?_⟩
      intro take htake
      rw [if_pos rfl, Device.find_remove_self] at htake
      cases htake
    | false => exact ⟨.start hinv, trivial⟩
  · rw [← h.2, hfind] at habsent
    cases habsent

theorem deleteSkill_runs :
    VaultRuns aes k c (Undoing k save) (deleteSkill save.skill)
      (fun _ d => Undoing k save d ∧ NoTake save d) fun _ => True := by
  refine .bind (openDir_runs stable_undoing fun _ h => h) fun _ =>
    .bind (.reads stable_undoing) fun present => .ite (fun habsent => ?_) fun _ => ?_
  · refine .pure fun _ s hduring h => ⟨h.1, fun name take hfind => ?_⟩
    have hdirectory : s.directory = false := by simpa [h.2] using habsent
    rw [hduring.core.ready hdirectory name] at hfind
    cases hfind
  · have hbaseline : VaultStable aes k c fun d =>
        Undoing k save d ∧ NoTakeAt save (baselineName save.skill) d :=
      fun s₀ s t hguar hrely hinv h =>
        ⟨stable_undoing s₀ s t hguar hrely hinv h.1, h.2.rely h.1.1.id hrely⟩
    refine .bind ((Async.Runs.reads stable_undoing).weaken fun _ _ _ h => h.1) fun baseline =>
      .bind (delete_runs stable_undoing (fun _ h => h) (fun _ h => h) (.inl rfl) baseline) fun _ =>
      .bind (.reads hbaseline) fun latest =>
        (delete_runs hbaseline (fun _ h => h.1) (fun _ h => ⟨h.1, ?_⟩) (.inr rfl) latest).mono
          (fun _ _ _ h => h) (fun _ _ d hduring h => ⟨h.1.1, ?_⟩) fun _ h => h
    · exact fun take hfind => h.2 take (Device.find_of_find_remove hfind)
    · intro name take hfind horigin
      rcases (hduring.core.origin name take hfind).2 with rfl | rfl
      · exact h.1.2 take (horigin ▸ hfind) horigin
      · exact h.2 take (horigin ▸ hfind) horigin

end FileVoiceTakeStore

/-! ## A save -/

/-- Its boxes are in the files, if it is new. -/
def HasLanded (save : Save) (d : Vault) : Prop := New d save → Landed d save

theorem stable_hasLanded :
    VaultStable aes k c fun d => Underway k save d.ghost ∧ save ∈ d.ghost.entered ∧ HasLanded save d :=
  fun _ _ _ hguar hrely _ h => ⟨h.1.rely hrely, (hrely.entered save h.1.id).mpr h.2.1,
    fun hnew => hrely.writes _ (h.2.2 (new_of_rely hguar hrely h.1.begun hnew).1)⟩

namespace EncryptedVoiceTakeStore

theorem watched_saveTake_runs {key box : Bytes}
    (hbox : aes.decrypt key (aad save.skill) box = some save.bytes) :
    VaultRuns aes k c
      (fun d => ((Underway k save d.ghost ∧ Before save d) ∧ HasKey save key d) ∧ save.epoch = d.epoch)
      ((watched k (fileVoiceTakeStore fun _ => .none)).saveTake save.skill ⟨box, save⟩)
      (fun _ d => Underway k save d.ghost ∧ save ∈ d.ghost.entered ∧ HasLanded save d)
      fun _ => True := by
  refine .bind (Q := fun _ => Inside k save key) (.modify fun _ s hduring h => ?_) fun _ => ?_
  · obtain ⟨⟨⟨hunderway, -, hleft, -⟩, hkey⟩, hepoch⟩ := h
    exact ⟨hduring.enter hunderway.id hunderway.begun hepoch, { hunderway with }, List.mem_cons_self, hleft, hkey⟩
  · refine .bind (FileVoiceTakeStore.saveTake_runs hbox) fun _ => .modify fun _ s hduring h => ?_
    obtain ⟨⟨hunderway, hentered, -, -⟩, hlanded⟩ := h
    exact ⟨hduring.leave hunderway.id hunderway.begun, { hunderway with }, hentered, hlanded⟩

theorem saveTake_runs :
    VaultRuns aes k c (fun d => (Underway k save d.ghost ∧ Before save d) ∧ save.epoch = d.epoch)
      (saveTake aes k (watched k (fileVoiceTakeStore fun _ => .none)) save.skill ⟨save.bytes, save⟩)
      (fun _ d => Underway k save d.ghost ∧ HasLanded save d ∧ (save.epoch = d.epoch ∨ NoTake save d))
      fun _ => True := by
  refine .get fun d₁ => .assume (fun _ s _ h => h.1 ▸ h.2.2) fun hepoch => ?_
  have haborts {pre : Vault → Prop} (d₂ : Vault) (hne : d₂.epoch ≠ d₁.epoch)
      (hpre : ∀ s, pre s → Underway k save s.ghost ∧ Before save s) :
      VaultRuns aes k c (fun d => d = d₂ ∧ pre d) (pure ())
        (fun _ d => Underway k save d.ghost ∧ HasLanded save d ∧ (save.epoch = d.epoch ∨ NoTake save d))
        fun _ => True := by
    refine .pure fun _ s _ h => ⟨(hpre s h.2).1, fun hnew => absurd hnew.2 ?_, .inr (hpre s h.2).2.2.2⟩
    rw [h.1, hepoch]
    exact hne.symm
  have hstable (key : Bytes) : VaultStable aes k c
      fun d => (Underway k save d.ghost ∧ Before save d) ∧ HasKey save key d :=
    fun s₀ s t hguar hrely hinv h => ⟨stable_before s₀ s t hguar hrely hinv h.1,
      (stable_hasKey s₀ s t hguar hrely hinv ⟨h.1.1, h.2⟩).2⟩
  refine .bind ((keyOrCreate_runs.awaiting hstable).weaken fun _ _ _ h => h.2.1) fun key => ?_
  refine .get fun d₂ => .ite (fun hne => haborts d₂ hne fun _ h => h.1) fun _ => ?_
  refine .bind (Q := fun box d => ((Underway k save d.ghost ∧ Before save d) ∧ HasKey save key d) ∧
      aes.decrypt key (aad save.skill) box = some save.bytes)
    ((Async.Runs.lands (hstable key) fun t hinv h =>
      ⟨(During.start hinv).drew, h, aes.decrypt_encrypt _ _ _ _⟩).weaken fun _ _ _ h => h.2) fun box => ?_
  refine .get fun d₃ => .ite (fun hne => haborts d₃ hne fun _ h => h.1.1) fun hsame => ?_
  refine .assume (fun _ _ _ h => h.2.2) fun hbox => ?_
  refine .bind (((watched_saveTake_runs hbox).awaiting fun _ => stable_hasLanded).weaken
    fun _ s _ h => ⟨h.2.1, ?_⟩) fun _ => .get fun d₄ => .when (fun hne => ?_) fun hsame => ?_
  · rw [h.1, hepoch]
    exact (not_not.mp hsame).symm
  · have hundone : VaultStable aes k c fun d => Undoing k save d ∧ NoTake save d :=
      fun s₀ s t hguar hrely hinv h =>
        ⟨stable_undoing s₀ s t hguar hrely hinv h.1, h.2.rely h.1.1.id hrely⟩
    refine (FileVoiceTakeStore.deleteSkill_runs.awaiting fun _ => hundone).mono
      (fun _ s hduring h => ⟨h.2.1, h.2.2.1, ?_⟩)
      (fun _ _ s _ h => ⟨h.1.1, fun hnew => ?_, .inr h.2⟩) fun _ h => h
    · refine Nat.lt_of_le_of_ne (hduring.core.epoch save h.2.1.begun).1 ?_
      rw [h.1, hepoch]
      exact (of_decide_eq_true hne).symm
    · exact absurd hnew.2 (Nat.ne_of_lt h.1.2.2)
  · refine fun _ s _ h => ⟨h.2.1, h.2.2.2, .inl ?_⟩
    rw [h.1, hepoch]
    exact (not_not.mp (of_decide_eq_false hsame)).symm

end EncryptedVoiceTakeStore

/-! ## An erasure -/

theorem stable_erasing : VaultStable aes k c fun d => Erasing k d.ghost :=
  fun _ _ _ _ hrely _ h => h.rely hrely

namespace FileVoiceTakeStore

theorem eraseAll_runs :
    VaultRuns aes k c (fun d => Erasing k d.ghost ∧ d.keyLock.Holds k) (eraseAll fun _ => .none)
      (fun _ d => (Erasing k d.ghost ∧ d.keyLock.Holds k) ∧ ∀ name, d.find name = none)
      fun d => d.keyLock.Holds k := by
  have hstable : VaultStable aes k c fun d => Erasing k d.ghost ∧ d.keyLock.Holds k :=
    stable_erasing.and stable_holds
  refine .bind (.update fun _ s hduring h => ⟨hduring.bumpFileEpoch h.1.erasing, h⟩) fun _ =>
    .bind (openDir_runs hstable fun _ h => h) fun _ => .bind (.reads hstable) fun present => ?_
  refine .when (fun _ => ?_) fun habsent _ s hduring h => ⟨h.1, ?_⟩
  · refine (Async.Runs.io hstable fun _ t hinv h => ?_).weaken fun _ _ _ h => h.1
    cases hdirectory : t.directory with
    | true => exact ⟨(During.start hinv).deleteDir h.1.erasing, h, fun _ => rfl⟩
    | false => exact ⟨.start hinv, h.2⟩
  · exact hduring.core.ready (h.2.trans habsent)

end FileVoiceTakeStore

namespace EncryptedVoiceTakeStore

/-- The section of `eraseAll`. -/
theorem erase_runs :
    VaultRuns aes k c (fun d => Erasing k d.ghost ∧ d.keyLock.Holds k)
      (do
        Async.modify fun d => { d with cachedKey := none }
        Async.io fun _ d => (.ok (), { d with keyStorage := none })
        Async.awaiting (watched k (fileVoiceTakeStore fun _ => .none)).eraseAll)
      (fun _ d => (Erasing k d.ghost ∧ k ∉ d.ghost.wiping) ∧ d.keyLock.Holds k)
      fun d => d.keyLock.Holds k := by
  have hstable : VaultStable aes k c fun d => Erasing k d.ghost ∧ d.keyLock.Holds k :=
    stable_erasing.and stable_holds
  have hdropped : VaultStable aes k c fun d =>
      (Erasing k d.ghost ∧ d.keyLock.Holds k) ∧ d.cachedKey = none :=
    fun s₀ s t hguar hrely hinv h =>
      ⟨hstable s₀ s t hguar hrely hinv h.1, (hrely.held h.1.2).2.2.trans h.2⟩
  have hwiped : VaultStable aes k c fun d =>
      (Erasing k d.ghost ∧ k ∉ d.ghost.wiping) ∧ d.keyLock.Holds k :=
    fun _ _ _ _ hrely _ h =>
      ⟨⟨h.1.1.rely hrely, fun hk => h.1.2 (hrely.wiping.mp hk)⟩, (hrely.held h.2).1⟩
  refine .bind (Q := fun _ d => (Erasing k d.ghost ∧ d.keyLock.Holds k) ∧ d.cachedKey = none)
    (.modify fun _ s hduring h => ⟨hduring.cacheKey h.2 none fun _ hkey => (by cases hkey), h, rfl⟩)
    fun _ => ?_
  refine .bind (Q := fun _ d => Erasing k d.ghost ∧ d.keyLock.Holds k) (.lands hdropped fun t hinv h =>
    ⟨(During.start hinv).deleteKey h.1.2 h.1.1.erasing h.2, h.1⟩) fun _ => ?_
  refine .awaiting (.bind FileVoiceTakeStore.eraseAll_runs fun _ => .modify fun _ s hduring h => ?_)
    fun _ => hwiped
  refine ⟨hduring.wiped h.2, ⟨{ h.1.1 with }, fun hk => ?_⟩, h.1.2⟩
  exact absurd rfl (of_decide_eq_true (List.mem_filter.mp hk).2)

end EncryptedVoiceTakeStore

/-! ## The calls -/

/-- The call has completed. -/
def Completed (k : Nat) (g : Watch) : Prop :=
  (∀ s ∈ g.saving, s.id ≠ k) ∧ k ∉ g.erasing ∧ k ∉ g.wiping

/-- What is known of a call that has returned. -/
def Returned (k : Nat) : VaultCall → Except Thrown Unit → Vault → Prop
  | _, .error _, _ => True
  | .saveTake skill bytes, .ok _, d => Completed k d.ghost ∧ d.ghost.erased ≠ k + 1 ∧
    ∃ save ∈ d.ghost.begun, save.id = k ∧ save.skill = skill ∧ save.bytes = bytes ∧ HasLanded save d
  | .eraseAll, .ok _, d => Completed k d.ghost ∧ k < d.ghost.erased

theorem Completed.rely (h : Completed k d.ghost) (hrely : Rely k d t) : Completed k t.ghost :=
  ⟨fun s hs hid => h.1 s ((hrely.saving s hid).mp hs) hid, fun hk => h.2.1 (hrely.erasing.mp hk),
    fun hk => h.2.2 (hrely.wiping.mp hk)⟩

theorem stable_returned (r : Except Thrown Unit) : VaultStable aes k c (Returned k c r) := by
  intro s₀ d t hguar hrely hinv h
  cases r with
  | error e => cases c <;> trivial
  | ok a =>
    cases c with
    | saveTake skill bytes =>
      obtain ⟨hcompleted, herased, save, hbegun, hid, hskill, hbytes, hlanded⟩ := h
      refine ⟨hcompleted.rely hrely, fun hk => herased (hrely.notErased hk), save,
        hrely.begun save hbegun, hid, hskill, hbytes, fun hnew => ?_⟩
      exact hrely.writes _ (hlanded (new_of_rely hguar hrely hbegun hnew).1)
    | eraseAll => exact ⟨h.1.rely hrely, Nat.lt_of_lt_of_le h.2 hrely.erased⟩

/-- What is left of the number `k` before the call is made. -/
theorem unborn_save {d : Vault} (hcore : Core aes d) (hunborn : d.ghost.made ≤ k) {s : Save}
    (hs : s ∈ d.ghost.begun) : s.id ≠ k :=
  Nat.ne_of_lt (Nat.lt_of_lt_of_le (hcore.made s hs) hunborn)

theorem saveTake_keeps {d : Vault} (hinv : (vaultContract aes).inv d) (hunborn : d.ghost.made ≤ k)
    (skill : DartString) (bytes : Bytes) :
    Async.Keeps (vaultContract aes) k (.saveTake skill bytes) (vaultProgram aes k (.saveTake skill bytes))
      (Async.Ends (vaultContract aes) k (.saveTake skill bytes) (Returned k (.saveTake skill bytes)))
      d d := by
  have hcore := hinv.1
  let save : Save := ⟨k, skill, bytes, d.epoch, d.ghost.erasing.isEmpty⟩
  have hrest : VaultRuns aes k (.saveTake skill bytes)
      (fun d => (Underway k save d.ghost ∧ Before save d) ∧ save.epoch = d.epoch)
      (do
        (vaultStore aes k).saveTake skill ⟨bytes, save⟩
        Async.modify (Device.watch fun g => { g with saving := g.saving.filter (· ≠ save) }))
      (fun a => Returned k (.saveTake skill bytes) (.ok a)) fun _ => True := by
    refine .bind EncryptedVoiceTakeStore.saveTake_runs fun _ => .modify fun _ s hduring h => ?_
    obtain ⟨hunderway, hlanded, hdone⟩ := h
    refine ⟨hduring.finish hunderway.id ?_, ⟨fun s hs hid => ?_, hunderway.erasing, hunderway.wiping⟩,
      hunderway.notErased, save, hunderway.begun, rfl, rfl, rfl, hlanded⟩
    · exact hdone
    · obtain ⟨hmem, hne⟩ := List.mem_filter.mp hs
      exact of_decide_eq_true hne (hunderway.only s hmem hid)
  refine hrest.ends ((During.start hinv).beginSave hunborn skill bytes rfl) ⟨⟨?_, ?_⟩, rfl⟩
    (fun a => stable_returned (.ok a)) fun _ _ => trivial
  · refine ⟨rfl, List.mem_cons_self, List.mem_cons_self, ?_, fun hk => ?_, fun hk => ?_, ?_⟩
    · rintro s (_ | ⟨_, hs⟩) hid
      · rfl
      · exact absurd hid (unborn_save hcore hunborn (hcore.saving s hs))
    · exact absurd (hcore.erasing k hk) (Nat.not_lt_of_le hunborn)
    · exact absurd (hcore.wiping k hk) (Nat.not_lt_of_le hunborn)
    · exact Nat.ne_of_lt (Nat.lt_succ_of_le (Nat.le_trans hcore.erased hunborn))
  · refine ⟨fun hs => ?_, fun hs => ?_, fun name take hfind horigin => ?_⟩
    · exact unborn_save hcore hunborn (hcore.entered save hs) rfl
    · exact unborn_save hcore hunborn (hcore.left save hs) rfl
    · exact unborn_save hcore hunborn (horigin ▸ (hcore.origin name take hfind).1) rfl

theorem eraseAll_keeps {d : Vault} (hinv : (vaultContract aes).inv d) (hunborn : d.ghost.made ≤ k) :
    Async.Keeps (vaultContract aes) k .eraseAll (vaultProgram aes k .eraseAll)
      (Async.Ends (vaultContract aes) k .eraseAll (Returned k .eraseAll)) d d := by
  have hcore := hinv.1
  have hcompleted : VaultStable aes k .eraseAll fun d => Erasing k d.ghost ∧ k ∉ d.ghost.wiping :=
    fun _ _ _ _ hrely _ h => ⟨h.1.rely hrely, fun hk => h.2 (hrely.wiping.mp hk)⟩
  have hrest : VaultRuns aes k .eraseAll (fun d => Erasing k d.ghost)
      (do
        Async.awaiting (EncryptedVoiceTakeStore.locked k do
          Async.modify fun d => { d with cachedKey := none }
          Async.io fun _ d => (.ok (), { d with keyStorage := none })
          Async.awaiting (watched k (fileVoiceTakeStore fun _ => .none)).eraseAll)
        Async.modify (Device.watch fun g => { g with erasing := g.erasing.filter (· ≠ k) }))
      (fun a => Returned k .eraseAll (.ok a)) fun _ => True := by
    refine .bind ((EncryptedVoiceTakeStore.locked_runs stable_erasing EncryptedVoiceTakeStore.erase_runs
      (fun _ => hcompleted) fun _ _ _ h => h).awaiting fun _ => hcompleted) fun _ =>
      .modify fun _ s hduring h => ⟨hduring.finishErase, ⟨h.1.noSave, fun hk => ?_, h.2⟩, h.1.erased⟩
    exact absurd rfl (of_decide_eq_true (List.mem_filter.mp hk).2)
  refine hrest.ends ((During.start hinv).beginErase hunborn) ?_ (fun a => stable_returned (.ok a))
    fun _ _ => trivial
  exact ⟨List.mem_cons_self, Nat.lt_succ_self k, fun s hs => unborn_save hcore hunborn (hcore.saving s hs)⟩

theorem vaultProgram_keeps (aes : AesGcm) :
    KeepsContract (vaultContract aes) Returned (vaultProgram aes) := by
  intro k c d hinv hunborn
  cases c with
  | saveTake skill bytes => exact saveTake_keeps hinv hunborn skill bytes
  | eraseAll => exact eraseAll_keeps hinv hunborn

end Apm.Takes
