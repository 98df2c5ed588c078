import Apm.Takes.Stores
import Mathlib.Data.List.Dedup

/-!
# The stores alone

What the methods of the file store and of the key-value store do when nothing else runs and
no storage fails: they keep two takes of each skill, and find them again when they differ.
-/

namespace Apm.Takes

open Apm.Lib

set_option autoImplicit false

/-! ## Names -/

theorem safeStorageKey_idem (raw : DartString) :
    safeStorageKey (safeStorageKey raw) = safeStorageKey raw := by
  rw [safeStorageKey, safeStorageKey, List.map_map]
  refine List.map_congr_left fun unit _ => ?_
  show (if isSafe (if isSafe unit then unit else 95) then (if isSafe unit then unit else 95) else 95) =
    if isSafe unit then unit else 95
  cases hsafe : isSafe unit with
  | true => exact if_pos hsafe
  | false => exact if_pos (show isSafe 95 = true by decide)

theorem baselineName_inj {skill other : DartString} :
    baselineName skill = baselineName other ↔ safeStorageKey skill = safeStorageKey other :=
  List.append_left_inj _

theorem latestName_inj {skill other : DartString} :
    latestName skill = latestName other ↔ safeStorageKey skill = safeStorageKey other :=
  List.append_left_inj _

theorem baselineName_ne_latestName (skill other : DartString) :
    baselineName skill ≠ latestName other := by
  intro h
  have hlast := congrArg List.getLast? h
  simp [baselineName, latestName, ascii, codeUnit] at hlast

theorem mem_stems {names : List DartString} {skill : DartString}
    (h : baselineName skill ∈ names ∨ latestName skill ∈ names) : safeStorageKey skill ∈ stems names := by
  rw [stems, List.mem_dedup, List.mem_filterMap]
  rcases h with h | h
  · refine ⟨baselineName skill, h, ?_⟩
    have hsuffix : (ascii ['.', 'b', 'a', 's', 'e', 'l', 'i', 'n', 'e']).isSuffixOf (baselineName skill) =
        true := List.isSuffixOf_iff_suffix.mpr (List.suffix_append _ _)
    have hstem : (baselineName skill).take ((baselineName skill).length -
        (ascii ['.', 'b', 'a', 's', 'e', 'l', 'i', 'n', 'e']).length) = safeStorageKey skill := by
      rw [baselineName, List.length_append, Nat.add_sub_cancel, List.take_left]
    simp only [hsuffix, if_true, hstem]
  · refine ⟨latestName skill, h, ?_⟩
    have hbaseline : (ascii ['.', 'b', 'a', 's', 'e', 'l', 'i', 'n', 'e']).isSuffixOf (latestName skill) =
        false := by
      rw [Bool.eq_false_iff, Ne, List.isSuffixOf_iff_suffix]
      rintro ⟨stem, hstem⟩
      have hlast := congrArg List.getLast? hstem
      simp [latestName, ascii, codeUnit] at hlast
    have hsuffix : (ascii ['.', 'l', 'a', 't', 'e', 's', 't']).isSuffixOf (latestName skill) = true :=
      List.isSuffixOf_iff_suffix.mpr (List.suffix_append _ _)
    have hstem : (latestName skill).take ((latestName skill).length -
        (ascii ['.', 'l', 'a', 't', 'e', 's', 't']).length) = safeStorageKey skill := by
      rw [latestName, List.length_append, Nat.add_sub_cancel, List.take_left]
    simp only [hbaseline, hsuffix, Bool.false_eq_true, if_false, if_true, hstem]

section spec

variable {ι τ γ : Type}

/-- What the stores above keep in memory, and the secure storage, stay as they are. -/
structure SameMemory (d d' : Device τ γ) : Prop where
  epoch : d'.epoch = d.epoch
  cachedKey : d'.cachedKey = d.cachedKey
  keyStorage : d'.keyStorage = d.keyStorage
  keyLock : d'.keyLock = d.keyLock
  now : d'.now = d.now

theorem SameMemory.refl (d : Device τ γ) : SameMemory d d := ⟨rfl, rfl, rfl, rfl, rfl⟩

theorem SameMemory.trans {d d' d'' : Device τ γ} (h : SameMemory d d') (h' : SameMemory d' d'') :
    SameMemory d d'' where
  epoch := h'.epoch.trans h.epoch
  cachedKey := h'.cachedKey.trans h.cachedKey
  keyStorage := h'.keyStorage.trans h.keyStorage
  keyLock := h'.keyLock.trans h.keyLock
  now := h'.now.trans h.now

/-- The takes of a skill, when there are two and they differ. -/
def compared : Option (Take τ) → Option (Take τ) → Option (VoiceTakes τ)
  | some b, some l => if b.bytes = l.bytes then none else some ⟨b, l⟩
  | _, _ => none

theorem compared_of_ne {b l : Take τ} (h : b.bytes ≠ l.bytes) :
    compared (some b) (some l) = some ⟨b, l⟩ := if_neg h

theorem compared_eq_some {x y : Option (Take τ)} {b l : Take τ} (h : compared x y = some ⟨b, l⟩) :
    x = some b ∧ y = some l ∧ b.bytes ≠ l.bytes := by
  cases x with
  | none => cases h
  | some b' =>
    cases y with
    | none => cases h
    | some l' =>
      rw [compared] at h
      split_ifs at h with hne
      cases h
      exact ⟨rfl, rfl, hne⟩

/-- A store that keeps two takes of each skill. `Ready` is what it needs of the device. -/
structure KeepsTakes (answer : ι) (Ready : Device τ γ → Prop) (store : VoiceTakeStore ι τ γ) :
    Prop where
  ready_congr : ∀ d d' : Device τ γ, d'.directory = d.directory → d'.entries = d.entries → Ready d →
    Ready d'
  saveTake : ∀ d skill take, Ready d → Async.Returns answer (store.saveTake skill take) d fun _ d' =>
    Ready d' ∧ SameMemory d d' ∧
      d'.find (latestName skill) = some take ∧
      d'.find (baselineName skill) = some ((d.find (baselineName skill)).getD take) ∧
      ∀ name, name ≠ baselineName skill → name ≠ latestName skill → d'.find name = d.find name
  takesFor : ∀ d skill, Ready d → Async.Returns answer (store.takesFor skill) d fun takes d' =>
    Ready d' ∧ SameMemory d d' ∧ d'.find = d.find ∧
      takes = compared (d.find (baselineName skill)) (d.find (latestName skill))
  deleteSkill : ∀ d skill, Ready d → Async.Returns answer (store.deleteSkill skill) d fun _ d' =>
    Ready d' ∧ SameMemory d d' ∧
      d'.find (latestName skill) = none ∧
      d'.find (baselineName skill) = none ∧
      ∀ name, name ≠ baselineName skill → name ≠ latestName skill → d'.find name = d.find name
  knownSkills : ∀ d, Ready d → Async.Returns answer store.knownSkills d fun skills d' =>
    Ready d' ∧ SameMemory d d' ∧ d'.find = d.find ∧
      ∀ skill, d.find (baselineName skill) ≠ none ∨ d.find (latestName skill) ≠ none →
        safeStorageKey skill ∈ skills

variable {answer : ι} {failure : Failure ι}

theorem mem_keys_of_find {d : Device τ γ} {name : DartString} (h : d.find name ≠ none) :
    name ∈ d.entries.keys := by
  obtain ⟨take, htake⟩ := Option.ne_none_iff_exists'.mp h
  exact AList.mem_keys.mp (AList.lookup_isSome.mp (Option.isSome_iff_exists.mpr ⟨take, htake⟩))

/-! ## The key-value store -/

namespace KvVoiceTakeStore

variable (name : DartString) {d : Device τ γ}

theorem read_exec : Async.exec answer (read name) d = some (.ok (d.find name), d) := rfl

theorem delete_exec : Async.exec answer (delete name) d = some (.ok (), d.remove name) := rfl

end KvVoiceTakeStore

theorem kvVoiceTakeStore_keepsTakes :
    KeepsTakes answer (fun _ : Device τ γ => True) (kvVoiceTakeStore failure) where
  ready_congr _ _ _ _ _ := trivial
  saveTake d skill take _ := by
    have hne := baselineName_ne_latestName skill skill
    refine .next (KvVoiceTakeStore.read_exec _) ?_
    refine .bind (P := fun _ t => SameMemory d t ∧
        t.find (baselineName skill) = some ((d.find (baselineName skill)).getD take) ∧
        ∀ name, name ≠ baselineName skill → t.find name = d.find name) (.when ?_ ?_) ?_
    · intro habsent
      rw [Option.isNone_iff_eq_none.mp habsent]
      exact .io rfl ⟨⟨rfl, rfl, rfl, rfl, rfl⟩, Device.find_put_self, fun _ => Device.find_put_of_ne⟩
    · intro hpresent
      obtain ⟨b, hb⟩ := Option.isSome_iff_exists.mp (Option.isNone_eq_false_iff.mp hpresent)
      exact ⟨.refl d, by rw [hb, Option.getD_some], fun _ _ => rfl⟩
    · rintro _ t ⟨hmemory, hkept, hrest⟩
      refine .io rfl ⟨trivial, ⟨hmemory.1, hmemory.2, hmemory.3, hmemory.4, hmemory.5⟩,
        Device.find_put_self, ?_, fun name hb hl => ?_⟩
      · rw [Device.find_put_of_ne hne, hkept]
      · rw [Device.find_put_of_ne hl, hrest name hb]
  takesFor d skill _ := by
    refine .next (KvVoiceTakeStore.read_exec _) (.next (KvVoiceTakeStore.read_exec _) ?_)
    cases d.find (baselineName skill) with
    | none => exact .pure ⟨trivial, .refl d, rfl, rfl⟩
    | some b =>
      cases d.find (latestName skill) with
      | none => exact .pure ⟨trivial, .refl d, rfl, rfl⟩
      | some l =>
        by_cases hsame : b.bytes = l.bytes
        · simp only [compared, hsame, if_true]
          exact .pure ⟨trivial, .refl d, rfl, rfl⟩
        · simp only [compared, hsame, if_false]
          exact .pure ⟨trivial, .refl d, rfl, rfl⟩
  deleteSkill d skill _ := by
    refine .next (KvVoiceTakeStore.delete_exec _) ?_
    refine .io rfl ⟨trivial, ⟨rfl, rfl, rfl, rfl, rfl⟩, Device.find_remove_self, ?_, fun name hb hl => ?_⟩
    · rw [Device.find_remove_of_ne (baselineName_ne_latestName skill skill), Device.find_remove_self]
    · rw [Device.find_remove_of_ne hl, Device.find_remove_of_ne hb]
  knownSkills d _ := .io rfl ⟨trivial, .refl d, rfl, fun skill h =>
    mem_stems (h.imp mem_keys_of_find mem_keys_of_find)⟩

/-! ## The file store -/

namespace FileVoiceTakeStore

/-- A directory that does not exist holds no files. -/
def Ready (d : Device τ γ) : Prop := d.directory = false → ∀ name, d.find name = none

/-- The files are as they were, and the directory exists when it did. -/
structure SameFiles (d d' : Device τ γ) : Prop where
  memory : SameMemory d d'
  fileEpoch : d'.fileEpoch = d.fileEpoch
  find : d'.find = d.find
  directory : d.directory = true → d'.directory = true

theorem SameFiles.refl (d : Device τ γ) : SameFiles d d := ⟨.refl d, rfl, rfl, id⟩

theorem SameFiles.trans {d d' d'' : Device τ γ} (h : SameFiles d d') (h' : SameFiles d' d'') :
    SameFiles d d'' where
  memory := h.memory.trans h'.memory
  fileEpoch := h'.fileEpoch.trans h.fileEpoch
  find := h'.find.trans h.find
  directory := h'.directory ∘ h.directory

theorem SameFiles.ready {d d' : Device τ γ} (h : SameFiles d d') (hd : Ready d) : Ready d' := by
  intro habsent name
  rw [h.find]
  refine hd (Bool.eq_false_iff.mpr fun hpresent => ?_) name
  rw [h.directory hpresent] at habsent
  cases habsent

theorem ready_of_directory {d : Device τ γ} (h : d.directory = true) : Ready d := by
  intro habsent
  rw [h] at habsent
  cases habsent

theorem dirExists_exec {d : Device τ γ} :
    Async.exec answer dirExists d = some (.ok d.directory, d) := rfl

theorem fileExists_exec {d : Device τ γ} (name : DartString) :
    Async.exec answer (fileExists name) d = some (.ok (d.find name).isSome, d) := rfl

theorem openDir_returns (d : Device τ γ) : Async.Returns answer openDir d fun _ t => SameFiles d t := by
  refine .next (Async.exec_get _ _) (.when (fun _ => .next (Async.exec_hop _ _) ?_) fun _ => .refl d)
  exact .modify ⟨⟨rfl, rfl, rfl, rfl, rfl⟩, rfl, rfl, id⟩

theorem dir_returns (d : Device τ γ) :
    Async.Returns answer dir_ d fun _ t => SameFiles d t ∧ t.directory = true := by
  refine .bind (openDir_returns d) fun _ t ht => .next dirExists_exec ?_
  refine .when (fun _ => ?_) fun hpresent => ⟨ht, by simpa using hpresent⟩
  exact .io rfl ⟨ht.trans ⟨⟨rfl, rfl, rfl, rfl, rfl⟩, rfl, rfl, fun _ => rfl⟩, rfl⟩

theorem writeAsBytes_returns {d : Device τ γ} (h : d.directory = true) (name : DartString)
    (take : Take τ) : Async.Returns answer (writeAsBytes name take) d fun _ t => t = d.put name take :=
  .io (if_pos h) rfl

theorem readAsBytes_exec {d : Device τ γ} {name : DartString} {take : Take τ}
    (h : d.find name = some take) :
    Async.exec answer (readAsBytes name) d = some (.ok take, d) := by
  rw [readAsBytes, Async.exec_io, h]

theorem delete_returns {d : Device τ γ} {name : DartString} (h : (d.find name).isSome = true) :
    Async.Returns answer (delete name) d fun _ t => t = d.remove name := .io (if_pos h) rfl

theorem saveTake_returns (d : Device τ γ) (skill : DartString) (take : Take τ) :
    Async.Returns answer (saveTake skill take) d fun _ t => SameMemory d t ∧ t.directory = true ∧
      t.find (latestName skill) = some take ∧
      t.find (baselineName skill) = some ((d.find (baselineName skill)).getD take) ∧
      ∀ name, name ≠ baselineName skill → name ≠ latestName skill → t.find name = d.find name := by
  refine .next (Async.exec_get _ _) (.bind (dir_returns d).awaiting ?_)
  rintro _ t ⟨hsame, hdirectory⟩
  refine .next (Async.exec_get _ _) ?_
  rw [if_neg (not_not.mpr hsame.fileEpoch)]
  refine .next (fileExists_exec _) ?_
  refine .bind (P := fun _ u => SameMemory d u ∧ u.directory = true ∧ u.fileEpoch = d.fileEpoch ∧
      u.find (baselineName skill) = some ((d.find (baselineName skill)).getD take) ∧
      ∀ name, name ≠ baselineName skill → u.find name = d.find name) (.when ?_ ?_) ?_
  · intro habsent
    have hnone : d.find (baselineName skill) = none := by
      rw [← hsame.find]
      simpa using habsent
    refine (writeAsBytes_returns hdirectory _ take).mono ?_
    rintro _ _ rfl
    refine ⟨hsame.memory.trans ⟨rfl, rfl, rfl, rfl, rfl⟩, hdirectory, hsame.fileEpoch, ?_,
      fun name hname => ?_⟩
    · rw [Device.find_put_self, hnone, Option.getD_none]
    · rw [Device.find_put_of_ne hname, hsame.find]
  · intro hpresent
    obtain ⟨b, hb⟩ : ∃ b, d.find (baselineName skill) = some b := by
      rw [← hsame.find]
      exact Option.isSome_iff_exists.mp (by simpa using hpresent)
    refine ⟨hsame.memory, hdirectory, hsame.fileEpoch, ?_, fun name _ => by rw [hsame.find]⟩
    rw [hsame.find, hb, Option.getD_some]
  · rintro _ u ⟨hmemory, hdirectory, hepoch, hbaseline, hrest⟩
    refine .next (Async.exec_get _ _) ?_
    rw [if_neg (not_not.mpr hepoch)]
    refine (writeAsBytes_returns hdirectory _ take).mono ?_
    rintro _ _ rfl
    refine ⟨hmemory.trans ⟨rfl, rfl, rfl, rfl, rfl⟩, hdirectory, Device.find_put_self, ?_,
      fun name hb hl => ?_⟩
    · rw [Device.find_put_of_ne (baselineName_ne_latestName skill skill), hbaseline]
    · rw [Device.find_put_of_ne hl, hrest name hb]

theorem takesFor_returns (d : Device τ γ) (skill : DartString) :
    Async.Returns answer (takesFor skill) d fun takes t => SameFiles d t ∧
      takes = compared (d.find (baselineName skill)) (d.find (latestName skill)) := by
  refine .bind (dir_returns d).awaiting ?_
  rintro _ t ⟨hsame, -⟩
  rw [← hsame.find]
  refine .next (fileExists_exec _) ?_
  cases hb : t.find (baselineName skill) with
  | none => exact .pure ⟨hsame, rfl⟩
  | some b =>
    refine .next (fileExists_exec _) ?_
    cases hl : t.find (latestName skill) with
    | none => exact .pure ⟨hsame, rfl⟩
    | some l =>
      refine .next (readAsBytes_exec hb) ?_
      refine .next (readAsBytes_exec hl) ?_
      by_cases heq : b.bytes = l.bytes
      · simp only [compared, heq, if_true]
        exact .pure ⟨hsame, rfl⟩
      · simp only [compared, heq, if_false]
        exact .pure ⟨hsame, rfl⟩

theorem deleteIfPresent_returns (d : Device τ γ) (name : DartString) :
    Async.Returns answer (Async.when (d.find name).isSome (delete name)) d fun _ t =>
      SameMemory d t ∧ t.directory = d.directory ∧ t.find name = none ∧
        ∀ other, other ≠ name → t.find other = d.find other := by
  refine .when (fun hpresent => (delete_returns hpresent).mono ?_) fun habsent => ?_
  · rintro _ _ rfl
    exact ⟨⟨rfl, rfl, rfl, rfl, rfl⟩, rfl, Device.find_remove_self, fun _ => Device.find_remove_of_ne⟩
  · exact ⟨.refl d, rfl, Option.isSome_eq_false_iff.mp habsent |> Option.isNone_iff_eq_none.mp,
      fun _ _ => rfl⟩

theorem deleteSkill_returns {d : Device τ γ} (hd : Ready d) (skill : DartString) :
    Async.Returns answer (deleteSkill skill) d fun _ t => Ready t ∧ SameMemory d t ∧
      t.find (latestName skill) = none ∧
      t.find (baselineName skill) = none ∧
      ∀ name, name ≠ baselineName skill → name ≠ latestName skill → t.find name = d.find name := by
  refine .bind (openDir_returns d) fun _ t ht => .next dirExists_exec ?_
  cases hdirectory : t.directory with
  | false =>
    have hnone := ht.ready hd hdirectory
    refine .pure ⟨ht.ready hd, ht.memory, hnone _, hnone _, fun name _ _ => ?_⟩
    rw [ht.find]
  | true =>
    refine .next (fileExists_exec _) (.bind (deleteIfPresent_returns t _) ?_)
    rintro _ u ⟨hmemory, hdirectory', hbaseline, hrest⟩
    refine .next (fileExists_exec _) ((deleteIfPresent_returns u _).mono ?_)
    rintro _ v ⟨hmemory', hdirectory'', hlatest, hrest'⟩
    refine ⟨ready_of_directory (hdirectory''.trans (hdirectory'.trans hdirectory)),
      ht.memory.trans (hmemory.trans hmemory'), hlatest, ?_, fun name hb hl => ?_⟩
    · rw [hrest' _ (baselineName_ne_latestName skill skill), hbaseline]
    · rw [hrest' _ hl, hrest _ hb, ht.find]

theorem knownSkills_returns {d : Device τ γ} (hd : Ready d) :
    Async.Returns answer knownSkills d fun skills t => SameFiles d t ∧
      ∀ skill, d.find (baselineName skill) ≠ none ∨ d.find (latestName skill) ≠ none →
        safeStorageKey skill ∈ skills := by
  refine .bind (openDir_returns d) fun _ t ht => .next dirExists_exec ?_
  cases hdirectory : t.directory with
  | false =>
    refine .pure ⟨ht, fun skill h => ?_⟩
    rw [← ht.find, ht.ready hd hdirectory, ht.ready hd hdirectory] at h
    cases h with
    | inl h => exact absurd rfl h
    | inr h => exact absurd rfl h
  | true =>
    refine .io rfl ⟨ht, fun skill h => ?_⟩
    rw [← ht.find] at h
    exact mem_stems (h.imp mem_keys_of_find mem_keys_of_find)

end FileVoiceTakeStore

open FileVoiceTakeStore in
theorem fileVoiceTakeStore_keepsTakes :
    KeepsTakes answer (fun d : Device τ γ => Ready d) (fileVoiceTakeStore failure) where
  ready_congr d d' hdirectory hentries hd := by
    simpa only [Ready, Device.find, hdirectory, hentries] using hd
  saveTake d skill take _ := (saveTake_returns d skill take).mono
    fun _ _ ⟨hmemory, hdirectory, hsaved⟩ => ⟨ready_of_directory hdirectory, hmemory, hsaved⟩
  takesFor d skill hd := (takesFor_returns d skill).mono
    fun _ _ ⟨hsame, htakes⟩ => ⟨hsame.ready hd, hsame.memory, hsame.find, htakes⟩
  deleteSkill _ skill hd := deleteSkill_returns hd skill
  knownSkills _ hd := (knownSkills_returns hd).mono
    fun _ _ ⟨hsame, hskills⟩ => ⟨hsame.ready hd, hsame.memory, hsame.find, hskills⟩

/-- What the store needs of the device. -/
def Backend.Ready : Backend → Device τ γ → Prop
  | .file => FileVoiceTakeStore.Ready
  | .keyValue => fun _ => True

theorem Backend.keepsTakes (answer : ι) (failure : Failure ι) (backend : Backend) :
    KeepsTakes answer backend.Ready (backend.store failure : VoiceTakeStore ι τ γ) := by
  cases backend with
  | file => exact fileVoiceTakeStore_keepsTakes
  | keyValue => exact kvVoiceTakeStore_keepsTakes

end spec

end Apm.Takes
