import Apm.Lib.EventLoop
import Apm.Takes.Stores

/-!
# No user hears another

The calls of `UserScopedVoiceTakeStore` run interleaved over the file store or the key-value
store, users come and go, and purges fail half-way. A name on the device begins with the
digits of a user id, so what is kept under a name was saved by that user.
-/

namespace Apm.Takes

open Apm.Lib

set_option autoImplicit false

/-! ## Names -/

theorem digit_toNat {n : Nat} {c : Char} (hc : c ∈ Nat.toDigits 10 n) :
    48 ≤ c.toNat ∧ c.toNat ≤ 57 := by
  have hdigit := Nat.isDigit_of_mem_toDigits (by decide) (by decide) hc
  rw [Char.isDigit, Bool.and_eq_true, decide_eq_true_iff, decide_eq_true_iff] at hdigit
  exact ⟨hdigit.1, hdigit.2⟩

theorem codeUnit_toNat {n : Nat} {c : Char} (hc : c ∈ Nat.toDigits 10 n) :
    (codeUnit c).toNat = c.toNat := by
  have hdigit := digit_toNat hc
  show c.toNat % 65536 = c.toNat
  omega

theorem decimal_inj {u v : Nat} (h : decimal u = decimal v) : u = v := by
  have hback : ∀ n, (decimal n).map (fun unit => Char.ofNat unit.toNat) = Nat.toDigits 10 n := by
    intro n
    rw [decimal, ascii, List.map_map]
    refine (List.map_congr_left fun c hc => ?_).trans (List.map_id _)
    show Char.ofNat (codeUnit c).toNat = c
    rw [codeUnit_toNat hc, Char.ofNat_toNat]
  calc
    u = Nat.ofDigitChars 10 (Nat.toDigits 10 u) 0 := Nat.ofDigitChars_ten_toDigits.symm
    _ = Nat.ofDigitChars 10 (Nat.toDigits 10 v) 0 := by rw [← hback u, ← hback v, h]
    _ = v := Nat.ofDigitChars_ten_toDigits

theorem mem_decimal {n : Nat} {unit : UInt16} (h : unit ∈ decimal n) :
    48 ≤ unit.toNat ∧ unit.toNat ≤ 57 := by
  obtain ⟨c, hc, rfl⟩ := List.mem_map.mp h
  rw [codeUnit_toNat hc]
  exact digit_toNat hc

theorem isSafe_of_mem_decimal {n : Nat} {unit : UInt16} (h : unit ∈ decimal n) :
    isSafe unit = true := by
  have hdigit := mem_decimal h
  simp only [isSafe, Bool.or_eq_true, Bool.and_eq_true, decide_eq_true_iff, UInt16.le_iff_toNat_le]
  exact .inl (.inl (.inr hdigit))

/-- The name of a user's skill, up to its suffix. -/
theorem safeStorageKey_scopedSkill (u : Nat) (skill : DartString) :
    safeStorageKey (UserScopedVoiceTakeStore.scopedSkill u skill) =
      decimal u ++ 95 :: safeStorageKey skill := by
  rw [UserScopedVoiceTakeStore.scopedSkill, safeStorageKey, List.map_append]
  congr 1
  refine (List.map_congr_left fun unit hunit => ?_).trans (List.map_id _)
  rw [isSafe_of_mem_decimal hunit]
  rfl

theorem not_mem_decimal (n : Nat) : (95 : UInt16) ∉ decimal n := by
  intro h
  have hdigit := mem_decimal h
  revert hdigit
  decide

/-- The names under which a user's takes are kept. -/
def NameOf (u : Nat) (name : DartString) : Prop := ∃ rest, name = decimal u ++ 95 :: rest

theorem NameOf.unique {u v : Nat} {name : DartString} (hu : NameOf u name) (hv : NameOf v name) :
    u = v := by
  obtain ⟨rest, rfl⟩ := hu
  obtain ⟨rest', hname⟩ := hv
  -- the first underscore ends the digits
  have hsplit := congrArg (List.takeWhile (· ≠ 95)) hname
  have hwhile : ∀ n (rest : DartString),
      (decimal n ++ 95 :: rest).takeWhile (· ≠ 95) = decimal n := by
    intro n rest
    rw [List.takeWhile_append_of_pos]
    · simp
    · intro unit hunit
      have hne : unit ≠ 95 := fun h => not_mem_decimal n (h ▸ hunit)
      simpa using hne
  rw [hwhile, hwhile] at hsplit
  exact decimal_inj hsplit

theorem nameOf_baseline (u : Nat) (skill : DartString) :
    NameOf u (baselineName (UserScopedVoiceTakeStore.scopedSkill u skill)) :=
  ⟨_, by rw [baselineName, safeStorageKey_scopedSkill, List.append_assoc, List.cons_append]⟩

theorem nameOf_latest (u : Nat) (skill : DartString) :
    NameOf u (latestName (UserScopedVoiceTakeStore.scopedSkill u skill)) :=
  ⟨_, by rw [latestName, safeStorageKey_scopedSkill, List.append_assoc, List.cons_append]⟩

/-! ## What the stores keep -/

section stores

variable {ι γ : Type}

/-- Whatever is kept under a user's name was saved when that user was signed in. -/
def KeptByOwner (d : Device (Option Nat) γ) : Prop :=
  ∀ name take, d.find name = some take → ∃ u, take.origin = some u ∧ NameOf u name

/-- Takes that were both saved when the user was signed in. -/
def TakesOf (u : Nat) (takes : Option (VoiceTakes (Option Nat))) : Prop :=
  ∀ t, takes = some t → t.baseline.origin = some u ∧ t.latest.origin = some u

variable {d : Device (Option Nat) γ} {u : Nat} {name : DartString} {take : Take (Option Nat)}

theorem KeptByOwner.put (h : KeptByOwner d) (htake : take.origin = some u) (hname : NameOf u name) :
    KeptByOwner (d.put name take) := by
  intro other t hfind
  by_cases hother : other = name
  · subst hother
    rw [Device.find_put_self] at hfind
    cases hfind
    exact ⟨u, htake, hname⟩
  · rw [Device.find_put_of_ne hother] at hfind
    exact h other t hfind

theorem KeptByOwner.remove (h : KeptByOwner d) : KeptByOwner (d.remove name) :=
  fun other t hfind => h other t (Device.find_of_find_remove hfind)

theorem KeptByOwner.removeAll (h : KeptByOwner d) (names : List DartString) :
    KeptByOwner (d.removeAll names) :=
  fun other t hfind => h other t (Device.find_of_find_removeAll hfind)

theorem keptByOwner_empty {d : Device (Option Nat) γ} (h : d.entries = ∅) : KeptByOwner d := by
  intro name take hfind
  rw [Device.find, h, AList.lookup_empty] at hfind
  cases hfind

theorem KeptByOwner.origin (h : KeptByOwner d) (hname : NameOf u name)
    (hfind : d.find name = some take) : take.origin = some u := by
  obtain ⟨v, hv, hnamev⟩ := h name take hfind
  rw [hv, hname.unique hnamev]

/-- A store that keeps the takes of each user apart. -/
structure KeepsApart (store : VoiceTakeStore ι (Option Nat) γ) : Prop where
  saveTake : ∀ u skill take, take.origin = some u →
    Async.Preserves KeptByOwner (fun _ => True)
      (store.saveTake (UserScopedVoiceTakeStore.scopedSkill u skill) take)
  takesFor : ∀ u skill, Async.Preserves KeptByOwner (TakesOf u)
    (store.takesFor (UserScopedVoiceTakeStore.scopedSkill u skill))
  eraseAll : Async.Preserves KeptByOwner (fun _ => True) store.eraseAll
  deleteSkill : ∀ skill, Async.Preserves KeptByOwner (fun _ => True) (store.deleteSkill skill)

theorem takesOf_none (u : Nat) : TakesOf u none := fun _ h => by cases h

theorem takesOf_some {b l : Take (Option Nat)} (hb : b.origin = some u) (hl : l.origin = some u) :
    TakesOf u (some ⟨b, l⟩) := by
  rintro t ⟨⟩
  exact ⟨hb, hl⟩

namespace FileVoiceTakeStore

/-- An operation that only reads. -/
theorem preserves_read {α : Type} (op : Device (Option Nat) γ → α) :
    Async.Preserves KeptByOwner (fun _ => True)
      (Async.io fun (_ : ι) d => (.ok (op d), d) : OnDevice ι _ γ α) :=
  .io fun _ _ hd => ⟨hd, fun _ _ => trivial⟩

theorem preserves_openDir : Async.Preserves KeptByOwner (fun _ => True)
    (openDir : OnDevice ι (Option Nat) γ Unit) :=
  .bind .get fun _ _ => .when (.bind .hop fun _ _ => .modify fun _ hd => hd)

theorem preserves_dir : Async.Preserves KeptByOwner (fun _ => True)
    (dir_ : OnDevice ι (Option Nat) γ Unit) :=
  .bind preserves_openDir fun _ _ => .bind (preserves_read _) fun _ _ =>
    .when (.io fun _ _ hd => ⟨hd, fun _ _ => trivial⟩)

theorem preserves_writeAsBytes (htake : take.origin = some u) (hname : NameOf u name) :
    Async.Preserves KeptByOwner (fun _ => True)
      (writeAsBytes name take : OnDevice ι (Option Nat) γ Unit) := by
  refine .io fun _ d hd => ?_
  split_ifs
  · exact ⟨hd.put htake hname, fun _ _ => trivial⟩
  · exact ⟨hd, fun _ _ => trivial⟩

theorem preserves_readAsBytes (hname : NameOf u name) :
    Async.Preserves KeptByOwner (fun take => take.origin = some u)
      (readAsBytes name : OnDevice ι (Option Nat) γ (Take (Option Nat))) := by
  refine .io fun _ d hd => ?_
  split
  · rename_i take hfind
    refine ⟨hd, ?_⟩
    rintro a ⟨⟩
    exact hd.origin hname hfind
  · exact ⟨hd, fun _ h => by cases h⟩

theorem preserves_delete : Async.Preserves KeptByOwner (fun _ => True)
    (delete name : OnDevice ι (Option Nat) γ Unit) := by
  refine .io fun _ d hd => ?_
  split_ifs
  · exact ⟨hd.remove, fun _ _ => trivial⟩
  · exact ⟨hd, fun _ _ => trivial⟩

theorem preserves_deleteDir (failure : Failure ι) : Async.Preserves KeptByOwner (fun _ => True)
    (deleteDir failure : OnDevice ι (Option Nat) γ Unit) := by
  refine .io fun answer d hd => ?_
  split_ifs
  · split
    · exact ⟨keptByOwner_empty rfl, fun _ _ => trivial⟩
    · rename_i removed _
      exact ⟨hd.removeAll removed, fun _ _ => trivial⟩
  · exact ⟨hd, fun _ _ => trivial⟩

theorem preserves_saveTake {skill : DartString} (htake : take.origin = some u) :
    Async.Preserves KeptByOwner (fun _ => True)
      (saveTake (UserScopedVoiceTakeStore.scopedSkill u skill) take :
        OnDevice ι (Option Nat) γ Unit) := by
  refine .bind .get fun d _ => .bind (.awaiting preserves_dir) fun _ _ => .bind .get fun _ _ =>
    .ite (fun _ => .pure trivial) fun _ => ?_
  refine .bind (preserves_read _) fun present _ => .bind
    (.when (preserves_writeAsBytes htake (nameOf_baseline u skill))) fun _ _ => .bind .get fun _ _ =>
    .ite (fun _ => .pure trivial) fun _ => preserves_writeAsBytes htake (nameOf_latest u skill)

theorem preserves_takesFor (skill : DartString) :
    Async.Preserves KeptByOwner (TakesOf u)
      (takesFor (UserScopedVoiceTakeStore.scopedSkill u skill) :
        OnDevice ι (Option Nat) γ (Option (VoiceTakes (Option Nat)))) := by
  refine .bind (.awaiting preserves_dir) fun _ _ => .bind (preserves_read _) fun _ _ =>
    .ite (fun _ => .pure (takesOf_none u)) fun _ => .bind (preserves_read _) fun _ _ =>
    .ite (fun _ => .pure (takesOf_none u)) fun _ => ?_
  refine .bind (preserves_readAsBytes (nameOf_baseline u skill)) fun b hb => ?_
  refine .bind (preserves_readAsBytes (nameOf_latest u skill)) fun l hl => ?_
  exact .ite (fun _ => .pure (takesOf_none u)) fun _ => .pure (takesOf_some hb hl)

theorem preserves_eraseAll (failure : Failure ι) : Async.Preserves KeptByOwner (fun _ => True)
    (eraseAll failure : OnDevice ι (Option Nat) γ Unit) :=
  .bind (.modify fun _ hd => hd) fun _ _ => .bind preserves_openDir fun _ _ =>
    .bind (preserves_read _) fun _ _ => .when (preserves_deleteDir failure)

theorem preserves_deleteSkill (skill : DartString) : Async.Preserves KeptByOwner (fun _ => True)
    (deleteSkill skill : OnDevice ι (Option Nat) γ Unit) :=
  .bind preserves_openDir fun _ _ => .bind (preserves_read _) fun _ _ =>
    .ite (fun _ => .pure trivial) fun _ =>
    .bind (preserves_read _) fun _ _ => .bind (.when preserves_delete) fun _ _ =>
    .bind (preserves_read _) fun _ _ => .when preserves_delete

end FileVoiceTakeStore

theorem fileVoiceTakeStore_keepsApart (failure : Failure ι) :
    KeepsApart (fileVoiceTakeStore failure : VoiceTakeStore ι (Option Nat) γ) where
  saveTake := fun _ _ _ htake => FileVoiceTakeStore.preserves_saveTake htake
  takesFor := fun _ skill => FileVoiceTakeStore.preserves_takesFor skill
  eraseAll := FileVoiceTakeStore.preserves_eraseAll failure
  deleteSkill := FileVoiceTakeStore.preserves_deleteSkill

namespace KvVoiceTakeStore

theorem preserves_write (htake : take.origin = some u) (hname : NameOf u name) :
    Async.Preserves KeptByOwner (fun _ => True)
      (write name take : OnDevice ι (Option Nat) γ Unit) :=
  .io fun _ _ hd => ⟨hd.put htake hname, fun _ _ => trivial⟩

theorem preserves_read (hname : NameOf u name) :
    Async.Preserves KeptByOwner (fun found => ∀ take, found = some take → take.origin = some u)
      (read name : OnDevice ι (Option Nat) γ (Option (Take (Option Nat)))) := by
  refine .io fun _ d hd => ⟨hd, ?_⟩
  rintro found hfound take rfl
  exact hd.origin hname (Except.ok.inj hfound)

theorem preserves_delete : Async.Preserves KeptByOwner (fun _ => True)
    (delete name : OnDevice ι (Option Nat) γ Unit) :=
  .io fun _ _ hd => ⟨hd.remove, fun _ _ => trivial⟩

theorem preserves_saveTake {skill : DartString} (htake : take.origin = some u) :
    Async.Preserves KeptByOwner (fun _ => True)
      (saveTake (UserScopedVoiceTakeStore.scopedSkill u skill) take :
        OnDevice ι (Option Nat) γ Unit) :=
  .bind (preserves_read (nameOf_baseline u skill)) fun _ _ =>
    .bind (.when (preserves_write htake (nameOf_baseline u skill))) fun _ _ =>
    preserves_write htake (nameOf_latest u skill)

theorem preserves_takesFor (skill : DartString) :
    Async.Preserves KeptByOwner (TakesOf u)
      (takesFor (UserScopedVoiceTakeStore.scopedSkill u skill) :
        OnDevice ι (Option Nat) γ (Option (VoiceTakes (Option Nat)))) := by
  refine .bind (preserves_read (nameOf_baseline u skill)) fun baseline hbaseline => ?_
  refine .bind (preserves_read (nameOf_latest u skill)) fun latest hlatest => ?_
  cases baseline with
  | none => exact .pure (takesOf_none u)
  | some b =>
    cases latest with
    | none => exact .pure (takesOf_none u)
    | some l =>
      exact .ite (fun _ => .pure (takesOf_none u))
        fun _ => .pure (takesOf_some (hbaseline b rfl) (hlatest l rfl))

theorem preserves_clear (failure : Failure ι) : Async.Preserves KeptByOwner (fun _ => True)
    (clear failure : OnDevice ι (Option Nat) γ Unit) := by
  refine .io fun answer d hd => ?_
  split
  · exact ⟨keptByOwner_empty rfl, fun _ _ => trivial⟩
  · rename_i removed _
    exact ⟨hd.removeAll removed, fun _ _ => trivial⟩

end KvVoiceTakeStore

theorem kvVoiceTakeStore_keepsApart (failure : Failure ι) :
    KeepsApart (kvVoiceTakeStore failure : VoiceTakeStore ι (Option Nat) γ) where
  saveTake := fun _ _ _ htake => KvVoiceTakeStore.preserves_saveTake htake
  takesFor := fun _ skill => KvVoiceTakeStore.preserves_takesFor skill
  eraseAll := KvVoiceTakeStore.preserves_clear failure
  deleteSkill := fun _ => .bind KvVoiceTakeStore.preserves_delete fun _ _ =>
    KvVoiceTakeStore.preserves_delete

namespace UserScopedVoiceTakeStore

variable (failure : Failure ι)

theorem preserves_requireCurrentUser : Async.Preserves KeptByOwner (fun _ => True)
    (requireCurrentUser : OnDevice ι (Option Nat) γ Nat) := by
  refine .bind .get fun d _ => ?_
  cases d.currentUserId with
  | none => exact .throw _
  | some userId => exact .pure trivial

theorem preserves_storage {α : Type} {op : Device (Option Nat) γ → α × Device (Option Nat) γ}
    (hop : ∀ d, (op d).2.entries = d.entries) :
    Async.Preserves KeptByOwner (fun _ => True) (storage failure op : OnDevice ι _ γ α) := by
  refine .io fun answer d hd => ?_
  split
  · refine ⟨fun name take hfind => ?_, fun _ _ => trivial⟩
    rw [Device.find, hop] at hfind
    exact hd name take hfind
  · exact ⟨hd, fun _ _ => trivial⟩

theorem preserves_pendingPurges : Async.Preserves KeptByOwner (fun _ => True)
    (pendingPurges failure : OnDevice ι (Option Nat) γ (List Nat)) := by
  refine .bind .get fun d _ => ?_
  cases d.pendingPurges with
  | some cached => exact .pure trivial
  | none =>
    refine .bind (preserves_storage failure fun _ => rfl) fun loaded _ => .bind .get fun d' _ => ?_
    cases d'.pendingPurges with
    | some recheck => exact .pure trivial
    | none => exact .bind (.modify fun _ hd => hd) fun _ _ => .pure trivial

theorem preserves_addPendingPurge (userId : Nat) : Async.Preserves KeptByOwner (fun _ => True)
    (addPendingPurge failure userId : OnDevice ι (Option Nat) γ Unit) :=
  .bind (.awaiting (preserves_pendingPurges failure)) fun _ _ =>
    .bind (preserves_storage failure fun _ => rfl) fun _ _ => .modify fun _ hd => hd

theorem preserves_clearPendingPurges : Async.Preserves KeptByOwner (fun _ => True)
    (clearPendingPurges failure : OnDevice ι (Option Nat) γ Unit) :=
  .bind (preserves_storage failure fun _ => rfl) fun _ _ => .modify fun _ hd => hd

variable {inner : VoiceTakeStore ι (Option Nat) γ}

/-- A take is saved under the name of the user who is signed in at the call. -/
theorem preserves_saveTake (hinner : KeepsApart inner) (skill : DartString)
    (htake : take.origin = d.currentUserId) (hd : KeptByOwner d) :
    Async.PreservesFrom KeptByOwner (fun _ => True) (saveTake inner skill take) d := by
  obtain huser | ⟨u, huser⟩ := Option.eq_none_or_eq_some d.currentUserId
  · simp only [saveTake, requireCurrentUser, Async.get, Async.bind_eq, Async.bind,
      Async.PreservesFrom, huser, Async.throw_eq, id]
    exact hd
  · simp only [saveTake, requireCurrentUser, Async.get, Async.bind_eq, Async.bind,
      Async.PreservesFrom, huser, Async.pure_eq, id]
    exact hinner.saveTake u skill take (htake.trans huser) d hd

/-- The takes are those of the user who is signed in at the call. -/
theorem preserves_takesFor (hinner : KeepsApart inner) (skill : DartString) (hd : KeptByOwner d) :
    Async.PreservesFrom KeptByOwner
      (fun takes => ∀ t, takes = some t →
        t.baseline.origin = d.currentUserId ∧ t.latest.origin = d.currentUserId)
      (takesFor failure inner skill) d := by
  obtain huser | ⟨u, huser⟩ := Option.eq_none_or_eq_some d.currentUserId
  · simp only [takesFor, requireCurrentUser, Async.get, Async.bind_eq, Async.bind,
      Async.PreservesFrom, huser, Async.throw_eq, id]
    exact hd
  · simp only [takesFor, requireCurrentUser, Async.get, Async.bind_eq, Async.bind,
      Async.PreservesFrom, huser, Async.pure_eq, id]
    refine Async.Preserves.bind (.awaiting (preserves_pendingPurges failure)) (fun pending _ => ?_)
      d hd
    exact .ite (fun _ => .pure (takesOf_none u))
      fun _ => .awaiting (hinner.takesFor u skill)

theorem preserves_eraseAll (hinner : KeepsApart inner) : Async.Preserves KeptByOwner (fun _ => True)
    (eraseAll failure inner) := by
  refine .bind .get fun d _ => .handle ?_ fun e => ?_
  · exact .bind (.awaiting hinner.eraseAll) fun _ _ =>
      .awaiting (preserves_clearPendingPurges failure)
  · cases d.currentUserId with
    | some user =>
      exact .bind (.awaiting (preserves_addPendingPurge failure user)) fun _ _ => .throw e
    | none => exact .throw e

theorem preserves_deleteSkill (hinner : KeepsApart inner) (skill : DartString) :
    Async.Preserves KeptByOwner (fun _ => True) (deleteSkill inner skill) :=
  .bind preserves_requireCurrentUser fun _ _ => hinner.deleteSkill _

end UserScopedVoiceTakeStore

end stores

/-! ## The calls -/

/-- A call of the store, or of `setCurrentUser`. -/
inductive TakeCall where
  | setCurrentUser (userId : Option Nat)
  | saveTake (skill : DartString) (bytes : Bytes)
  | takesFor (skill : DartString)
  | deleteSkill (skill : DartString)
  | eraseAll
  deriving DecidableEq, Repr

/-- What a call returns; takes together with the user who was signed in at the call. -/
inductive TakeResult where
  | done
  | takes (caller : Option Nat) (takes : Option (VoiceTakes (Option Nat)))
  deriving DecidableEq, Repr

variable {ι : Type}

/-- The program of a call. A take that is saved carries the user who is signed in then. -/
def takeProgram (failure : Failure ι) (inner : VoiceTakeStore ι (Option Nat) Unit) (_ : Nat) :
    TakeCall → OnDevice ι (Option Nat) Unit TakeResult
  | .setCurrentUser userId => do
    UserScopedVoiceTakeStore.setCurrentUser userId
    pure .done
  | .saveTake skill bytes => do
    let d ← Async.get
    UserScopedVoiceTakeStore.saveTake inner skill ⟨bytes, d.currentUserId⟩
    pure .done
  | .takesFor skill => do
    let d ← Async.get
    let takes ← UserScopedVoiceTakeStore.takesFor failure inner skill
    pure (.takes d.currentUserId takes)
  | .deleteSkill skill => do
    UserScopedVoiceTakeStore.deleteSkill inner skill
    pure .done
  | .eraseAll => do
    UserScopedVoiceTakeStore.eraseAll failure inner
    pure .done

/-- Takes that are returned were saved by the caller. -/
def OwnTakes : TakeResult → Prop
  | .done => True
  | .takes caller takes => ∀ t, takes = some t → t.baseline.origin = caller ∧ t.latest.origin = caller

theorem takeProgram_preserves {failure : Failure ι} {inner : VoiceTakeStore ι (Option Nat) Unit}
    (hinner : KeepsApart inner) (k : Nat) (call : TakeCall) :
    Async.Preserves KeptByOwner OwnTakes (takeProgram failure inner k call) := by
  cases call with
  | setCurrentUser userId => exact .bind (.modify fun _ hd => hd) fun _ _ => .pure trivial
  | saveTake skill bytes =>
    intro d hd
    exact (UserScopedVoiceTakeStore.preserves_saveTake hinner skill rfl hd).bind
      fun _ _ _ ht => ⟨ht, trivial⟩
  | takesFor skill =>
    intro d hd
    exact (UserScopedVoiceTakeStore.preserves_takesFor failure hinner skill hd).bind
      fun _ _ htakes ht => ⟨ht, htakes⟩
  | deleteSkill skill =>
    exact .bind (UserScopedVoiceTakeStore.preserves_deleteSkill hinner skill) fun _ _ => .pure trivial
  | eraseAll =>
    exact .bind (UserScopedVoiceTakeStore.preserves_eraseAll failure hinner) fun _ _ =>
      .pure trivial

theorem Backend.keepsApart {γ : Type} (failure : Failure ι) (backend : Backend) :
    KeepsApart (backend.store failure : VoiceTakeStore ι (Option Nat) γ) := by
  cases backend with
  | file => exact fileVoiceTakeStore_keepsApart failure
  | keyValue => exact kvVoiceTakeStore_keepsApart failure

/-- **No user hears another.** In every run of the calls, interleaved at their awaits, over
either store and whatever purges fail: the takes that `takesFor` returns were saved when the
user was signed in who was signed in at its call. -/
theorem takesFor_own_takes (failure : Failure ι) (backend : Backend)
    {actions : List (LoopAction ι TakeCall)} {w : Loop Thrown ι (Device (Option Nat) Unit) TakeCall TakeResult}
    (hrun : run (loopStep (takeProgram failure (backend.store failure))) ⟨Device.fresh (), []⟩ actions =
      some w)
    {k : Nat} {call : TakeCall} {caller : Option Nat} {takes : VoiceTakes (Option Nat)}
    (hreturned : w.calls[k]? = some (call, .ret (.takes caller (some takes)))) :
    takes.baseline.origin = caller ∧ takes.latest.origin = caller :=
  (loop_invariant (P := fun _ r => OwnTakes r) (takeProgram_preserves (backend.keepsApart failure))
    (keptByOwner_empty rfl) hrun).2 k call _ hreturned takes rfl

/-- The takes that a call has returned to a user. -/
def returnedTo (caller : Option Nat) {ε ι σ κ : Type} (w : Loop ε ι σ κ TakeResult) (k : Nat) :
    Option (VoiceTakes (Option Nat)) :=
  match w.calls[k]? with
  | some (_, .ret (.takes user takes)) => if user = caller then takes else none
  | _ => none

/-- User 7 saves two takes of a skill, user 71 saves one, and user 7 hears their own. -/
def twoUsers : List (LoopAction Unit TakeCall) :=
  [.call (.setCurrentUser (some 7)), .call (.saveTake [97] [1]), .land 1 (), .land 1 (), .land 1 (),
    .call (.saveTake [97] [2]), .land 2 (), .call (.setCurrentUser (some 71)),
    .call (.saveTake [97] [3]), .land 4 (), .land 2 (), .land 4 (), .land 4 (),
    .call (.setCurrentUser (some 7)), .call (.takesFor [97]), .land 6 (), .land 6 (), .land 6 (),
    .land 6 (), .land 6 ()]

theorem takesFor_own_takes_two_users :
    ∃ w, run (loopStep (takeProgram (fun _ : Unit => none) (Backend.keyValue.store fun _ => none)))
        ⟨Device.fresh (), []⟩ twoUsers = some w ∧
      ∃ takes, returnedTo (some 7) w 6 = some takes ∧
        takes.baseline.origin = some 7 ∧ takes.latest.origin = some 7 := by
  obtain ⟨w, hrun, hend⟩ := exists_run_of_check
    (loopStep (takeProgram (fun _ : Unit => none) (Backend.keyValue.store fun _ => none)))
    ⟨Device.fresh (), []⟩ twoUsers (fun w => (returnedTo (some 7) w 6).isSome) rfl
  obtain ⟨takes, htakes⟩ := Option.isSome_iff_exists.mp hend
  refine ⟨w, hrun, takes, htakes, ?_⟩
  simp only [returnedTo] at htakes
  split at htakes
  · rename_i call user found hcall
    split_ifs at htakes with huser
    subst huser htakes
    exact takesFor_own_takes (fun _ => none) .keyValue hrun hcall
  · cases htakes

end Apm.Takes
