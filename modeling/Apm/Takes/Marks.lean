import Apm.Takes.Isolation

/-!
# The stores below the marks

`UserScopedVoiceTakeStore` marks the users whose erasure has failed, and is the only one to
touch the marks: the stores that it wraps leave them alone, wherever an operation of theirs
fails.
-/

namespace Apm.Takes

open Apm.Lib

set_option autoImplicit false

section marks

variable {ι τ γ α β : Type}

/-- What `UserScopedVoiceTakeStore` keeps of the erasures that failed. -/
def Device.marks (d : Device τ γ) : Option (List Nat) × Option (List Nat) :=
  (d.pendingPurges, d.pendingPurgeStorage)

/-- The program leaves the marks alone. -/
def LeavesMarks (p : OnDevice ι τ γ α) : Prop :=
  ∀ I : Device τ γ → Prop, (∀ d t, t.marks = d.marks → I d → I t) →
    Async.Preserves I (fun _ => True) p

namespace LeavesMarks

variable {p : OnDevice ι τ γ α} {f : α → OnDevice ι τ γ β}

theorem bind (hp : LeavesMarks p) (hf : ∀ a, LeavesMarks (f a)) : LeavesMarks (p >>= f) :=
  fun I hI => .bind (hp I hI) fun a _ => hf a I hI

theorem handle {handler : Thrown → OnDevice ι τ γ α} (hp : LeavesMarks p)
    (hhandler : ∀ e, LeavesMarks (handler e)) : LeavesMarks (tryCatch p handler) :=
  fun I hI => .handle (hp I hI) fun e => hhandler e I hI

theorem pure (a : α) : LeavesMarks (Pure.pure a : OnDevice ι τ γ α) := fun _ _ => .pure trivial

theorem throw (e : Thrown) : LeavesMarks (MonadExcept.throw e : OnDevice ι τ γ α) :=
  fun _ _ => .throw e

theorem get : LeavesMarks (Async.get : OnDevice ι τ γ _) := fun _ _ _ hd => ⟨hd, trivial⟩

theorem hop : LeavesMarks (Async.hop : OnDevice ι τ γ Unit) := fun _ _ => .hop

theorem waitFor (ready : Device τ γ → Bool) :
    LeavesMarks (Async.waitFor ready : OnDevice ι τ γ Unit) :=
  fun _ _ _ hd => ⟨hd, fun _ _ ht _ => ⟨ht, trivial⟩⟩

theorem modify {g : Device τ γ → Device τ γ} (hg : ∀ d, (g d).marks = d.marks) :
    LeavesMarks (Async.modify g : OnDevice ι τ γ Unit) :=
  fun _ hI => .modify fun d hd => hI d _ (hg d) hd

theorem io {op : ι → Device τ γ → Except Thrown α × Device τ γ}
    (hop : ∀ answer d, (op answer d).2.marks = d.marks) : LeavesMarks (Async.io op) :=
  fun _ hI => .io fun answer d hd => ⟨hI d _ (hop answer d) hd, fun _ _ => trivial⟩

theorem ofExcept (r : Except Thrown α) : LeavesMarks (Async.ofExcept r : OnDevice ι τ γ α) := by
  cases r with
  | ok a => exact pure a
  | error e => exact throw e

theorem ite {b : Prop} [Decidable b] {q : OnDevice ι τ γ α} (hp : LeavesMarks p)
    (hq : LeavesMarks q) : LeavesMarks (if b then p else q) :=
  fun I hI => .ite (fun _ => hp I hI) fun _ => hq I hI

theorem «when» {b : Bool} {q : OnDevice ι τ γ Unit} (hq : LeavesMarks q) :
    LeavesMarks (Async.when b q) :=
  ite hq (pure ())

theorem awaiting (hp : LeavesMarks p) : LeavesMarks (Async.awaiting p) :=
  fun I hI => .awaiting (hp I hI)

end LeavesMarks

@[simp] theorem Device.removeAll_marks (d : Device τ γ) (names : List DartString) :
    (d.removeAll names).marks = d.marks := by
  induction names generalizing d with
  | nil => rfl
  | cons name rest ih => exact ih (d.remove name)

/-- A store below the marks. -/
structure InnerStore (ι τ γ : Type) extends VoiceTakeStore ι τ γ where
  saveTake_leaves : ∀ skill take, LeavesMarks (saveTake skill take)
  takesFor_leaves : ∀ skill, LeavesMarks (takesFor skill)
  eraseAll_leaves : LeavesMarks eraseAll
  deleteSkill_leaves : ∀ skill, LeavesMarks (deleteSkill skill)
  knownSkills_leaves : LeavesMarks knownSkills

namespace FileVoiceTakeStore

theorem leaves_openDir : LeavesMarks (openDir : OnDevice ι τ γ Unit) :=
  .bind .get fun _ => .when (.bind .hop fun _ => .modify fun _ => rfl)

theorem leaves_dirExists : LeavesMarks (dirExists : OnDevice ι τ γ Bool) := .io fun _ _ => rfl

theorem leaves_dir : LeavesMarks (dir_ : OnDevice ι τ γ Unit) :=
  .bind leaves_openDir fun _ => .bind leaves_dirExists fun _ => .when (.io fun _ _ => rfl)

variable (name : DartString)

theorem leaves_fileExists : LeavesMarks (fileExists name : OnDevice ι τ γ Bool) :=
  .io fun _ _ => rfl

theorem leaves_writeAsBytes (take : Take τ) :
    LeavesMarks (writeAsBytes name take : OnDevice ι τ γ Unit) := by
  refine .io fun _ d => ?_
  split_ifs <;> rfl

theorem leaves_readAsBytes : LeavesMarks (readAsBytes name : OnDevice ι τ γ (Take τ)) := by
  refine .io fun _ d => ?_
  cases d.find name <;> rfl

theorem leaves_delete : LeavesMarks (delete name : OnDevice ι τ γ Unit) := by
  refine .io fun _ d => ?_
  split_ifs <;> rfl

theorem leaves_deleteDir (failure : Failure ι) :
    LeavesMarks (deleteDir failure : OnDevice ι τ γ Unit) := by
  refine .io fun answer d => ?_
  split_ifs
  · cases failure answer with
    | none => rfl
    | some removed => exact d.removeAll_marks removed
  · rfl

end FileVoiceTakeStore

open FileVoiceTakeStore in
/-- `FileVoiceTakeStore` below the marks. -/
def fileInnerStore (failure : Failure ι) : InnerStore ι τ γ where
  toVoiceTakeStore := fileVoiceTakeStore failure
  saveTake_leaves _ _ := .bind .get fun _ => .bind (.awaiting leaves_dir) fun _ =>
    .bind .get fun _ => .ite (.pure ()) <| .bind (leaves_fileExists _) fun _ =>
    .bind (.when (leaves_writeAsBytes _ _)) fun _ => .bind .get fun _ =>
    .ite (.pure ()) (leaves_writeAsBytes _ _)
  takesFor_leaves _ := .bind (.awaiting leaves_dir) fun _ => .bind (leaves_fileExists _) fun _ =>
    .ite (.pure none) <| .bind (leaves_fileExists _) fun _ => .ite (.pure none) <|
    .bind (leaves_readAsBytes _) fun _ => .bind (leaves_readAsBytes _) fun _ =>
    .ite (.pure none) (.pure _)
  eraseAll_leaves := .bind (.modify fun _ => rfl) fun _ => .bind leaves_openDir fun _ =>
    .bind leaves_dirExists fun _ => .when (leaves_deleteDir failure)
  deleteSkill_leaves _ := .bind leaves_openDir fun _ => .bind leaves_dirExists fun _ =>
    .ite (.pure ()) <| .bind (leaves_fileExists _) fun _ => .bind (.when (leaves_delete _)) fun _ =>
    .bind (leaves_fileExists _) fun _ => .when (leaves_delete _)
  knownSkills_leaves := .bind leaves_openDir fun _ => .bind leaves_dirExists fun _ =>
    .ite (.pure []) (.io fun _ _ => rfl)

namespace KvVoiceTakeStore

theorem leaves_takesFor (skill : DartString) :
    LeavesMarks (takesFor skill : OnDevice ι τ γ (Option (VoiceTakes τ))) := by
  refine .bind (.io fun _ _ => rfl) fun baseline => .bind (.io fun _ _ => rfl) fun latest => ?_
  rcases baseline with _ | b
  · exact .pure none
  · rcases latest with _ | l
    · exact .pure none
    · exact .ite (.pure none) (.pure _)

theorem leaves_clear (failure : Failure ι) :
    LeavesMarks (clear failure : OnDevice ι τ γ Unit) := by
  refine .io fun answer d => ?_
  cases failure answer with
  | none => rfl
  | some removed => exact d.removeAll_marks removed

end KvVoiceTakeStore

/-- `KvVoiceTakeStore` below the marks. -/
def kvInnerStore (failure : Failure ι) : InnerStore ι τ γ where
  toVoiceTakeStore := kvVoiceTakeStore failure
  saveTake_leaves _ _ := .bind (.io fun _ _ => rfl) fun _ => .bind (.when (.io fun _ _ => rfl))
    fun _ => .io fun _ _ => rfl
  takesFor_leaves := KvVoiceTakeStore.leaves_takesFor
  eraseAll_leaves := KvVoiceTakeStore.leaves_clear failure
  deleteSkill_leaves _ := .bind (.io fun _ _ => rfl) fun _ => .io fun _ _ => rfl
  knownSkills_leaves := .io fun _ _ => rfl

namespace EncryptedVoiceTakeStore

theorem leaves_synchronized {action : OnDevice ι τ γ α} (haction : LeavesMarks action)
    (caller : Nat) : LeavesMarks (synchronized caller action) := by
  refine .bind (.modify fun _ => rfl) fun _ => .bind (.waitFor _) fun _ => ?_
  refine .bind (.handle (.bind (.awaiting haction) fun _ => .pure _) fun _ => .pure _) fun r => ?_
  exact .bind (.modify fun _ => rfl) fun _ => .bind .hop fun _ => .ofExcept r

variable (aes : AesGcm)

theorem leaves_resolveKey : LeavesMarks (resolveKey aes : OnDevice ι τ γ Bytes) := by
  refine .bind .get fun d => ?_
  cases d.cachedKey with
  | some cached => exact .pure cached
  | none =>
    refine .bind (.io fun _ _ => rfl) fun stored => ?_
    cases stored with
    | some key => exact .bind (.modify fun _ => rfl) fun _ => .pure key
    | none =>
      exact .bind (.io fun _ _ => rfl) fun _ => .bind .hop fun _ => .bind (.io fun _ _ => rfl)
        fun _ => .bind (.modify fun _ => rfl) fun _ => .pure _

variable (caller : Nat)

theorem leaves_keyOrCreate : LeavesMarks (keyOrCreate aes caller : OnDevice ι τ γ Bytes) := by
  refine .bind .get fun d => ?_
  cases d.cachedKey with
  | some cached => exact .pure cached
  | none => exact leaves_synchronized (leaves_resolveKey aes) caller

variable (inner : InnerStore ι τ γ)

theorem leaves_saveTake (skill : DartString) (take : Take τ) :
    LeavesMarks (saveTake aes caller inner.toVoiceTakeStore skill take) := by
  refine .bind .get fun _ => .bind (.awaiting (leaves_keyOrCreate aes caller)) fun _ =>
    .bind .get fun _ => .ite (.pure ()) <| .bind (.io fun _ _ => rfl) fun _ => .bind .get fun _ =>
    .ite (.pure ()) ?_
  exact .bind (.awaiting (inner.saveTake_leaves _ _)) fun _ => .bind .get fun _ =>
    .when (.awaiting (inner.deleteSkill_leaves _))

theorem leaves_takesFor (skill : DartString) :
    LeavesMarks (takesFor aes caller inner.toVoiceTakeStore skill) := by
  refine .bind (.awaiting (inner.takesFor_leaves skill)) fun takes => ?_
  cases takes with
  | none => exact .pure none
  | some takes =>
    refine .bind (.awaiting (leaves_keyOrCreate aes caller)) fun _ =>
      .bind (.awaiting (.io fun _ _ => rfl)) fun b => .bind (.awaiting (.io fun _ _ => rfl)) fun l => ?_
    rcases b with _ | b
    · exact .bind (.awaiting (inner.deleteSkill_leaves skill)) fun _ => .pure none
    · rcases l with _ | l
      · exact .bind (.awaiting (inner.deleteSkill_leaves skill)) fun _ => .pure none
      · exact .pure _

theorem leaves_eraseAll : LeavesMarks (eraseAll caller inner.toVoiceTakeStore) := by
  refine .bind (.modify fun _ => rfl) fun _ => .awaiting (leaves_synchronized ?_ caller)
  exact .bind (.modify fun _ => rfl) fun _ => .bind (.io fun _ _ => rfl) fun _ =>
    .awaiting inner.eraseAll_leaves

end EncryptedVoiceTakeStore

/-- `EncryptedVoiceTakeStore` below the marks. -/
def InnerStore.encrypted (aes : AesGcm) (caller : Nat) (inner : InnerStore ι τ γ) :
    InnerStore ι τ γ where
  toVoiceTakeStore := encryptedVoiceTakeStore aes caller inner.toVoiceTakeStore
  saveTake_leaves := EncryptedVoiceTakeStore.leaves_saveTake aes caller inner
  takesFor_leaves := EncryptedVoiceTakeStore.leaves_takesFor aes caller inner
  eraseAll_leaves := EncryptedVoiceTakeStore.leaves_eraseAll caller inner
  deleteSkill_leaves := inner.deleteSkill_leaves
  knownSkills_leaves := inner.knownSkills_leaves

theorem TtlVoiceTakeStore.leaves_takesFor (ttl : Int) (inner : InnerStore ι τ γ)
    (skill : DartString) : LeavesMarks (takesFor ttl inner.toVoiceTakeStore skill) := by
  refine .bind (.awaiting (inner.takesFor_leaves skill)) fun takes => ?_
  cases takes with
  | none => exact .pure none
  | some takes =>
    refine .bind .get fun d => ?_
    have hdrop : LeavesMarks (do
        Async.awaiting (inner.deleteSkill skill)
        pure none : OnDevice ι τ γ (Option (VoiceTakes τ))) :=
      .bind (.awaiting (inner.deleteSkill_leaves skill)) fun _ => .pure none
    rcases freshBytesOrNull ttl d.now takes.baseline with _ | b
    · exact hdrop
    · rcases freshBytesOrNull ttl d.now takes.latest with _ | l
      · exact hdrop
      · exact .pure _

/-- `TtlVoiceTakeStore` below the marks. It is no `SkillEnumerator`: `knownSkills` is that of
the store it wraps. -/
def InnerStore.expiring (ttl : Int) (inner : InnerStore ι τ γ) : InnerStore ι τ γ where
  saveTake := TtlVoiceTakeStore.saveTake inner.toVoiceTakeStore
  takesFor := TtlVoiceTakeStore.takesFor ttl inner.toVoiceTakeStore
  eraseAll := inner.eraseAll
  deleteSkill := inner.deleteSkill
  knownSkills := inner.knownSkills
  saveTake_leaves _ _ := .bind .get fun _ => inner.saveTake_leaves _ _
  takesFor_leaves := TtlVoiceTakeStore.leaves_takesFor ttl inner
  eraseAll_leaves := inner.eraseAll_leaves
  deleteSkill_leaves := inner.deleteSkill_leaves
  knownSkills_leaves := inner.knownSkills_leaves

end marks

end Apm.Takes
