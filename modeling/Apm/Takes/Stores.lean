import Apm.Takes.Device

/-!
# The stores of the voice takes

Two stores keep the takes of each skill, in files and in a key-value store. The others wrap
a store: `EncryptedVoiceTakeStore`, `TtlVoiceTakeStore` and `UserScopedVoiceTakeStore`.
Each method is the program of its source, with its awaits. `caller` is the number of the
call, by which it stands in the queue of the key lock.
-/

namespace Apm.Takes

open Apm.Lib

set_option autoImplicit false

variable {ι τ γ : Type}

/-- `VoiceTakeStore`, with `SkillEnumerator`. -/
structure VoiceTakeStore (ι τ γ : Type) where
  saveTake : DartString → Take τ → OnDevice ι τ γ Unit
  takesFor : DartString → OnDevice ι τ γ (Option (VoiceTakes τ))
  eraseAll : OnDevice ι τ γ Unit
  deleteSkill : DartString → OnDevice ι τ γ Unit
  knownSkills : OnDevice ι τ γ (List DartString)

/-- The skills of the names that end in one of the two suffixes. -/
def stems (names : List DartString) : List DartString :=
  (names.filterMap fun name =>
    let baseline := ascii ['.', 'b', 'a', 's', 'e', 'l', 'i', 'n', 'e']
    let latest := ascii ['.', 'l', 'a', 't', 'e', 's', 't']
    if baseline.isSuffixOf name then some (name.take (name.length - baseline.length))
    else if latest.isSuffixOf name then some (name.take (name.length - latest.length))
    else none).dedup

/-! ## Files -/

namespace FileVoiceTakeStore

/-- The handle of the directory. -/
def openDir : OnDevice ι τ γ Unit := do
  let d ← Async.get
  Async.when (!d.dirOpened) do
    Async.hop
    Async.modify fun d => { d with dirOpened := true }

def dirExists : OnDevice ι τ γ Bool := Async.io fun _ d => (.ok d.directory, d)

def createDir : OnDevice ι τ γ Unit := Async.io fun _ d => (.ok (), { d with directory := true })

/-- `_dir_`. -/
def dir_ : OnDevice ι τ γ Unit := do
  openDir
  let present ← dirExists
  Async.when (!present) createDir

def fileExists (name : DartString) : OnDevice ι τ γ Bool :=
  Async.io fun _ d => (.ok (d.find name).isSome, d)

def writeAsBytes (name : DartString) (take : Take τ) : OnDevice ι τ γ Unit :=
  Async.io fun _ d =>
    if d.directory then (.ok (), d.put name take) else (.error .pathNotFound, d)

def readAsBytes (name : DartString) : OnDevice ι τ γ (Take τ) :=
  Async.io fun _ d =>
    match d.find name with
    | some take => (.ok take, d)
    | none => (.error .pathNotFound, d)

def delete (name : DartString) : OnDevice ι τ γ Unit :=
  Async.io fun _ d =>
    if (d.find name).isSome then (.ok (), d.remove name) else (.error .pathNotFound, d)

/-- Deletes the directory with its files. -/
def deleteDir (failure : Failure ι) : OnDevice ι τ γ Unit :=
  Async.io fun answer d =>
    if d.directory then
      match failure answer with
      | none => (.ok (), { d with directory := false, entries := ∅ })
      | some removed => (.error .storage, d.removeAll removed)
    else (.error .pathNotFound, d)

def saveTake (skill : DartString) (take : Take τ) : OnDevice ι τ γ Unit := do
  let d ← Async.get
  let epoch := d.fileEpoch
  Async.awaiting dir_
  let d ← Async.get
  if d.fileEpoch ≠ epoch then pure ()
  else
    let present ← fileExists (baselineName skill)
    Async.when (!present) (writeAsBytes (baselineName skill) take)
    let d ← Async.get
    if d.fileEpoch ≠ epoch then pure ()
    else writeAsBytes (latestName skill) take

def takesFor (skill : DartString) : OnDevice ι τ γ (Option (VoiceTakes τ)) := do
  Async.awaiting dir_
  let baseline ← fileExists (baselineName skill)
  if !baseline then pure none
  else
    let latest ← fileExists (latestName skill)
    if !latest then pure none
    else
      let b ← readAsBytes (baselineName skill)
      let l ← readAsBytes (latestName skill)
      if b.bytes = l.bytes then pure none else pure (some ⟨b, l⟩)

def eraseAll (failure : Failure ι) : OnDevice ι τ γ Unit := do
  Async.modify fun d => { d with fileEpoch := d.fileEpoch + 1 }
  openDir
  let present ← dirExists
  Async.when present (deleteDir failure)

def deleteSkill (skill : DartString) : OnDevice ι τ γ Unit := do
  openDir
  let present ← dirExists
  if !present then pure ()
  else
    let baseline ← fileExists (baselineName skill)
    Async.when baseline (delete (baselineName skill))
    let latest ← fileExists (latestName skill)
    Async.when latest (delete (latestName skill))

def knownSkills : OnDevice ι τ γ (List DartString) := do
  openDir
  let present ← dirExists
  if !present then pure []
  else Async.io fun _ d => (.ok (stems d.entries.keys), d)

end FileVoiceTakeStore

def fileVoiceTakeStore (failure : Failure ι) : VoiceTakeStore ι τ γ where
  saveTake := FileVoiceTakeStore.saveTake
  takesFor := FileVoiceTakeStore.takesFor
  eraseAll := FileVoiceTakeStore.eraseAll failure
  deleteSkill := FileVoiceTakeStore.deleteSkill
  knownSkills := FileVoiceTakeStore.knownSkills

/-! ## A key-value store -/

namespace KvVoiceTakeStore

def read (key : DartString) : OnDevice ι τ γ (Option (Take τ)) :=
  Async.io fun _ d => (.ok (d.find key), d)

def write (key : DartString) (take : Take τ) : OnDevice ι τ γ Unit :=
  Async.io fun _ d => (.ok (), d.put key take)

def delete (key : DartString) : OnDevice ι τ γ Unit :=
  Async.io fun _ d => (.ok (), d.remove key)

def clear (failure : Failure ι) : OnDevice ι τ γ Unit :=
  Async.io fun answer d =>
    match failure answer with
    | none => (.ok (), { d with entries := ∅ })
    | some removed => (.error .storage, d.removeAll removed)

def saveTake (skill : DartString) (take : Take τ) : OnDevice ι τ γ Unit := do
  let baseline ← read (baselineName skill)
  Async.when baseline.isNone (write (baselineName skill) take)
  write (latestName skill) take

def takesFor (skill : DartString) : OnDevice ι τ γ (Option (VoiceTakes τ)) := do
  let baseline ← read (baselineName skill)
  let latest ← read (latestName skill)
  match baseline, latest with
  | some b, some l => if b.bytes = l.bytes then pure none else pure (some ⟨b, l⟩)
  | _, _ => pure none

def deleteSkill (skill : DartString) : OnDevice ι τ γ Unit := do
  delete (baselineName skill)
  delete (latestName skill)

def knownSkills : OnDevice ι τ γ (List DartString) :=
  Async.io fun _ d => (.ok (stems d.entries.keys), d)

end KvVoiceTakeStore

def kvVoiceTakeStore (failure : Failure ι) : VoiceTakeStore ι τ γ where
  saveTake := KvVoiceTakeStore.saveTake
  takesFor := KvVoiceTakeStore.takesFor
  eraseAll := KvVoiceTakeStore.clear failure
  deleteSkill := KvVoiceTakeStore.deleteSkill
  knownSkills := KvVoiceTakeStore.knownSkills

/-- The stores that keep takes on a device. -/
inductive Backend where
  | file
  | keyValue

def Backend.store (failure : Failure ι) : Backend → VoiceTakeStore ι τ γ
  | .file => fileVoiceTakeStore failure
  | .keyValue => kvVoiceTakeStore failure

/-! ## The takes of each user -/

namespace UserScopedVoiceTakeStore

/-- The message of `_requireCurrentUser`. -/
def notSignedIn : String :=
  "VoiceTakeStore accessed with no signed-in user (#319) — " ++
    "AuthViewModel must call setCurrentUser before this store is used."

def setCurrentUser (userId : Option Nat) : OnDevice ι τ γ Unit :=
  Async.modify fun d => { d with currentUserId := userId }

/-- `_requireCurrentUser`. -/
def requireCurrentUser : OnDevice ι τ γ Nat := do
  let d ← Async.get
  match d.currentUserId with
  | none => throw (.stateError notSignedIn)
  | some userId => pure userId

/-- `_scoped`. -/
def scopedSkill (userId : Nat) (skill : DartString) : DartString :=
  decimal userId ++ codeUnit ':' :: skill

/-- What the storage of the pending purges does, unless it fails. -/
def storage {α : Type} (failure : Failure ι) (op : Device τ γ → α × Device τ γ) : OnDevice ι τ γ α :=
  Async.io fun answer d =>
    match failure answer with
    | none => (.ok (op d).1, (op d).2)
    | some _ => (.error .storage, d)

/-- `_pendingPurges`. -/
def pendingPurges (failure : Failure ι) : OnDevice ι τ γ (List Nat) := do
  let d ← Async.get
  match d.pendingPurges with
  | some cached => pure cached
  | none =>
    let loaded ← storage failure fun d => (d.pendingPurgeStorage.getD [], d)
    let d ← Async.get
    match d.pendingPurges with
    | some recheck => pure recheck
    | none =>
      Async.modify fun d => { d with pendingPurges := some loaded }
      pure loaded

/-- `_addPendingPurge`. -/
def addPendingPurge (failure : Failure ι) (userId : Nat) : OnDevice ι τ γ Unit := do
  let current ← Async.awaiting (pendingPurges failure)
  let updated := if userId ∈ current then current else current ++ [userId]
  storage failure fun d => ((), { d with pendingPurgeStorage := some updated })
  Async.modify fun d => { d with pendingPurges := some updated }

/-- `_clearPendingPurges`. -/
def clearPendingPurges (failure : Failure ι) : OnDevice ι τ γ Unit := do
  storage failure fun d => ((), { d with pendingPurgeStorage := none })
  Async.modify fun d => { d with pendingPurges := some [] }

variable (failure : Failure ι) (inner : VoiceTakeStore ι τ γ)

def saveTake (skill : DartString) (take : Take τ) : OnDevice ι τ γ Unit := do
  let userId ← requireCurrentUser
  inner.saveTake (scopedSkill userId skill) take

def takesFor (skill : DartString) : OnDevice ι τ γ (Option (VoiceTakes τ)) := do
  let userId ← requireCurrentUser
  let pending ← Async.awaiting (pendingPurges failure)
  if userId ∈ pending then pure none
  else Async.awaiting (inner.takesFor (scopedSkill userId skill))

def eraseAll : OnDevice ι τ γ Unit := do
  let d ← Async.get
  let userId := d.currentUserId
  try
    Async.awaiting inner.eraseAll
    Async.awaiting (clearPendingPurges failure)
  catch e =>
    match userId with
    | some user => Async.awaiting (addPendingPurge failure user)
    | none => pure ()
    throw e

def deleteSkill (skill : DartString) : OnDevice ι τ γ Unit := do
  let userId ← requireCurrentUser
  inner.deleteSkill (scopedSkill userId skill)

end UserScopedVoiceTakeStore

/-! ## Encryption at rest -/

/-- `AesGcm` with its random generator. `encrypt` gives the box as one text: the nonce, the
cipher text and the tag. -/
structure AesGcm where
  newSecretKey : Nat → Bytes
  newNonce : Nat → Bytes
  encrypt : (key nonce aad bytes : Bytes) → Bytes
  decrypt : (key aad box : Bytes) → Option Bytes
  decrypt_encrypt : ∀ key nonce aad bytes,
    decrypt key aad (encrypt key nonce aad bytes) = some bytes

/-- A cipher that tells another key and other associated data, and hides nothing. -/
def AesGcm.tagged : AesGcm where
  newSecretKey n := [n.toUInt8]
  newNonce n := [n.toUInt8]
  encrypt key nonce aad bytes := nonce.headD 0 :: (key ++ aad ++ bytes)
  decrypt key aad box :=
    if (key ++ aad).isPrefixOf box.tail then some (box.tail.drop (key ++ aad).length) else none
  decrypt_encrypt key nonce aad bytes := by
    have hinitial : (key ++ aad).isPrefixOf (key ++ aad ++ bytes) = true :=
      List.isPrefixOf_iff_prefix.mpr (List.prefix_append _ _)
    simp only [List.tail_cons, hinitial, if_true, List.drop_left]

namespace EncryptedVoiceTakeStore

/-- `_synchronized`: the next section starts when this one has completed, and its caller goes
on by itself. -/
def synchronized {α : Type} (caller : Nat) (action : OnDevice ι τ γ α) : OnDevice ι τ γ α := do
  Async.modify fun d => { d with keyLock := d.keyLock.enter caller }
  Async.waitFor fun d => decide (d.keyLock.Holds caller)
  let result ←
    try
      let a ← Async.awaiting action
      pure (Except.ok a)
    catch e => pure (Except.error e)
  Async.modify fun d => { d with keyLock := d.keyLock.leave }
  Async.hop
  Async.ofExcept result

variable (aes : AesGcm)

/-- `_resolveKey`. -/
def resolveKey : OnDevice ι τ γ Bytes := do
  let d ← Async.get
  match d.cachedKey with
  | some cached => pure cached
  | none =>
    let stored ← Async.io fun _ d => (.ok d.keyStorage, d)
    match stored with
    | some key =>
      Async.modify fun d => { d with cachedKey := some key }
      pure key
    | none =>
      let fresh ← Async.io fun _ d =>
        (.ok (aes.newSecretKey d.drawn), { d with drawn := d.drawn + 1 })
      -- the bytes of the key
      Async.hop
      Async.io fun _ d => (.ok (), { d with keyStorage := some fresh })
      Async.modify fun d => { d with cachedKey := some fresh }
      pure fresh

variable (caller : Nat)

/-- `_keyOrCreate`. -/
def keyOrCreate : OnDevice ι τ γ Bytes := do
  let d ← Async.get
  match d.cachedKey with
  | some cached => pure cached
  | none => synchronized caller (resolveKey aes)

/-- `_aad`: a safe key is ASCII. -/
def aad (skill : DartString) : Bytes := (safeStorageKey skill).map UInt16.toUInt8

def encrypt (key : Bytes) (skill : DartString) (bytes : Bytes) : OnDevice ι τ γ Bytes :=
  Async.io fun _ d =>
    (.ok (aes.encrypt key (aes.newNonce d.drawn) (aad skill) bytes), { d with drawn := d.drawn + 1 })

/-- `_decryptOrNull`. -/
def decryptOrNull (key : Bytes) (skill : DartString) (stored : Take τ) :
    OnDevice ι τ γ (Option (Take τ)) :=
  Async.io fun _ d =>
    (.ok ((aes.decrypt key (aad skill) stored.bytes).map fun clear => ⟨clear, stored.origin⟩), d)

variable (inner : VoiceTakeStore ι τ γ)

def saveTake (skill : DartString) (take : Take τ) : OnDevice ι τ γ Unit := do
  let d ← Async.get
  let epoch := d.epoch
  let key ← Async.awaiting (keyOrCreate aes caller)
  let d ← Async.get
  if d.epoch ≠ epoch then pure ()
  else
    let box ← encrypt aes key skill take.bytes
    let d ← Async.get
    if d.epoch ≠ epoch then pure ()
    else
      Async.awaiting (inner.saveTake skill ⟨box, take.origin⟩)
      let d ← Async.get
      Async.when (d.epoch ≠ epoch) (Async.awaiting (inner.deleteSkill skill))

def takesFor (skill : DartString) : OnDevice ι τ γ (Option (VoiceTakes τ)) := do
  let takes ← Async.awaiting (inner.takesFor skill)
  match takes with
  | none => pure none
  | some takes =>
    let key ← Async.awaiting (keyOrCreate aes caller)
    let baseline ← Async.awaiting (decryptOrNull aes key skill takes.baseline)
    let latest ← Async.awaiting (decryptOrNull aes key skill takes.latest)
    match baseline, latest with
    | some b, some l => pure (some ⟨b, l⟩)
    | _, _ =>
      Async.awaiting (inner.deleteSkill skill)
      pure none

def eraseAll : OnDevice ι τ γ Unit := do
  Async.modify fun d => { d with epoch := d.epoch + 1 }
  Async.awaiting (synchronized caller do
    Async.modify fun d => { d with cachedKey := none }
    Async.io fun _ d => (.ok (), { d with keyStorage := none })
    Async.awaiting inner.eraseAll)

end EncryptedVoiceTakeStore

def encryptedVoiceTakeStore (aes : AesGcm) (caller : Nat) (inner : VoiceTakeStore ι τ γ) :
    VoiceTakeStore ι τ γ where
  saveTake := EncryptedVoiceTakeStore.saveTake aes caller inner
  takesFor := EncryptedVoiceTakeStore.takesFor aes caller inner
  eraseAll := EncryptedVoiceTakeStore.eraseAll caller inner
  deleteSkill := inner.deleteSkill
  knownSkills := inner.knownSkills

/-! ## Retention -/

/-- The last time a `DateTime` can show, in milliseconds since 1970. -/
def maxMillis : Nat := 8640000000000000

/-- `setUint32`, big-endian. -/
def uint32 (n : Nat) : Bytes :=
  [(n / 16777216).toUInt8, (n / 65536).toUInt8, (n / 256).toUInt8, n.toUInt8]

/-- `getUint32`, big-endian. -/
def getUint32 (bytes : Bytes) : Nat := (bytes.take 4).foldl (fun n b => 256 * n + b.toNat) 0

namespace TtlVoiceTakeStore

/-- `_stamp`. -/
def stamp (now : Nat) (bytes : Bytes) : Bytes :=
  let millis := now / 1000
  uint32 (millis / 4294967296) ++ uint32 (millis % 4294967296) ++ bytes

/-- The time in the header, in milliseconds since 1970. -/
def stampOf (stamped : Bytes) : Option Nat :=
  if stamped.length < 8 then none
  else
    let millis := getUint32 stamped * 4294967296 + getUint32 (stamped.drop 4)
    if maxMillis < millis then none else some millis

variable (ttl : Int)

/-- `_freshBytesOrNull`. -/
def freshBytesOrNull (now : Nat) (stamped : Take τ) : Option (Take τ) :=
  match stampOf stamped.bytes with
  | none => none
  | some saved =>
    if (now : Int) - 1000 * saved > ttl then none
    else some ⟨stamped.bytes.drop 8, stamped.origin⟩

variable (inner : VoiceTakeStore ι τ γ)

def saveTake (skill : DartString) (take : Take τ) : OnDevice ι τ γ Unit := do
  let d ← Async.get
  inner.saveTake skill ⟨stamp d.now take.bytes, take.origin⟩

def takesFor (skill : DartString) : OnDevice ι τ γ (Option (VoiceTakes τ)) := do
  let takes ← Async.awaiting (inner.takesFor skill)
  match takes with
  | none => pure none
  | some takes =>
    let d ← Async.get
    match freshBytesOrNull ttl d.now takes.baseline, freshBytesOrNull ttl d.now takes.latest with
    | some b, some l => pure (some ⟨b, l⟩)
    | _, _ =>
      Async.awaiting (inner.deleteSkill skill)
      pure none

def sweepExpired : OnDevice ι τ γ Unit := do
  let skills ← Async.awaiting inner.knownSkills
  skills.forM fun skill => do
    let _ ← Async.awaiting (takesFor ttl inner skill)
    pure ()

end TtlVoiceTakeStore

end Apm.Takes
