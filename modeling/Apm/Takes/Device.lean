import Apm.Lib.Async
import Apm.Lib.AsyncMutex
import Mathlib.Data.List.AList

/-!
# The device that keeps the takes

What the stores of the voice takes keep in memory, and what lies below them: a directory of
files, or a key-value store, and the secure storage. Texts are Dart's strings of UTF-16 code
units. An operation of the storage reads and writes it at the moment it lands.
-/

namespace Apm.Takes

open Apm.Lib

set_option autoImplicit false

abbrev DartString := List UInt16

abbrev Bytes := List UInt8

def codeUnit (c : Char) : UInt16 := c.toNat.toUInt16

def ascii (text : List Char) : DartString := text.map codeUnit

/-- `'$n'`. -/
def decimal (n : Nat) : DartString := ascii (Nat.toDigits 10 n)

/-- `[A-Za-z0-9_-]`. -/
def isSafe (u : UInt16) : Bool :=
  (65 ≤ u && u ≤ 90) || (97 ≤ u && u ≤ 122) || (48 ≤ u && u ≤ 57) || u = 95 || u = 45

def safeStorageKey (raw : DartString) : DartString := raw.map fun u => if isSafe u then u else 95

def baselineName (skill : DartString) : DartString :=
  safeStorageKey skill ++ ascii ['.', 'b', 'a', 's', 'e', 'l', 'i', 'n', 'e']

def latestName (skill : DartString) : DartString :=
  safeStorageKey skill ++ ascii ['.', 'l', 'a', 't', 'e', 's', 't']

/-- Bytes that are kept. `origin` is read by no code: what they come from. -/
structure Take (τ : Type) where
  bytes : Bytes
  origin : τ
  deriving DecidableEq, Repr

structure VoiceTakes (τ : Type) where
  baseline : Take τ
  latest : Take τ
  deriving DecidableEq, Repr

inductive Thrown where
  | stateError (message : String)
  | pathNotFound
  /-- the storage has failed -/
  | storage
  deriving DecidableEq, Repr

/-- A device with one app. Nothing reads `writes`, the writes that have landed, the latest
last, nor `ghost`. -/
structure Device (τ γ : Type) where
  /-- the directory of the takes exists -/
  directory : Bool
  /-- its files, or the entries of the key-value store, by name -/
  entries : AList fun _ : DartString => Take τ
  writes : List (DartString × τ)
  /-- `_dir` of the file store is not null -/
  dirOpened : Bool
  /-- `_epoch` of the file store -/
  fileEpoch : Nat
  /-- `_epoch` of the encrypted store -/
  epoch : Nat
  cachedKey : Option Bytes
  keyStorage : Option Bytes
  keyLock : AsyncMutex Nat
  /-- how often the random generator has been used -/
  drawn : Nat
  /-- the clock, in microseconds since 1970 -/
  now : Nat
  currentUserId : Option Nat
  /-- `_pendingPurgeUserIds` -/
  pendingPurges : Option (List Nat)
  pendingPurgeStorage : Option (List Nat)
  ghost : γ

/-- A device on which nothing has been kept yet. -/
def Device.fresh {τ γ : Type} (ghost : γ) : Device τ γ where
  directory := false
  entries := ∅
  writes := []
  dirOpened := false
  fileEpoch := 0
  epoch := 0
  cachedKey := none
  keyStorage := none
  keyLock := .free
  drawn := 0
  now := 0
  currentUserId := none
  pendingPurges := none
  pendingPurgeStorage := none
  ghost := ghost

/-- A program of the stores on a device. `ι` is what the device answers. -/
abbrev OnDevice (ι τ γ α : Type) : Type := Async Thrown ι (Device τ γ) α

/-- How a purge of the storage ends: `none` when it succeeds, and otherwise the names that it
has removed before it failed. -/
abbrev Failure (ι : Type) : Type := ι → Option (List DartString)

namespace Device

variable {τ γ : Type} (d : Device τ γ) (name : DartString)

def find : Option (Take τ) := d.entries.lookup name

def put (take : Take τ) : Device τ γ :=
  { d with entries := d.entries.insert name take, writes := d.writes ++ [(name, take.origin)] }

def remove : Device τ γ := { d with entries := d.entries.erase name }

def removeAll (names : List DartString) : Device τ γ := names.foldl remove d

variable {d name} {other : DartString} {take : Take τ}

@[simp] theorem find_put_self : (d.put name take).find name = some take :=
  AList.lookup_insert d.entries

theorem find_put_of_ne (h : other ≠ name) : (d.put name take).find other = d.find other :=
  AList.lookup_insert_ne h

@[simp] theorem find_remove_self : (d.remove name).find name = none := AList.lookup_erase name d.entries

theorem find_remove_of_ne (h : other ≠ name) : (d.remove name).find other = d.find other :=
  AList.lookup_erase_ne h

theorem find_of_find_remove (h : (d.remove name).find other = some take) :
    d.find other = some take := by
  by_cases hname : other = name
  · subst hname
    rw [find_remove_self] at h
    cases h
  · rwa [find_remove_of_ne hname] at h

theorem find_of_find_removeAll {names : List DartString}
    (h : (d.removeAll names).find other = some take) : d.find other = some take := by
  induction names generalizing d with
  | nil => exact h
  | cons name rest ih => exact find_of_find_remove (ih h)

end Device

end Apm.Takes
