import Apm.Takes.Alone

/-!
# Takes at rest

What the methods of the encrypted store do when nothing else runs and no storage fails. Every
take that it keeps can be decrypted with the stored key, and has a stamp.
-/

namespace Apm.Takes

open Apm.Lib

set_option autoImplicit false

/-! ## The time of a take -/

/-- A time that the clock can show, in microseconds since 1970. -/
structure DateTime where
  micros : Nat
  inRange : micros ≤ 1000 * maxMillis

theorem getUint32_uint32 {n : Nat} (h : n < 4294967296) (rest : Bytes) :
    getUint32 (uint32 n ++ rest) = n := by
  have hread : getUint32 (uint32 n ++ rest) =
      256 * (256 * (256 * (n / 16777216 % 256) + n / 65536 % 256) + n / 256 % 256) + n % 256 := by
    simp [getUint32, uint32]
  omega

namespace TtlVoiceTakeStore

/-- The header gives back the time at which a take was saved. -/
theorem stampOf_stamp (time : DateTime) (bytes : Bytes) :
    stampOf (stamp time.micros bytes) = some (time.micros / 1000) := by
  have hrange := time.inRange
  have hmillis : time.micros / 1000 ≤ maxMillis := by omega
  have hhigh : time.micros / 1000 / 4294967296 < 4294967296 := by
    rw [maxMillis] at hmillis
    omega
  have hlow : time.micros / 1000 % 4294967296 < 4294967296 := Nat.mod_lt _ (by decide)
  have hdrop : (stamp time.micros bytes).drop 4 =
      uint32 (time.micros / 1000 % 4294967296) ++ bytes := rfl
  have hlength : ¬ (stamp time.micros bytes).length < 8 := by
    simp [stamp, uint32]
  have hvalue : time.micros / 1000 / 4294967296 * 4294967296 + time.micros / 1000 % 4294967296 =
      time.micros / 1000 := by omega
  rw [stampOf, if_neg hlength, hdrop, getUint32_uint32 hlow, stamp, List.append_assoc,
    getUint32_uint32 hhigh]
  simp only [hvalue, if_neg (Nat.not_lt.mpr hmillis)]

end TtlVoiceTakeStore

section alone

variable {ι τ γ : Type} {answer : ι} {aes : AesGcm}

/-! ## The encrypted store -/

namespace EncryptedVoiceTakeStore

/-- The key is cached and stored, and it is the stored one if there was one. -/
structure Unlocks (d : Device τ γ) (key : Bytes) (t : Device τ γ) : Prop where
  directory : t.directory = d.directory
  entries : t.entries = d.entries
  keyLock : t.keyLock = d.keyLock
  now : t.now = d.now
  epoch : t.epoch = d.epoch
  cached : t.cachedKey = some key
  stored : t.keyStorage = some key
  kept : ∀ k, d.keyStorage = some k → k = key

theorem Unlocks.stored_mono {d t : Device τ γ} {key : Bytes} (ht : Unlocks d key t) :
    ∀ k, d.keyStorage = some k → t.keyStorage = some k := by
  intro k hk
  rw [ht.kept k hk, ht.stored]

theorem synchronized_returns {α : Type} {action : OnDevice ι τ γ α} {d : Device τ γ}
    {P : α → Device τ γ → Prop} (hfree : d.keyLock = .free) (caller : Nat)
    (haction : Async.Returns answer action { d with keyLock := d.keyLock.enter caller }
      fun a t => P a { t with keyLock := t.keyLock.leave }) :
    Async.Returns answer (synchronized caller action) d P := by
  refine .bind (.modify (P := fun _ t => { d with keyLock := d.keyLock.enter caller } = t) rfl) ?_
  rintro _ _ rfl
  refine .next (Async.exec_waitFor _ _ ?_) ?_
  · rw [hfree]
    exact decide_eq_true rfl
  · refine .bind (P := fun r t => ∃ a, r = .ok a ∧ P a { t with keyLock := t.keyLock.leave })
      (.handle (.bind haction.awaiting fun a t ha => .pure ⟨a, rfl, ha⟩)) ?_
    rintro _ t ⟨a, rfl, ha⟩
    exact .next (Async.exec_modify _ _ _) (.next (Async.exec_hop _ _) ⟨a, _, rfl, ha⟩)

theorem resolveKey_returns {d : Device τ γ} (hcached : d.cachedKey = none) :
    Async.Returns answer (resolveKey aes) d fun key t => Unlocks d key t := by
  refine .next (Async.exec_get _ _) ?_
  simp only [hcached]
  refine .next (a := d.keyStorage) (t := d) rfl ?_
  cases hstored : d.keyStorage with
  | some key =>
    refine .next (Async.exec_modify _ _ _) (.pure ⟨rfl, rfl, rfl, rfl, rfl, rfl, hstored, ?_⟩)
    intro k hk
    exact Option.some.inj (hk.symm.trans hstored)
  | none =>
    refine .next (a := aes.newSecretKey d.drawn) (t := { d with drawn := d.drawn + 1 }) rfl ?_
    refine .next (Async.exec_hop _ _) (.next (Async.exec_io _ _ _)
      (.next (Async.exec_modify _ _ _) (.pure ⟨rfl, rfl, rfl, rfl, rfl, rfl, rfl, ?_⟩)))
    intro k hk
    rw [hstored] at hk
    cases hk

theorem keyOrCreate_returns {d : Device τ γ} (hfree : d.keyLock = .free)
    (hcached : ∀ k, d.cachedKey = some k → d.keyStorage = some k) (caller : Nat) :
    Async.Returns answer (keyOrCreate aes caller) d fun key t => Unlocks d key t := by
  refine .next (Async.exec_get _ _) ?_
  cases hkey : d.cachedKey with
  | some key =>
    refine .pure ⟨rfl, rfl, rfl, rfl, rfl, hkey, hcached key hkey, ?_⟩
    intro k hk
    exact Option.some.inj (hk.symm.trans (hcached key hkey))
  | none =>
    refine synchronized_returns hfree caller ((resolveKey_returns
      (d := { d with keyLock := d.keyLock.enter caller }) hkey).mono fun key t ht => ?_)
    refine ⟨ht.directory, ht.entries, ?_, ht.now, ht.epoch, ht.cached, ht.stored, ht.kept⟩
    show t.keyLock.leave = d.keyLock
    rw [ht.keyLock, hfree]
    rfl

theorem decryptOrNull_exec {key : Bytes} {skill : DartString} {stored : Take τ} {clear : Bytes}
    {d : Device τ γ} (h : aes.decrypt key (aad skill) stored.bytes = some clear) :
    Async.exec answer (decryptOrNull aes key skill stored) d =
      some (.ok (some ⟨clear, stored.origin⟩), d) := by
  rw [decryptOrNull, Async.exec_io, h, Option.map_some]

end EncryptedVoiceTakeStore

/-! ## Takes at rest -/

/-- The takes of a skill, its baseline and its latest. -/
def Device.pair (d : Device τ γ) (skill : DartString) : Option (Take τ) × Option (Take τ) :=
  (d.find (baselineName skill), d.find (latestName skill))

/-- The take is kept for the skill. -/
def Device.Holds (d : Device τ γ) (skill : DartString) (take : Take τ) : Prop :=
  (d.pair skill).1 = some take ∨ (d.pair skill).2 = some take

/-- The stored bytes of the take, decrypted. -/
def Opens (aes : AesGcm) (d : Device τ γ) (skill : DartString) (take : Take τ) (clear : Bytes) :
    Prop :=
  ∃ key, d.keyStorage = some key ∧
    aes.decrypt key (EncryptedVoiceTakeStore.aad skill) take.bytes = some clear

/-- Every take that is kept can be decrypted, and has a stamp. -/
structure AtRest (aes : AesGcm) (Ready : Device τ γ → Prop) (d : Device τ γ) : Prop where
  ready : Ready d
  free : d.keyLock = .free
  cached : ∀ k, d.cachedKey = some k → d.keyStorage = some k
  opens : ∀ skill take, d.Holds skill take →
    ∃ clear saved, Opens aes d skill take clear ∧ TtlVoiceTakeStore.stampOf clear = some saved

variable {Ready : Device τ γ → Prop} {d t : Device τ γ} {skill other : DartString} {take : Take τ}

theorem Device.pair_congr (d : Device τ γ) (h : safeStorageKey skill = safeStorageKey other) :
    d.pair skill = d.pair other := by
  rw [pair, pair, baselineName_inj.mpr h, latestName_inj.mpr h]

theorem Device.pair_eq_of_entries (h : t.entries = d.entries) : t.pair = d.pair := by
  funext skill
  simp only [pair, find, h]

theorem Opens.congr {clear : Bytes} (h : safeStorageKey skill = safeStorageKey other)
    (hopens : Opens aes d skill take clear) : Opens aes d other take clear := by
  rwa [Opens, EncryptedVoiceTakeStore.aad, ← h]

theorem Opens.mono {clear : Bytes} (h : ∀ k, d.keyStorage = some k → t.keyStorage = some k)
    (hopens : Opens aes d skill take clear) : Opens aes t skill take clear := by
  obtain ⟨key, hkey, hclear⟩ := hopens
  exact ⟨key, h key hkey, hclear⟩

namespace AtRest

theorem of_same (hd : AtRest aes Ready d) (hready : Ready t) (hmemory : SameMemory d t)
    (hheld : ∀ skill take, t.Holds skill take → d.Holds skill take) : AtRest aes Ready t where
  ready := hready
  free := hmemory.keyLock.trans hd.free
  cached := by
    rw [hmemory.cachedKey, hmemory.keyStorage]
    exact hd.cached
  opens skill take htake := by
    obtain ⟨clear, saved, hopens, hsaved⟩ := hd.opens skill take (hheld skill take htake)
    exact ⟨clear, saved, hopens.mono fun k hk => hmemory.keyStorage.trans hk, hsaved⟩

variable {inner : VoiceTakeStore ι τ γ} {key : Bytes}

theorem unlock (hinner : KeepsTakes answer Ready inner) (hd : AtRest aes Ready d)
    (ht : EncryptedVoiceTakeStore.Unlocks d key t) : AtRest aes Ready t where
  ready := hinner.ready_congr d t ht.directory ht.entries hd.ready
  free := ht.keyLock.trans hd.free
  cached k hk := by rwa [ht.stored, ← ht.cached]
  opens skill take htake := by
    rw [Device.Holds, Device.pair_eq_of_entries ht.entries] at htake
    obtain ⟨clear, saved, hopens, hsaved⟩ := hd.opens skill take htake
    exact ⟨clear, saved, hopens.mono ht.stored_mono, hsaved⟩

/-- What is kept after a save is the new box, or was kept before. -/
theorem save (hd : AtRest aes Ready d) (hready : Ready t) (hmemory : SameMemory d t)
    {box : Take τ} (hlatest : t.find (latestName skill) = some box)
    (hbaseline : t.find (baselineName skill) = some ((d.find (baselineName skill)).getD box))
    (hrest : ∀ name, name ≠ baselineName skill → name ≠ latestName skill → t.find name = d.find name)
    {clear : Bytes} {saved : Nat} (hopens : Opens aes d skill box clear)
    (hsaved : TtlVoiceTakeStore.stampOf clear = some saved) : AtRest aes Ready t where
  ready := hready
  free := hmemory.keyLock.trans hd.free
  cached := by
    rw [hmemory.cachedKey, hmemory.keyStorage]
    exact hd.cached
  opens other take htake := by
    have hkey : ∀ k, d.keyStorage = some k → t.keyStorage = some k :=
      fun k hk => hmemory.keyStorage.trans hk
    have hold : ∀ {take}, d.Holds other take → ∃ clear saved, Opens aes t other take clear ∧
        TtlVoiceTakeStore.stampOf clear = some saved := by
      intro take hold
      obtain ⟨clear, saved, hopens, hsaved⟩ := hd.opens other take hold
      exact ⟨clear, saved, hopens.mono hkey, hsaved⟩
    by_cases hname : safeStorageKey other = safeStorageKey skill
    · have hbox : ∃ clear saved, Opens aes t other box clear ∧
          TtlVoiceTakeStore.stampOf clear = some saved :=
        ⟨clear, saved, (hopens.congr hname.symm).mono hkey, hsaved⟩
      rw [Device.Holds, t.pair_congr hname] at htake
      cases htake with
      | inl hb =>
        have htake := Option.some.inj (hbaseline.symm.trans hb)
        cases hfind : d.find (baselineName skill) with
        | none =>
          rw [hfind, Option.getD_none] at htake
          rwa [← htake]
        | some b =>
          rw [hfind, Option.getD_some] at htake
          refine hold (.inl ?_)
          rw [d.pair_congr hname, ← htake]
          exact hfind
      | inr hl =>
        have htake := Option.some.inj (hlatest.symm.trans hl)
        rwa [← htake]
    · refine hold ?_
      rw [Device.Holds, Device.pair, hrest _ (fun h => hname (baselineName_inj.mp h))
        (baselineName_ne_latestName other skill), hrest _
          (fun h => baselineName_ne_latestName skill other h.symm)
          (fun h => hname (latestName_inj.mp h))] at htake
      exact htake

end AtRest

/-! ## The methods over takes at rest -/

section methods

variable {inner : VoiceTakeStore ι τ γ} (hinner : KeepsTakes answer Ready inner)
  (hd : AtRest aes Ready d)

include hinner hd

theorem EncryptedVoiceTakeStore.saveTake_returns (caller : Nat) (skill : DartString) {take : Take τ}
    {saved : Nat} (hsaved : TtlVoiceTakeStore.stampOf take.bytes = some saved) :
    Async.Returns answer (saveTake aes caller inner skill take) d fun _ t => AtRest aes Ready t := by
  refine .next (Async.exec_get _ _) (.bind (keyOrCreate_returns hd.free hd.cached caller).awaiting ?_)
  intro key t ht
  have htrest := hd.unlock hinner ht
  refine .next (Async.exec_get _ _) ?_
  rw [if_neg (not_not.mpr ht.epoch)]
  refine .next (a := aes.encrypt key (aes.newNonce t.drawn) (aad skill) take.bytes)
    (t := { t with drawn := t.drawn + 1 }) rfl (.next (Async.exec_get _ _) ?_)
  rw [if_neg (not_not.mpr ht.epoch)]
  have hurest : AtRest aes Ready { t with drawn := t.drawn + 1 } :=
    htrest.of_same (hinner.ready_congr t _ rfl rfl htrest.ready) ⟨rfl, rfl, rfl, rfl, rfl⟩
      fun _ _ h => h
  refine .bind (hinner.saveTake _ skill _ hurest.ready).awaiting ?_
  rintro _ u ⟨hready, hmemory, hlatest, hbaseline, hrest⟩
  refine .next (Async.exec_get _ _) (.when (fun hne => ?_) fun _ => ?_)
  · exact absurd (hmemory.epoch.trans ht.epoch) (of_decide_eq_true hne)
  · exact hurest.save hready hmemory hlatest hbaseline hrest
      ⟨key, ht.stored, aes.decrypt_encrypt _ _ _ _⟩ hsaved

/-- The takes of the skill are kept, and differ. -/
theorem EncryptedVoiceTakeStore.takesFor_returns (caller : Nat) (skill : DartString) :
    Async.Returns answer (takesFor aes caller inner skill) d fun takes t =>
      AtRest aes Ready t ∧ t.pair = d.pair ∧ t.now = d.now ∧
        (∀ k, d.keyStorage = some k → t.keyStorage = some k) ∧
        (takes = none ∧ compared (d.pair skill).1 (d.pair skill).2 = none ∨
          ∃ b l cb cl, compared (d.pair skill).1 (d.pair skill).2 = some ⟨b, l⟩ ∧
            Opens aes d skill b cb ∧ Opens aes d skill l cl ∧
            takes = some ⟨⟨cb, b.origin⟩, ⟨cl, l.origin⟩⟩) := by
  refine .bind (hinner.takesFor d skill hd.ready).awaiting ?_
  rintro takes t ⟨hready, hmemory, hfind, htakes⟩
  have hpair : t.pair = d.pair := by
    funext other
    simp only [Device.pair, hfind]
  have htrest : AtRest aes Ready t := hd.of_same hready hmemory fun other take h => by
    rwa [Device.Holds, hpair] at h
  cases takes with
  | none =>
    exact .pure ⟨htrest, hpair, hmemory.now, fun k hk => hmemory.keyStorage.trans hk,
      .inl ⟨rfl, htakes.symm⟩⟩
  | some takes =>
    obtain ⟨b, l⟩ := takes
    have hheld := compared_eq_some htakes.symm
    obtain ⟨cb, -, hb, -⟩ := hd.opens skill b (.inl hheld.1)
    obtain ⟨cl, -, hl, -⟩ := hd.opens skill l (.inr hheld.2.1)
    have hstored : ∀ k, d.keyStorage = some k → t.keyStorage = some k :=
      fun k hk => hmemory.keyStorage.trans hk
    refine .bind (keyOrCreate_returns htrest.free htrest.cached caller).awaiting fun key u hu => ?_
    have hdecrypt {take : Take τ} {clear : Bytes} (hopens : Opens aes d skill take clear) :
        Async.exec answer (Async.awaiting (decryptOrNull aes key skill take)) u =
          some (.ok (some ⟨clear, take.origin⟩), u) := by
      obtain ⟨k, hk, hclear⟩ := hopens
      rw [hu.kept k (hstored k hk)] at hclear
      rw [Async.exec_awaiting, decryptOrNull_exec hclear]
    refine .next (hdecrypt hb) (.next (hdecrypt hl) (.pure ⟨htrest.unlock hinner hu, ?_, ?_, ?_, ?_⟩))
    · rw [Device.pair_eq_of_entries hu.entries, hpair]
    · rw [hu.now, hmemory.now]
    · exact fun k hk => hu.stored_mono k (hstored k hk)
    · exact .inr ⟨b, l, cb, cl, htakes.symm, hb, hl, rfl⟩

theorem deleteSkill_rests (skill : DartString) :
    Async.Returns answer (inner.deleteSkill skill) d fun _ t => AtRest aes Ready t ∧ SameMemory d t ∧
      t.pair skill = (none, none) ∧
      ∀ other, safeStorageKey skill ≠ safeStorageKey other → t.pair other = d.pair other := by
  refine (hinner.deleteSkill d skill hd.ready).mono ?_
  rintro _ t ⟨hready, hmemory, hlatest, hbaseline, hrest⟩
  have hgone : t.pair skill = (none, none) := by rw [Device.pair, hlatest, hbaseline]
  have hothers : ∀ other, safeStorageKey skill ≠ safeStorageKey other → t.pair other = d.pair other := by
    intro other hne
    rw [Device.pair, Device.pair, hrest _ (fun h => hne (baselineName_inj.mp h).symm)
      (baselineName_ne_latestName other skill), hrest _
        (fun h => baselineName_ne_latestName skill other h.symm)
        (fun h => hne (latestName_inj.mp h).symm)]
  refine ⟨hd.of_same hready hmemory fun other take htake => ?_, hmemory, hgone, hothers⟩
  by_cases hname : safeStorageKey skill = safeStorageKey other
  · rw [Device.Holds, ← t.pair_congr hname, hgone] at htake
    cases htake with
    | inl h => cases h
    | inr h => cases h
  · rwa [Device.Holds, hothers other hname] at htake

end methods

end alone

end Apm.Takes
