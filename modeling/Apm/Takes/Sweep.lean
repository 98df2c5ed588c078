import Apm.Takes.AtRest

/-!
# The sweep of the expired takes

At the start of the app the takes are swept: `sweepExpired` reads every skill that the
store knows, and a read deletes what it finds stale. The read of the stores below reports
two takes only where they differ, so the sweep sees no skill that was saved once.
-/

namespace Apm.Takes

open Apm.Lib

set_option autoImplicit false

section alone

variable {ι τ γ : Type} {answer : ι} {aes : AesGcm} {Ready : Device τ γ → Prop} {d t : Device τ γ}
  {skill other : DartString} {take : Take τ}

/-! ## What a read deletes -/

variable (ttl : Int) (aes)

/-- The stamp of the take is older than `ttl`. -/
def Stale (d : Device τ γ) (skill : DartString) (take : Take τ) : Prop :=
  ∃ clear saved, Opens aes d skill take clear ∧ TtlVoiceTakeStore.stampOf clear = some saved ∧
    ttl < (d.now : Int) - 1000 * saved

/-- The two takes of the skill differ. -/
def Differ (d : Device τ γ) (skill : DartString) (b l : Take τ) : Prop :=
  d.pair skill = (some b, some l) ∧ b.bytes ≠ l.bytes

/-- A read of the skill finds takes, and finds one stale. -/
def Expired (d : Device τ γ) (skill : DartString) : Prop :=
  ∃ b l, Differ d skill b l ∧ (Stale aes ttl d skill b ∨ Stale aes ttl d skill l)

/-- The skills have been read: those that had expired are gone, and no other take is. -/
structure Visited (skills : List DartString) (d t : Device τ γ) : Prop where
  now : t.now = d.now
  stored : ∀ k, d.keyStorage = some k → t.keyStorage = some k
  gone : ∀ skill ∈ skills, Expired aes ttl d skill → t.pair skill = (none, none)
  kept : ∀ skill, ¬ Expired aes ttl d skill → t.pair skill = d.pair skill
  others : ∀ skill, (∀ s ∈ skills, safeStorageKey s ≠ safeStorageKey skill) →
    t.pair skill = d.pair skill

variable {ttl aes}

theorem Stale.congr (h : safeStorageKey skill = safeStorageKey other)
    (hstale : Stale aes ttl d skill take) : Stale aes ttl d other take := by
  obtain ⟨clear, saved, hopens, hsaved⟩ := hstale
  exact ⟨clear, saved, hopens.congr h, hsaved⟩

theorem Expired.congr (h : safeStorageKey skill = safeStorageKey other)
    (hexpired : Expired aes ttl d skill) : Expired aes ttl d other := by
  obtain ⟨b, l, ⟨hpair, hne⟩, hstale⟩ := hexpired
  exact ⟨b, l, ⟨(d.pair_congr h).symm.trans hpair, hne⟩, hstale.imp (·.congr h) (·.congr h)⟩

/-- Takes that can be decrypted before the read are as stale after it. -/
theorem stale_iff (hd : AtRest aes Ready d) (hnow : t.now = d.now)
    (hstored : ∀ k, d.keyStorage = some k → t.keyStorage = some k) (htake : d.Holds skill take) :
    Stale aes ttl t skill take ↔ Stale aes ttl d skill take := by
  constructor
  · rintro ⟨clear, saved, ⟨key, hkey, hclear⟩, hsaved, hold⟩
    obtain ⟨-, -, ⟨key', hkey', -⟩, -⟩ := hd.opens skill take htake
    obtain rfl := Option.some.inj (hkey.symm.trans (hstored key' hkey'))
    exact ⟨clear, saved, ⟨key, hkey', hclear⟩, hsaved, hnow ▸ hold⟩
  · rintro ⟨clear, saved, hopens, hsaved, hold⟩
    exact ⟨clear, saved, hopens.mono hstored, hsaved, hnow ▸ hold⟩

/-- The header decides. -/
theorem freshBytesOrNull_eq_none_iff (ttl : Int) (hd : AtRest aes Ready d) (htake : d.Holds skill take)
    {clear : Bytes} (hopens : Opens aes d skill take clear) :
    TtlVoiceTakeStore.freshBytesOrNull ttl d.now ⟨clear, take.origin⟩ = none ↔
      Stale aes ttl d skill take := by
  obtain ⟨key, hkey, hclear⟩ := hopens
  obtain ⟨clear', saved, ⟨key', hkey', hclear'⟩, hsaved⟩ := hd.opens skill take htake
  obtain rfl := Option.some.inj (hkey.symm.trans hkey')
  obtain rfl := Option.some.inj (hclear.symm.trans hclear')
  simp only [TtlVoiceTakeStore.freshBytesOrNull, hsaved]
  constructor
  · intro hnone
    split_ifs at hnone with hold
    exact ⟨clear, saved, ⟨key, hkey, hclear⟩, hsaved, hold⟩
  · rintro ⟨clear', saved', ⟨key', hkey', hclear'⟩, hsaved', hold⟩
    obtain rfl := Option.some.inj (hkey.symm.trans hkey')
    obtain rfl := Option.some.inj (hclear.symm.trans hclear')
    obtain rfl := Option.some.inj (hsaved.symm.trans hsaved')
    exact if_pos hold

theorem expired_iff (hd : AtRest aes Ready d) (hnow : t.now = d.now)
    (hstored : ∀ k, d.keyStorage = some k → t.keyStorage = some k)
    (hpair : t.pair skill = d.pair skill) : Expired aes ttl t skill ↔ Expired aes ttl d skill := by
  refine exists_congr fun b => exists_congr fun l => ?_
  rw [Differ, Differ, hpair]
  refine and_congr_right fun hdiffer => ?_
  rw [stale_iff hd hnow hstored (.inl (congrArg Prod.fst hdiffer.1)),
    stale_iff hd hnow hstored (.inr (congrArg Prod.snd hdiffer.1))]

namespace Visited

theorem unchanged {skills : List DartString} (hnow : t.now = d.now)
    (hstored : ∀ k, d.keyStorage = some k → t.keyStorage = some k) (hpair : t.pair = d.pair)
    (hfresh : ∀ skill ∈ skills, ¬ Expired aes ttl d skill) : Visited aes ttl skills d t where
  now := hnow
  stored := hstored
  gone skill hskill hexpired := absurd hexpired (hfresh skill hskill)
  kept skill _ := congrFun hpair skill
  others skill _ := congrFun hpair skill

/-- Some skills are read, and then some more. -/
theorem trans {skills rest : List DartString} {u : Device τ γ} (hd : AtRest aes Ready d)
    (hfirst : Visited aes ttl skills d t) (hrest : Visited aes ttl rest t u) :
    Visited aes ttl (skills ++ rest) d u where
  now := hrest.now.trans hfirst.now
  stored k hk := hrest.stored k (hfirst.stored k hk)
  gone other hother hexpired := by
    by_cases hread : ∃ s ∈ skills, safeStorageKey s = safeStorageKey other
    · obtain ⟨s, hs, hname⟩ := hread
      have hgone : t.pair other = (none, none) := by
        rw [← t.pair_congr hname]
        exact hfirst.gone s hs (hexpired.congr hname.symm)
      have hnot : ¬ Expired aes ttl t other := by
        rintro ⟨b, l, ⟨hpair, -⟩, -⟩
        rw [hgone] at hpair
        cases hpair
      exact (hrest.kept other hnot).trans hgone
    · have hpair := hfirst.others other fun s hs hname => hread ⟨s, hs, hname⟩
      have hmem : other ∈ rest :=
        (List.mem_append.mp hother).resolve_left fun h => hread ⟨other, h, rfl⟩
      exact hrest.gone other hmem ((expired_iff hd hfirst.now hfirst.stored hpair).mpr hexpired)
  kept other hnot := by
    have hpair := hfirst.kept other hnot
    refine (hrest.kept other fun h => hnot ?_).trans hpair
    exact (expired_iff hd hfirst.now hfirst.stored hpair).mp h
  others other hothers := by
    rw [hrest.others other fun s hs => hothers s (List.mem_append_right skills hs),
      hfirst.others other fun s hs => hothers s (List.mem_append_left rest hs)]

end Visited

section sweep

variable {inner : VoiceTakeStore ι τ γ} (hinner : KeepsTakes answer Ready inner)

include hinner

theorem deleteSkill_visits (hnow : t.now = d.now)
    (hstored : ∀ k, d.keyStorage = some k → t.keyStorage = some k) (hpair : t.pair = d.pair)
    (ht : AtRest aes Ready t) (hexpired : Expired aes ttl d skill) :
    Async.Returns answer (inner.deleteSkill skill) t fun _ u =>
      AtRest aes Ready u ∧ Visited aes ttl [skill] d u := by
  refine (deleteSkill_rests hinner ht skill).mono ?_
  rintro _ u ⟨hu, hmemory, hgone, hothers⟩
  rw [hpair] at hothers
  refine ⟨hu, hmemory.now.trans hnow, fun k hk => hmemory.keyStorage.trans (hstored k hk), ?_, ?_, ?_⟩
  · rintro other hother -
    rw [List.mem_singleton.mp hother, hgone]
  · intro other hnot
    exact hothers other fun hname => hnot (hexpired.congr hname)
  · intro other hother
    exact hothers other (hother skill (List.mem_singleton_self skill))

theorem TtlVoiceTakeStore.takesFor_visits (hd : AtRest aes Ready d) (caller : Nat)
    (skill : DartString) :
    Async.Returns answer (takesFor ttl (encryptedVoiceTakeStore aes caller inner) skill) d fun _ t =>
      AtRest aes Ready t ∧ Visited aes ttl [skill] d t := by
  refine .bind (EncryptedVoiceTakeStore.takesFor_returns hinner hd caller skill).awaiting ?_
  rintro takes t ⟨ht, hpair, hnow, hstored, ⟨rfl, hnone⟩ | ⟨b, l, cb, cl, hsome, hb, hl, rfl⟩⟩
  · refine .pure ⟨ht, .unchanged hnow hstored hpair fun other hother => ?_⟩
    rintro ⟨b, l, ⟨hdiffer, hne⟩, -⟩
    rw [List.mem_singleton.mp hother] at hdiffer
    rw [hdiffer, compared_of_ne hne] at hnone
    cases hnone
  · obtain ⟨hheldb, hheldl, hne⟩ := compared_eq_some hsome
    have hdiffer : Differ d skill b l := ⟨Prod.ext hheldb hheldl, hne⟩
    have hfreshb := freshBytesOrNull_eq_none_iff ttl hd (.inl hheldb) hb
    have hfreshl := freshBytesOrNull_eq_none_iff ttl hd (.inr hheldl) hl
    refine .next (Async.exec_get _ _) ?_
    rw [← hnow] at hfreshb hfreshl
    have hdelete (hstale : Stale aes ttl d skill b ∨ Stale aes ttl d skill l) :=
      (deleteSkill_visits hinner hnow hstored hpair ht ⟨b, l, hdiffer, hstale⟩).awaiting.bind
        (f := fun _ => (Pure.pure none : OnDevice ι τ γ (Option (VoiceTakes τ))))
        (Q := fun _ u => AtRest aes Ready u ∧ Visited aes ttl [skill] d u) fun _ _ h => .pure h
    cases hb' : freshBytesOrNull ttl t.now ⟨cb, b.origin⟩ with
    | none => exact hdelete (.inl (hfreshb.mp hb'))
    | some fb =>
      cases hl' : freshBytesOrNull ttl t.now ⟨cl, l.origin⟩ with
      | none => exact hdelete (.inr (hfreshl.mp hl'))
      | some fl =>
        refine .pure ⟨ht, .unchanged hnow hstored hpair fun other hother => ?_⟩
        rintro ⟨b', l', ⟨hpair', -⟩, hstale⟩
        rw [List.mem_singleton.mp hother, hdiffer.1] at hpair'
        cases hpair'
        rw [List.mem_singleton.mp hother] at hstale
        cases hstale with
        | inl h => rw [hfreshb.mpr h] at hb'; cases hb'
        | inr h => rw [hfreshl.mpr h] at hl'; cases hl'

theorem sweep_visits (caller : Nat) (skills : List DartString) (hd : AtRest aes Ready d) :
    Async.Returns answer (skills.forM fun skill => do
        let _ ← Async.awaiting
          (TtlVoiceTakeStore.takesFor ttl (encryptedVoiceTakeStore aes caller inner) skill)
        pure ()) d fun _ t => AtRest aes Ready t ∧ Visited aes ttl skills d t := by
  induction skills generalizing d with
  | nil => exact .pure ⟨hd, .unchanged rfl (fun _ hk => hk) rfl fun _ h => absurd h List.not_mem_nil⟩
  | cons skill rest ih =>
    refine .bind (P := fun _ t => AtRest aes Ready t ∧ Visited aes ttl [skill] d t)
      (.bind (TtlVoiceTakeStore.takesFor_visits hinner hd caller skill).awaiting
        fun _ t ht => .pure ht) ?_
    rintro _ t ⟨ht, hfirst⟩
    exact (ih ht).mono fun _ u ⟨hu, hrest⟩ => ⟨hu, hfirst.trans hd hrest⟩

end sweep

variable (ttl aes) in
/-- What the sweep is for: no stale take remains, and a skill whose takes are all fresh keeps
them. -/
structure Swept (d t : Device τ γ) : Prop where
  noneStale : ∀ skill take, t.Holds skill take → ¬ Stale aes ttl t skill take
  freshKept : ∀ skill, (∀ take, d.Holds skill take → ¬ Stale aes ttl d skill take) →
    t.pair skill = d.pair skill

/-- Once every skill that holds takes has been read, the stale takes that remain are those of
skills whose takes do not differ. -/
theorem Visited.swept_iff {skills : List DartString} (hd : AtRest aes Ready d)
    (hskills : ∀ skill take, d.Holds skill take → safeStorageKey skill ∈ skills)
    (hvisited : Visited aes ttl skills d t) :
    Swept aes ttl d t ↔
      ∀ skill take, d.Holds skill take → Stale aes ttl d skill take → ∃ b l, Differ d skill b l := by
  constructor
  · intro hswept skill take htake hstale
    by_contra hsame
    have hpair : t.pair skill = d.pair skill :=
      hvisited.kept skill fun ⟨b, l, hdiffer, _⟩ => hsame ⟨b, l, hdiffer⟩
    have hkept : t.Holds skill take := by rwa [Device.Holds, hpair]
    exact hswept.noneStale skill take hkept ((stale_iff hd hvisited.now hvisited.stored htake).mpr hstale)
  · intro hdiffer
    constructor
    · intro skill take hkept hstale
      have hfresh : ¬ Expired aes ttl d skill := by
        intro hexpired
        have hread : safeStorageKey skill ∈ skills := by
          obtain ⟨b, l, ⟨hpair, -⟩, -⟩ := hexpired
          exact hskills skill b (.inl (congrArg Prod.fst hpair))
        have hgone := hvisited.gone _ hread (hexpired.congr (safeStorageKey_idem skill).symm)
        rw [Device.Holds, ← t.pair_congr (safeStorageKey_idem skill), hgone] at hkept
        cases hkept with
        | inl h => cases h
        | inr h => cases h
      have htake : d.Holds skill take := by rwa [Device.Holds, ← hvisited.kept skill hfresh]
      have hstale' := (stale_iff hd hvisited.now hvisited.stored htake).mp hstale
      obtain ⟨b, l, hpair, hne⟩ := hdiffer skill take htake hstale'
      refine hfresh ⟨b, l, ⟨hpair, hne⟩, ?_⟩
      rw [Device.Holds, hpair] at htake
      cases htake with
      | inl h => exact .inl (Option.some.inj h ▸ hstale')
      | inr h => exact .inr (Option.some.inj h ▸ hstale')
    · intro skill hfresh
      refine hvisited.kept skill ?_
      rintro ⟨b, l, ⟨hpair, -⟩, hstale⟩
      cases hstale with
      | inl h => exact hfresh b (.inl (congrArg Prod.fst hpair)) h
      | inr h => exact hfresh l (.inr (congrArg Prod.snd hpair)) h

theorem TtlVoiceTakeStore.sweepExpired_returns {inner : VoiceTakeStore ι τ γ}
    (hinner : KeepsTakes answer Ready inner) (caller : Nat) (ttl : Int) (hd : AtRest aes Ready d) :
    Async.Returns answer (sweepExpired ttl (encryptedVoiceTakeStore aes caller inner)) d fun _ t =>
      Swept aes ttl d t ↔ ∀ skill take, d.Holds skill take → Stale aes ttl d skill take →
        ∃ b l, Differ d skill b l := by
  refine .bind (hinner.knownSkills d hd.ready).awaiting ?_
  rintro skills t ⟨hready, hmemory, hfind, hskills⟩
  have hpair : t.pair = d.pair := by
    funext other
    simp only [Device.pair, hfind]
  have ht : AtRest aes Ready t := hd.of_same hready hmemory fun other take h => by
    rwa [Device.Holds, hpair] at h
  refine (sweep_visits hinner caller skills ht).mono ?_
  rintro _ u ⟨-, hvisited⟩
  have hknown : Visited aes ttl [] d t :=
    .unchanged hmemory.now (fun k hk => hmemory.keyStorage.trans hk) hpair
      fun _ h => absurd h List.not_mem_nil
  refine (hknown.trans hd hvisited).swept_iff hd fun skill take htake => ?_
  refine hskills skill (htake.imp ?_ ?_)
  · exact fun h => Option.ne_none_iff_exists'.mpr ⟨take, h⟩
  · exact fun h => Option.ne_none_iff_exists'.mpr ⟨take, h⟩

end alone

/-! ## Histories -/

/-- A call of the store, or a new start of the app. -/
inductive RetentionEvent where
  | saveTake (skill : DartString) (bytes : Bytes)
  | takesFor (skill : DartString)
  | deleteSkill (skill : DartString)
  | restart
  deriving DecidableEq, Repr

section history

variable {ι τ γ : Type} (answer : ι) (ttl : Int)

/-- What the app keeps in memory is lost. -/
def Device.restart (d : Device τ γ) : Device τ γ :=
  { d with
    dirOpened := false, fileEpoch := 0, epoch := 0, cachedKey := none, keyLock := .free,
    currentUserId := none, pendingPurges := none }

def RetentionEvent.program (store : VoiceTakeStore ι Unit Unit) :
    RetentionEvent → OnDevice ι Unit Unit Unit
  | .saveTake skill bytes => TtlVoiceTakeStore.saveTake store skill ⟨bytes, ()⟩
  | .takesFor skill => do
    let _ ← TtlVoiceTakeStore.takesFor ttl store skill
    pure ()
  | .deleteSkill skill => store.deleteSkill skill
  | .restart => Async.modify Device.restart

/-- The event happens alone at its time. -/
def perform (store : VoiceTakeStore ι Unit Unit) (d : Device Unit Unit)
    (event : DateTime × RetentionEvent) : Option (Device Unit Unit) :=
  (Async.exec answer (event.2.program ttl store) { d with now := event.1.micros }).map Prod.snd

variable {answer} {aes : AesGcm} {Ready : Device Unit Unit → Prop} {d : Device Unit Unit}
  {inner : VoiceTakeStore ι Unit Unit}

theorem AtRest.at (hinner : KeepsTakes answer Ready inner) (hd : AtRest aes Ready d) (time : DateTime) :
    AtRest aes Ready { d with now := time.micros } :=
  ⟨hinner.ready_congr d _ rfl rfl hd.ready, hd.free, hd.cached, hd.opens⟩

theorem RetentionEvent.program_rests (hinner : KeepsTakes answer Ready inner)
    (event : DateTime × RetentionEvent) (hd : AtRest aes Ready { d with now := event.1.micros }) :
    Async.Returns answer (event.2.program ttl (encryptedVoiceTakeStore aes 0 inner))
      { d with now := event.1.micros } fun _ t => AtRest aes Ready t := by
  obtain ⟨time, event⟩ := event
  cases event with
  | saveTake skill bytes =>
    exact .next (Async.exec_get _ _) (EncryptedVoiceTakeStore.saveTake_returns hinner hd 0 skill
      (TtlVoiceTakeStore.stampOf_stamp time bytes))
  | takesFor skill =>
    exact (TtlVoiceTakeStore.takesFor_visits hinner hd 0 skill).bind fun _ _ ht => .pure ht.1
  | deleteSkill skill => exact (deleteSkill_rests hinner hd skill).mono fun _ _ ht => ht.1
  | restart =>
    refine .modify ⟨hinner.ready_congr { d with now := time.micros } _ rfl rfl hd.ready, rfl, ?_, hd.opens⟩
    rintro k ⟨⟩

theorem history_rests (hinner : KeepsTakes answer Ready inner)
    (history : List (DateTime × RetentionEvent)) (hd : AtRest aes Ready d) :
    ∃ t, history.foldlM (perform answer ttl (encryptedVoiceTakeStore aes 0 inner)) d = some t ∧
      AtRest aes Ready t := by
  induction history generalizing d with
  | nil => exact ⟨d, rfl, hd⟩
  | cons event rest ih =>
    obtain ⟨_, t, hexec, ht⟩ := RetentionEvent.program_rests (d := d) ttl hinner event
      (hd.at hinner event.1)
    obtain ⟨u, hrun, hu⟩ := ih ht
    refine ⟨u, ?_, hu⟩
    rw [List.foldlM_cons, perform, hexec]
    exact hrun

theorem fresh_atRest (aes : AesGcm) (backend : Backend) :
    AtRest aes backend.Ready (Device.fresh () : Device Unit Unit) where
  ready := by
    cases backend with
    | file => exact fun _ _ => rfl
    | keyValue => exact trivial
  free := rfl
  cached := by rintro k ⟨⟩
  opens skill take htake := by
    have hnone : (none : Option (Take Unit)) = some take := htake.elim id id
    cases hnone

end history

/-- **The sweep.** After every history of calls and new starts of the app, the sweep returns. It
leaves no stale take, and deletes no skill whose takes are all fresh, exactly when each skill
that holds a stale take holds two takes whose stored bytes differ. -/
theorem sweepExpired_swept_iff {ι : Type} (answer : ι) (failure : Failure ι) (aes : AesGcm)
    (backend : Backend) (ttl : Int) (history : List (DateTime × RetentionEvent)) (time : DateTime) :
    ∃ d t, history.foldlM (perform answer ttl (encryptedVoiceTakeStore aes 0 (backend.store failure)))
        (Device.fresh ()) = some d ∧
      Async.exec answer (TtlVoiceTakeStore.sweepExpired ttl
          (encryptedVoiceTakeStore aes 0 (backend.store failure))) { d with now := time.micros } =
        some (.ok (), t) ∧
      (Swept aes ttl { d with now := time.micros } t ↔
        ∀ skill take, d.Holds skill take → Stale aes ttl { d with now := time.micros } skill take →
          ∃ b l, d.pair skill = (some b, some l) ∧ b.bytes ≠ l.bytes) := by
  have hinner : KeepsTakes answer backend.Ready (backend.store failure : VoiceTakeStore ι Unit Unit) :=
    backend.keepsTakes answer failure
  obtain ⟨d, hrun, hd⟩ := history_rests ttl hinner history (fresh_atRest aes backend)
  obtain ⟨_, t, hexec, hswept⟩ :=
    TtlVoiceTakeStore.sweepExpired_returns hinner 0 ttl (hd.at hinner time)
  exact ⟨d, t, hrun, hexec, hswept⟩

/-- 30 days, in microseconds. -/
def thirtyDays : Nat := 30 * 24 * 60 * 60 * 1000000

/-- A take is saved once, and the sweep comes a day after it has expired. -/
theorem saved_once_not_swept :
    ∃ d t : Device Unit Unit,
      [(⟨0, Nat.zero_le _⟩, .saveTake [97] [1])].foldlM
        (perform () thirtyDays (encryptedVoiceTakeStore .tagged 0 (Backend.file.store fun _ => none)))
        (Device.fresh ()) = some d ∧
      Async.exec () (TtlVoiceTakeStore.sweepExpired thirtyDays
          (encryptedVoiceTakeStore .tagged 0 (Backend.file.store fun _ => none)))
        { d with now := 31 * 24 * 60 * 60 * 1000000 } = some (.ok (), t) ∧
      ¬ Swept .tagged thirtyDays { d with now := 31 * 24 * 60 * 60 * 1000000 } t := by
  refine ⟨_, _, rfl, rfl, fun hswept => hswept.noneStale [97] _ (.inl rfl) ?_⟩
  refine ⟨TtlVoiceTakeStore.stamp 0 [1], 0, ⟨_, rfl, rfl⟩,
    TtlVoiceTakeStore.stampOf_stamp ⟨0, Nat.zero_le _⟩ [1], ?_⟩
  show (thirtyDays : Int) < ((31 * 24 * 60 * 60 * 1000000 : Nat) : Int) - 1000 * (0 : Nat)
  rw [thirtyDays]
  omega

end Apm.Takes
