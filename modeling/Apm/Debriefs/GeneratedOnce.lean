import Apm.Debriefs.Workers
import Mathlib.Data.Fintype.Basic

/-!
# One debrief for a session

Calls of one process generate one after another, but a call of another process
can look for the debrief, ask the LLM and save beside them: the advisory lock is
gone at the I/O boundary. This file proves exactly when the calls of a session
still leave one debrief, one step of the level and one enrichment behind.
-/

namespace Apm.Debriefs

open Apm.Lib

set_option autoImplicit false

variable {ι : Type} [DecidableEq ι]

/-! ## Saves that find a debrief -/

/-- A call that comes to save finds no debrief: its look before the save does not,
and, where the user it returns for can be read after a rollback, its insert does
not. -/
def fresh (S : Setup ι) (w : World ι) : Action ι → Bool
  | .advance i =>
    match w.phase i with
    | .select _ => w.debrief.isNone
    | .commit _ none => !S.lazyLoads || w.debrief.isNone
    | _ => true
  | .analyze .. => true

/-- The level a call has loaded for the nudge. -/
def Phase.loaded : Phase → Option String
  | .reloadProfile _ level => some level
  | p => p.save.map Save.level

/-- While every save finds no debrief there is at most one, from the level before. -/
structure Single (S : Setup ι) (level : String) (w : World ι) : Prop extends Tracked S w where
  inserts : ∀ i save loaded, w.phase i ≠ .commit save (some loaded)
  unmoved : w.saves = [] → w.level = level
  loads : ∀ i, w.saves = [] → ∀ l, (w.phase i).loaded = some l → l = level
  once : w.saves.length ≤ 1
  written : ∀ p ∈ w.saves, w.debrief = some p.2 ∧ CefrStep level w.level
  enrichers : ∀ i, Bound S w i → i ∈ w.saves.map Prod.fst

theorem Save.newLevel_step (save : Save) : CefrStep save.level save.newLevel := by
  unfold Save.newLevel
  split
  · unfold CefrStep
    omega
  · exact nextCefrLevel_step _ _

section single

variable {S : Setup ι} {w w' : World ι} {i : ι} {a : Action ι} {level : String}

omit [DecidableEq ι] in
/-- A fresh step neither overwrites nor binds a call. -/
theorem Next.fresh {p : Phase} (h : Next S w i a (w.phase i) p) (hfresh : fresh S w a = true) :
    (∀ save loaded, p ≠ .commit save (some loaded)) ∧
      (p.bound S.lazyLoads = true → (w.phase i).bound S.lazyLoads = true) := by
  generalize hq : w.phase i = q at h
  cases h with
  | select save ha =>
    subst ha
    simp only [Debriefs.fresh, hq, Option.isNone_iff_eq_none] at hfresh
    rw [hfresh]
    exact ⟨by simp, fun hbound => by cases hbound⟩
  | violation save debrief hrow ha =>
    subst ha
    simp only [Debriefs.fresh, hq, hrow, Option.isNone_some, Bool.or_false, Bool.not_eq_true']
      at hfresh
    refine ⟨by simp, fun hbound => ?_⟩
    rw [Phase.bound, hfresh] at hbound
    cases hbound
  | recovered save result debrief hresult hlazy => exact ⟨by simp, fun _ => hlazy⟩
  | refreshed save => exact ⟨by simp, fun _ => rfl⟩
  | _ => exact ⟨by simp, fun hbound => by cases hbound⟩

omit [DecidableEq ι] in
theorem Next.loaded {p p' : Phase} (h : Next S w i a p p') (hspoken : S.spoken = true)
    (hlevel : w.level = level) (hp : ∀ l, p.loaded = some l → l = level) :
    ∀ l, p'.loaded = some l → l = level := by
  cases h with
  | silent l hsilent =>
    rw [hspoken] at hsilent
    cases hsilent
  | reloadUser result => exact fun l hl => Option.some.inj hl ▸ hlevel
  | reloadProfile | flushUser | flushProfile | select | violation => exact hp
  | _ => exact fun l hl => by cases hl

/-- A step that saves nothing. -/
theorem single_keep {p : Phase} (h : Single S level w) (htracked : Tracked S w')
    (hphase : w'.phase = Function.update w.phase i p) (hlevel : w'.level = w.level)
    (hdebrief : w'.debrief = w.debrief) (hsaves : w'.saves = w.saves)
    (hinsert : ∀ save loaded, p ≠ .commit save (some loaded))
    (hload : w.saves = [] → ∀ l, p.loaded = some l → l = level)
    (hback : ∀ j, Bound S w' j → Bound S w j) : Single S level w' where
  toTracked := htracked
  inserts := forall_phase (fun _ q => ∀ save loaded, q ≠ .commit save (some loaded)) h.inserts
    hphase hinsert
  unmoved := by
    rw [hsaves, hlevel]
    exact h.unmoved
  loads := by
    rw [hsaves]
    exact forall_phase (fun _ q => w.saves = [] → ∀ l, q.loaded = some l → l = level) h.loads hphase
      hload
  once := by
    rw [hsaves]
    exact h.once
  written := by
    rw [hsaves, hdebrief, hlevel]
    exact h.written
  enrichers := fun j hj => by
    rw [hsaves]
    exact h.enrichers j (hback j hj)

/-- The first save, from the level before. -/
theorem single_store {save : Save} (h : Single S level w) (htracked : Tracked S w')
    (hcommit : w.phase i = .commit save none) (hnone : w.debrief = none)
    (hphase : w'.phase = Function.update w.phase i (.refresh save))
    (hlevel : w'.level = writeColumn save.level save.newLevel w.level)
    (hdebrief : w'.debrief = some save.debrief)
    (hsaves : w'.saves = w.saves ++ [(i, save.debrief)]) (henriched : w'.enriched = w.enriched) :
    Single S level w' := by
  have hempty : w.saves = [] := h.stored.mp hnone
  have hloaded : save.level = level := h.loads i hempty _ (by rw [hcommit]; rfl)
  have hnew : w'.level = save.newLevel := by
    rw [hlevel, h.unmoved hempty, hloaded, writeColumn_current]
  rw [hempty, List.nil_append] at hsaves
  refine ⟨htracked, ?_, ?_, ?_, ?_, ?_, ?_⟩
  · exact forall_phase (fun _ q => ∀ save loaded, q ≠ .commit save (some loaded)) h.inserts hphase
      fun _ _ => by simp
  · rw [hsaves]
    exact fun hnil => by cases hnil
  · rw [hsaves]
    exact fun _ hnil => by cases hnil
  · rw [hsaves]
    exact Nat.le_refl 1
  · intro q hq
    rw [hsaves] at hq
    obtain rfl := List.mem_singleton.mp hq
    exact ⟨hdebrief, by rw [hnew, ← hloaded]; exact save.newLevel_step⟩
  · intro j hj
    rw [hsaves]
    by_cases hji : j = i
    · exact List.mem_singleton.mpr hji
    · -- nobody was bound before the first save
      unfold Bound at hj
      rw [henriched, hphase, Function.update_of_ne hji] at hj
      have hsaver := h.enrichers j hj
      rw [hempty] at hsaver
      cases hsaver

theorem single_step (hspoken : S.spoken = true) (h : Single S level w)
    (hfresh : fresh S w a = true) (hmove : Moves S w i a w') : Single S level w' := by
  have htracked := tracked_step hspoken h.toTracked hmove
  cases hmove with
  | quiet p hnext hphase hlevel hdebrief hsaves henriched =>
    refine single_keep h htracked hphase hlevel hdebrief hsaves (hnext.fresh hfresh).1
      (fun hnone => hnext.loaded hspoken (h.unmoved hnone) (h.loads i hnone)) fun j hj => ?_
    unfold Bound at hj ⊢
    rw [henriched, hphase] at hj
    by_cases hji : j = i
    · subst hji
      rw [Function.update_self] at hj
      exact hj.imp_left (hnext.fresh hfresh).2
    · rwa [Function.update_of_ne hji] at hj
  | store save existing row hcommit hrow hphase hlevel hdebrief hsaves henriched =>
    obtain ⟨rfl, hnone, rfl⟩ | ⟨hsome, -⟩ := hrow
    · exact single_store h htracked hcommit hnone hphase hlevel hdebrief hsaves henriched
    · cases existing with
      | none => exact absurd rfl hsome
      | some loaded => exact absurd hcommit (h.inserts i save loaded)
  | enrich result debrief henrich hphase hlevel hdebrief hsaves henriched =>
    refine single_keep h htracked hphase hlevel hdebrief hsaves (fun _ _ => by simp)
      (fun _ l hl => by cases hl) fun j hj => ?_
    unfold Bound at hj ⊢
    rw [henriched, hphase, List.map_append, List.mem_append] at hj
    by_cases hji : j = i
    · left
      rw [hji, henrich]
      rfl
    · rw [Function.update_of_ne hji] at hj
      exact hj.imp_right fun hmem => hmem.resolve_right fun hnew => hji (List.mem_singleton.mp hnew)

end single

/-! ## Complete runs -/

/-- Every call that has begun has ended. -/
def Complete (w : World ι) : Prop := ∀ i, w.phase i = .entered ∨ (w.phase i).ended = true

/-- What the calls of a session leave behind: one step of the level, the debrief of
the first committer, one enrichment. -/
structure Settled (level : String) (w : World ι) : Prop where
  level : CefrStep level w.level
  debrief : w.debrief = w.saves.head?.map Prod.snd
  enriched : w.enriched.length = 1

omit [DecidableEq ι] in
theorem Complete.enriched {S : Setup ι} {w : World ι} (h : Complete w) {i : ι} (hi : Bound S w i) :
    i ∈ w.enriched.map Prod.fst := by
  refine hi.resolve_left fun hbound => ?_
  rcases h i with hp | hp
  · rw [hp] at hbound
    cases hbound
  · cases hphase : w.phase i <;> rw [hphase] at hp hbound <;> cases hp
    cases hbound

omit [DecidableEq ι] in
theorem tracked_init (S : Setup ι) (level : String) (memorySummary : Option String) :
    Tracked S (World.init level memorySummary : World ι) where
  heard := fun _ _ hsave => by cases hsave
  stored := ⟨fun _ => rfl, fun _ => rfl⟩
  present := fun _ hbound => by cases hbound
  savers := fun _ hmem => by cases hmem
  ended := fun _ hmem => by cases hmem
  nodup := List.nodup_nil

omit [DecidableEq ι] in
theorem single_init (S : Setup ι) (level : String) (memorySummary : Option String) :
    Single S level (World.init level memorySummary : World ι) where
  toTracked := tracked_init S level memorySummary
  inserts := fun _ _ _ h => by cases h
  unmoved := fun _ => rfl
  loads := fun _ _ _ h => by cases h
  once := Nat.zero_le 1
  written := fun _ hmem => by cases hmem
  enrichers := fun i hi => by
    rcases hi with hbound | hmem
    · cases hbound
    · cases hmem

section complete

variable {S : Setup ι} {w w' : World ι} {as : List (Action ι)}

/-- A call that finds the debrief of another one enriches beside it. -/
theorem two_bound {a : Action ι} (h : Tracked S w) (hstale : fresh S w a = false)
    (hstep : step S w a = some w') : ∃ i j, i ≠ j ∧ Bound S w' i ∧ Bound S w' j := by
  have hmove := step_moves hstep
  have hother : ∀ {i : ι}, w.debrief ≠ none → ¬Bound S w i → Bound S w' i →
      ∃ i j, i ≠ j ∧ Bound S w' i ∧ Bound S w' j := by
    intro i hrow hold hnew
    obtain ⟨p, rest, hp⟩ := List.exists_cons_of_ne_nil fun hnil => hrow (h.stored.mpr hnil)
    have hsaver := h.savers p (by rw [hp]; exact List.mem_cons_self)
    exact ⟨i, p.1, fun he => hold (he ▸ hsaver), hnew, bound_step h hmove hsaver⟩
  have hunbound : ∀ {i : ι}, (w.phase i).ended = false → (w.phase i).bound S.lazyLoads = false →
      ¬Bound S w i := by
    intro i hlive hbound hi
    rcases hi with hb | hmem
    · rw [hb] at hbound
      cases hbound
    · rw [h.ended i hmem] at hlive
      cases hlive
  cases a with
  | analyze i result => cases hstale
  | advance i =>
    simp only [fresh] at hstale
    split at hstale
    · rename_i save hphase
      obtain ⟨debrief, hrow⟩ : ∃ debrief, w.debrief = some debrief :=
        Option.isSome_iff_exists.mp (by simpa using hstale)
      simp only [step, hphase, advance, Option.some.injEq] at hstep
      subst hstep
      refine hother (by rw [hrow]; simp) (hunbound (by rw [hphase]; rfl) (by rw [hphase]; rfl))
        (.inl ?_)
      simp only [World.setPhase, Function.update_self, hrow, Phase.bound]
    · rename_i save hphase
      simp only [Bool.or_eq_false_iff, Bool.not_eq_false', Option.isNone_eq_false_iff] at hstale
      obtain ⟨hlazy, hsome⟩ := hstale
      obtain ⟨debrief, hrow⟩ := Option.isSome_iff_exists.mp hsome
      simp only [step, hphase, advance, hrow, Option.some.injEq] at hstep
      subst hstep
      refine hother (by rw [hrow]; simp) (hunbound (by rw [hphase]; rfl) (by rw [hphase]; rfl))
        (.inl ?_)
      simp only [World.setPhase, Function.update_self, Phase.bound, hlazy]
    · cases hstale

/-- A run with one enrichment has only fresh saves. -/
theorem fresh_of_enriched_once (hspoken : S.spoken = true) (h : Tracked S w)
    (hrun : run (step S) w as = some w') (hdone : Complete w') (honce : w'.enriched.length ≤ 1) :
    Along (step S) (fun w a _ => fresh S w a = true) w as := by
  induction as generalizing w with
  | nil => exact along_nil w
  | cons a rest ih =>
    obtain ⟨m, hm, hrest⟩ := run_cons_iff.mp hrun
    have htracked := tracked_step hspoken h (step_moves hm)
    intro t ht
    obtain rfl := Option.some.inj (hm.symm.trans ht)
    refine ⟨?_, ih htracked hrest⟩
    by_contra hstale
    obtain ⟨i, j, hij, hi, hj⟩ := two_bound h (by simpa using hstale) hm
    obtain ⟨-, hi', hj'⟩ := run_preserves (I := fun w => Tracked S w ∧ Bound S w i ∧ Bound S w j)
      (fun w a w' hinv (hs : step S w a = some w') =>
        ⟨tracked_step hspoken hinv.1 (step_moves hs), bound_step hinv.1 (step_moves hs) hinv.2.1,
          bound_step hinv.1 (step_moves hs) hinv.2.2⟩)
      ⟨htracked, hi, hj⟩ hrest
    have hmemi := hdone.enriched hi'
    have hmemj := hdone.enriched hj'
    have hlength : (w'.enriched.map Prod.fst).length ≤ 1 := by rwa [List.length_map]
    match hlist : w'.enriched.map Prod.fst with
    | [] =>
      rw [hlist] at hmemi
      cases hmemi
    | [k] =>
      rw [hlist] at hmemi hmemj
      exact hij ((List.mem_singleton.mp hmemi).trans (List.mem_singleton.mp hmemj).symm)
    | _ :: _ :: _ =>
      rw [hlist] at hlength
      simp at hlength

/-- A phase of a call that has no result of the LLM. -/
def Phase.mute (spoken : Bool) : Phase → Bool
  | .boundary | .analyze => spoken
  | .reloadUser _ | .reloadProfile .. | .enrich .. => false
  | p => p.save.all (·.result.isNone)

omit [DecidableEq ι] in
theorem Next.mute {i : ι} {a : Action ι} {p p' : Phase} (h : Next S w i a p p')
    (hunheard : S.spoken = false ∨ ∀ result, a ≠ .analyze i (some result))
    (hp : p.mute S.spoken = true) : p'.mute S.spoken = true := by
  cases h with
  | silent level hspoken => rfl
  | spoken level hspoken => exact hspoken
  | heard result ha =>
    rcases hunheard with hsilent | hnone
    · rw [Phase.mute, hsilent] at hp
      cases hp
    · exact absurd ha (hnone result)
  | recovered save result debrief hresult =>
    simp [Phase.mute, Phase.save, hresult] at hp
  | refreshed save result debrief hresult =>
    simp [Phase.mute, Phase.save, hresult] at hp
  | release | flushUser | flushProfile | select | violation => exact hp
  | reloadUser | reloadProfile => cases hp
  | _ => rfl

/-- Without a result nothing is enriched. -/
theorem mute_run (hrun : run (step S) w as = some w')
    (hphases : ∀ i, (w.phase i).mute S.spoken = true) (hnone : w.enriched = [])
    (hunheard : ∀ a ∈ as, S.spoken = false ∨ ∀ i result, a ≠ .analyze i (some result)) :
    w'.enriched = [] := by
  refine (run_invariant
    (I := fun w => (∀ i, (w.phase i).mute S.spoken = true) ∧ w.enriched = [])
    (G := fun _ a _ => S.spoken = false ∨ ∀ i result, a ≠ .analyze i (some result))
    (fun w a w' hinv hg (hs : step S w a = some w') => ?_) ⟨hphases, hnone⟩
    (along_of_forall_mem (fun a ha _ _ _ => hunheard a ha) w) hrun).2
  obtain ⟨hphases, hnone⟩ := hinv
  cases step_moves hs with
  | quiet p hnext hphase _ _ _ henriched =>
    refine ⟨forall_phase (fun _ q => q.mute S.spoken = true) hphases hphase ?_, by rw [henriched, hnone]⟩
    exact hnext.mute (hg.imp_right fun h result => h _ result) (hphases _)
  | store save existing row hcommit _ hphase _ _ _ henriched =>
    refine ⟨forall_phase (fun _ q => q.mute S.spoken = true) hphases hphase ?_, by rw [henriched, hnone]⟩
    have hold := hphases a.call
    rw [hcommit] at hold
    exact hold
  | enrich result debrief henrich =>
    have hold := hphases a.call
    rw [henrich] at hold
    cases hold

/-- Between the result of the LLM and the commit. -/
def Phase.saving : Phase → Bool
  | .reloadUser _ | .reloadProfile .. | .flushUser _ | .flushProfile _ | .select _
  | .commit .. => true
  | _ => false

omit [DecidableEq ι] in
/-- A call that is saving goes on until a debrief is stored. -/
theorem Next.saving {i : ι} {a : Action ι} {p p' : Phase} (h : Next S w i a p p')
    (hpresent : p.bound true = true → w.debrief ≠ none) (hp : p.saving = true) :
    p'.saving = true ∨ w.debrief ≠ none := by
  cases h with
  | violation save debrief hrow => exact .inr (by rw [hrow]; simp)
  | stale save loaded hrow => exact .inr (hpresent rfl)
  | reloadUser | reloadProfile | flushUser | flushProfile | select => exact .inl rfl
  | _ => cases hp

theorem saving_step {i j : ι} {a : Action ι} (h : Tracked S w) (hmove : Moves S w i a w')
    (hj : (w.phase j).saving = true ∨ w.saves ≠ []) :
    (w'.phase j).saving = true ∨ w'.saves ≠ [] := by
  have hother : ∀ {p : Phase}, w'.phase = Function.update w.phase i p → j ≠ i →
      (w.phase j).saving = true → (w'.phase j).saving = true := fun hphase hji hp => by
    rwa [hphase, Function.update_of_ne hji]
  cases hmove with
  | quiet p hnext hphase _ _ hsaves _ =>
    rw [hsaves]
    rcases hj with hp | hsaved
    · by_cases hji : j = i
      · subst hji
        rw [hphase, Function.update_self]
        exact (hnext.saving (h.present j) hp).imp_right fun hrow hnil => hrow (h.stored.mpr hnil)
      · exact .inl (hother hphase hji hp)
    · exact .inr hsaved
  | store save existing row _ _ _ _ _ hsaves _ =>
    right
    rw [hsaves]
    simp
  | enrich result debrief henrich hphase _ _ hsaves _ =>
    rw [hsaves]
    refine hj.imp_left fun hp => hother hphase (fun hji => ?_) hp
    rw [hji, henrich] at hp
    cases hp

theorem tracked_run (hspoken : S.spoken = true) (h : Tracked S w)
    (hrun : run (step S) w as = some w') : Tracked S w' :=
  run_preserves (fun w a w' hi (hs : step S w a = some w') =>
    tracked_step hspoken hi (step_moves hs)) h hrun

/-- Once the LLM has returned for a call of a complete run, a debrief is stored. -/
theorem saved_of_heard (hspoken : S.spoken = true) (h : Tracked S w)
    (hrun : run (step S) w as = some w') (hdone : Complete w') {i : ι} {result : DebriefResult}
    (hheard : .analyze i (some result) ∈ as) : w'.saves ≠ [] := by
  obtain ⟨before, after, rfl⟩ := List.append_of_mem hheard
  obtain ⟨m, hm, hrest⟩ := run_append_iff.mp hrun
  obtain ⟨n, hn, hafter⟩ := run_cons_iff.mp hrest
  have htracked : Tracked S n := tracked_step hspoken (tracked_run hspoken h hm) (step_moves hn)
  have hsaving : (n.phase i).saving = true := by
    simp only [step] at hn
    split at hn
    · obtain rfl := Option.some.inj hn
      simp only [World.setPhase, Function.update_self, Phase.saving]
    · cases hn
  have hend := run_preserves
    (I := fun w => Tracked S w ∧ ((w.phase i).saving = true ∨ w.saves ≠ []))
    (fun w a w' hinv (hs : step S w a = some w') =>
      ⟨tracked_step hspoken hinv.1 (step_moves hs), saving_step hinv.1 (step_moves hs) hinv.2⟩)
    ⟨htracked, .inl hsaving⟩ hafter
  refine hend.2.resolve_left fun hp => ?_
  rcases hdone i with hphase | hphase
  · rw [hphase] at hp
    cases hp
  · cases hq : w'.phase i <;> rw [hq] at hphase hp <;> cases hphase
    cases hp

end complete

/-- **When one debrief is generated.** For every complete run of any number of
calls for a session, in any processes and order: the level has moved by at most
one step, the stored debrief is the first committer's and one call has enriched,
if and only if the learner has spoken, the LLM has returned for some call, and
every call that came back from the LLM to save found no debrief. -/
theorem generated_once_iff (S : Setup ι) (level : String) (memorySummary : Option String)
    {as : List (Action ι)} {w : World ι}
    (hrun : run (step S) (.init level memorySummary) as = some w) (hdone : Complete w) :
    Settled level w ↔ S.spoken = true ∧ (∃ i result, .analyze i (some result) ∈ as) ∧
      Along (step S) (fun w a _ => fresh S w a = true) (.init level memorySummary) as := by
  constructor
  · intro h
    have hsome : w.enriched ≠ [] := fun hnil => by
      have hlength := h.enriched
      rw [hnil] at hlength
      cases hlength
    have hmute := fun hunheard => hsome (mute_run hrun (fun _ => rfl) rfl hunheard)
    have hspoken : S.spoken = true := by
      by_contra hsilent
      exact hmute fun a _ => .inl (by simpa using hsilent)
    refine ⟨hspoken, ?_, fresh_of_enriched_once hspoken (tracked_init S level memorySummary) hrun
      hdone h.enriched.le⟩
    by_contra hnone
    exact hmute fun a ha => .inr fun i result he => hnone ⟨i, result, he ▸ ha⟩
  · rintro ⟨hspoken, ⟨i, result, hheard⟩, hfresh⟩
    have hsingle : Single S level w := run_invariant
      (fun w a w' hi hg (hs : step S w a = some w') =>
        single_step hspoken hi hg (step_moves hs)) (single_init S level memorySummary) hfresh hrun
    have hsaved := saved_of_heard hspoken (tracked_init S level memorySummary) hrun hdone hheard
    obtain ⟨p, rest, hp⟩ := List.exists_cons_of_ne_nil hsaved
    obtain rfl : rest = [] := by
      have honce := hsingle.once
      rw [hp] at honce
      simpa using honce
    have hmem : p ∈ w.saves := by rw [hp]; exact List.mem_singleton_self p
    obtain ⟨hdebrief, hlevel⟩ := hsingle.written p hmem
    refine ⟨hlevel, by rw [hdebrief, hp]; rfl, ?_⟩
    have henriched := hdone.enriched (hsingle.savers p hmem)
    have honly : ∀ j ∈ w.enriched.map Prod.fst, j = p.1 := fun j hj => by
      have hsaver := hsingle.enrichers j (.inr hj)
      rw [hp] at hsaver
      exact List.mem_singleton.mp hsaver
    have hmost := hsingle.nodup
    rw [List.eq_replicate_of_mem honly, List.nodup_replicate, List.length_map] at hmost
    have hleast := List.length_pos_of_mem henriched
    rw [List.length_map] at hleast
    omega

instance [Fintype ι] (w : World ι) : Decidable (Complete w) := inferInstanceAs (Decidable (∀ _, _))

/-- A session in which the learner has spoken, and its two calls. -/
def twoCalls (process : Bool → Nat) : Setup Bool where
  process := process
  userId := fun _ => 1
  owner := some 1
  transcript := some [⟨"user", "i go"⟩]
  stripPersistentInstructions := id
  lazyLoads := false

/-- Some steps of one call. -/
def steps (i : Bool) (n : Nat) : List (Action Bool) := List.replicate n (.advance i)

/-- In one process the second call waits for the first. -/
def oneProcess : List (Action Bool) :=
  steps true 1 ++ steps false 6 ++ [.analyze false (some ⟨"B1", "first", [], []⟩)] ++
    steps false 8 ++ steps true 4

theorem generated_once_one_process :
    ∃ w, run (step (twoCalls fun _ => 0)) (.init "A1" none) oneProcess = some w ∧
      Settled "A1" w ∧ w.level = "A2" := by
  obtain ⟨w, hw, hd⟩ := exists_run_of_check (step (twoCalls fun _ => 0)) (.init "A1" none)
    oneProcess (fun w => decide (Complete w ∧ w.level = "A2")) (by decide +kernel)
  obtain ⟨hdone, hlevel⟩ := of_decide_eq_true hd
  refine ⟨w, hw, ?_, hlevel⟩
  exact (generated_once_iff (twoCalls fun _ => 0) "A1" none hw hdone).mpr
    ⟨rfl, ⟨false, ⟨"B1", "first", [], []⟩, by decide⟩, by decide +kernel⟩

/-- In two processes both calls find no debrief and ask the LLM. -/
def twoProcesses : List (Action Bool) :=
  steps false 6 ++ steps true 6 ++ [.analyze false (some ⟨"B1", "first", [], []⟩),
    .analyze true (some ⟨"B1", "second", [], []⟩)] ++ steps false 8 ++ steps true 8

/-- The level moves by two steps, the second debrief overwrites the first, and both
calls enrich. -/
theorem promoted_twice :
    ∃ w, run (step (twoCalls Bool.toNat)) (.init "A1" none) twoProcesses = some w ∧ Complete w ∧
      w.level = "B1" ∧ w.debrief = some ⟨"B1", "second", []⟩ ∧ w.enriched.length = 2 ∧
      ¬Settled "A1" w := by
  obtain ⟨w, hw, hd⟩ := exists_run_of_check (step (twoCalls Bool.toNat)) (.init "A1" none)
    twoProcesses (fun w => decide (Complete w ∧ w.level = "B1" ∧
      w.debrief = some ⟨"B1", "second", []⟩ ∧ w.enriched.length = 2)) (by decide +kernel)
  obtain ⟨hdone, hlevel, hdebrief, henriched⟩ := of_decide_eq_true hd
  refine ⟨w, hw, hdone, hlevel, hdebrief, henriched, fun h => ?_⟩
  have hstep := h.level
  rw [hlevel] at hstep
  exact absurd hstep (by decide)

end Apm.Debriefs
