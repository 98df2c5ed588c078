import Apm.Debriefs.Service
import Apm.Lib.Run

/-!
# What the calls of a session do

Each step of a call is a save, an enrichment, or neither. A call that has saved,
or that is about to, goes on to the enrichment whatever the other calls do.
-/

namespace Apm.Debriefs

open Apm.Lib

set_option autoImplicit false

variable {ι : Type} [DecidableEq ι]

/-! ## What a step can do -/

/-- The phase after a step that saves and enriches nothing. -/
inductive Next (S : Setup ι) (w : World ι) (i : ι) (a : Action ι) : Phase → Phase → Prop where
  | refuse : Next S w i a .entered (.done none)
  | enter (level : String) : Next S w i a .entered (.waiting level)
  | acquire (level : String) : Next S w i a (.waiting level) (.locking level)
  | lock (level : String) : Next S w i a (.locking level) (.check level)
  | stored (level : String) (debrief : Debrief) : Next S w i a (.check level) (.close debrief)
  | absent (level : String) : Next S w i a (.check level) (.read level)
  | silent (level : String) (hspoken : S.spoken = false) :
      Next S w i a (.read level) (.select ⟨none, level, none⟩)
  | spoken (level : String) (hspoken : S.spoken = true) : Next S w i a (.read level) .boundary
  | release : Next S w i a .boundary .analyze
  | heard (result : DebriefResult) (ha : a = .analyze i (some result)) :
      Next S w i a .analyze (.reloadUser result)
  | failed : Next S w i a .analyze (.done none)
  | reloadUser (result : DebriefResult) :
      Next S w i a (.reloadUser result) (.reloadProfile result w.level)
  | reloadProfile (result : DebriefResult) (level : String) :
      Next S w i a (.reloadProfile result level) (.flushUser ⟨some result, level, w.memorySummary⟩)
  | flushUser (save : Save) : Next S w i a (.flushUser save) (.flushProfile save)
  | flushProfile (save : Save) : Next S w i a (.flushProfile save) (.select save)
  | select (save : Save) (ha : a = .advance i) :
      Next S w i a (.select save) (.commit save w.debrief)
  | violation (save : Save) (debrief : Debrief) (hrow : w.debrief = some debrief)
      (ha : a = .advance i) : Next S w i a (.commit save none) (.recover save)
  | stale (save : Save) (loaded : Debrief) (hrow : w.debrief = none) :
      Next S w i a (.commit save (some loaded)) (.done none)
  | recover (save : Save) (answer : Option Debrief)
      (hrow : w.debrief = none ∨ save.result = none ∨ S.lazyLoads = false) :
      Next S w i a (.recover save) (.done answer)
  | recovered (save : Save) (result : DebriefResult) (debrief : Debrief)
      (hresult : save.result = some result) (hlazy : S.lazyLoads = true) :
      Next S w i a (.recover save) (.enrich result debrief)
  | refresh (save : Save) (answer : Option Debrief)
      (hrow : w.debrief = none ∨ save.result = none) :
      Next S w i a (.refresh save) (.done answer)
  | refreshed (save : Save) (result : DebriefResult) (debrief : Debrief)
      (hresult : save.result = some result) :
      Next S w i a (.refresh save) (.enrich result debrief)
  | close (debrief : Debrief) : Next S w i a (.close debrief) (.done (some debrief))

/-- What a step of the call `i` leaves behind, up to the locks. -/
inductive Moves (S : Setup ι) (w : World ι) (i : ι) (a : Action ι) (w' : World ι) : Prop where
  | quiet (p : Phase) (hnext : Next S w i a (w.phase i) p)
      (hphase : w'.phase = Function.update w.phase i p) (hlevel : w'.level = w.level)
      (hdebrief : w'.debrief = w.debrief) (hsaves : w'.saves = w.saves)
      (henriched : w'.enriched = w.enriched)
  | store (save : Save) (existing : Option Debrief) (row : Debrief)
      (hcommit : w.phase i = .commit save existing)
      (hrow : existing = none ∧ w.debrief = none ∧ row = save.debrief ∨
        existing ≠ none ∧ w.debrief ≠ none)
      (hphase : w'.phase = Function.update w.phase i (.refresh save))
      (hlevel : w'.level = writeColumn save.level save.newLevel w.level)
      (hdebrief : w'.debrief = some row) (hsaves : w'.saves = w.saves ++ [(i, save.debrief)])
      (henriched : w'.enriched = w.enriched)
  | enrich (result : DebriefResult) (debrief : Debrief)
      (henrich : w.phase i = .enrich result debrief)
      (hphase : w'.phase = Function.update w.phase i (.done (some debrief)))
      (hlevel : w'.level = w.level) (hdebrief : w'.debrief = w.debrief)
      (hsaves : w'.saves = w.saves) (henriched : w'.enriched = w.enriched ++ [(i, result)])

theorem advance_moves {S : Setup ι} {w w' : World ι} {i : ι}
    (h : advance S w i (w.phase i) = some w') : Moves S w i (.advance i) w' := by
  have hquiet : ∀ {p p' : Phase} {v : World ι}, w.phase i = p → Next S w i (.advance i) p p' →
      v.phase = Function.update w.phase i p' → v.level = w.level → v.debrief = w.debrief →
      v.saves = w.saves → v.enriched = w.enriched → Moves S w i (.advance i) v := by
    intro p p' v hp hnext
    exact .quiet p' (hp ▸ hnext)
  cases hphase : w.phase i <;> rw [hphase] at h
  case analyze | done => cases h
  case entered =>
    simp only [advance] at h
    split_ifs at h
    · cases h
      exact hquiet hphase (.enter _) rfl rfl rfl rfl rfl
    · cases h
      exact hquiet hphase .refuse rfl rfl rfl rfl rfl
  case waiting level =>
    simp only [advance] at h
    split_ifs at h
    cases h
    exact hquiet hphase (.acquire level) rfl rfl rfl rfl rfl
  case locking level =>
    simp only [advance] at h
    split_ifs at h
    cases h
    exact hquiet hphase (.lock level) rfl rfl rfl rfl rfl
  case check level =>
    simp only [advance] at h
    split at h
    · cases h
      exact hquiet hphase (.stored level _) rfl rfl rfl rfl rfl
    · cases h
      exact hquiet hphase (.absent level) rfl rfl rfl rfl rfl
  case read level =>
    simp only [advance] at h
    split_ifs at h with hspoken
    · cases h
      exact hquiet hphase (.spoken level hspoken) rfl rfl rfl rfl rfl
    · cases h
      exact hquiet hphase (.silent level (by simpa using hspoken)) rfl rfl rfl rfl rfl
  case boundary =>
    cases h
    exact hquiet hphase .release rfl rfl rfl rfl rfl
  case reloadUser result =>
    cases h
    exact hquiet hphase (.reloadUser result) rfl rfl rfl rfl rfl
  case reloadProfile result level =>
    cases h
    exact hquiet hphase (.reloadProfile result level) rfl rfl rfl rfl rfl
  case flushUser save =>
    simp only [advance] at h
    split_ifs at h <;> cases h <;> exact hquiet hphase (.flushUser save) rfl rfl rfl rfl rfl
  case flushProfile save =>
    simp only [advance] at h
    split_ifs at h <;> cases h <;> exact hquiet hphase (.flushProfile save) rfl rfl rfl rfl rfl
  case select save =>
    cases h
    exact hquiet hphase (.select save rfl) rfl rfl rfl rfl rfl
  case commit save existing =>
    cases existing with
    | none =>
      simp only [advance] at h
      split at h
      · rename_i hrow
        cases h
        exact .store save none save.debrief hphase (.inl ⟨rfl, hrow, rfl⟩) rfl rfl rfl rfl rfl
      · rename_i debrief hrow
        cases h
        exact hquiet hphase (.violation save debrief hrow rfl) rfl rfl rfl rfl rfl
    | some loaded =>
      simp only [advance] at h
      split at h
      · rename_i hrow
        cases h
        exact hquiet hphase (.stale save loaded hrow) rfl rfl rfl rfl rfl
      · rename_i row hrow
        cases h
        exact .store save (some loaded) _ hphase (.inr ⟨by simp, by simp [hrow]⟩) rfl rfl rfl rfl
          rfl
  case recover save =>
    simp only [advance] at h
    split at h
    · rename_i hrow
      cases h
      exact hquiet hphase (.recover save _ (.inl hrow)) rfl rfl rfl rfl rfl
    · rename_i hresult
      cases h
      exact hquiet hphase (.recover save _ (.inr (.inl hresult))) rfl rfl rfl rfl rfl
    · rename_i debrief result hrow hresult
      split_ifs at h with hlazy
      · cases h
        exact hquiet hphase (.recovered save result debrief hresult hlazy) rfl rfl rfl rfl rfl
      · cases h
        exact hquiet hphase (.recover save _ (.inr (.inr (by simpa using hlazy)))) rfl rfl rfl rfl
          rfl
  case refresh save =>
    simp only [advance] at h
    split at h
    · rename_i hrow
      cases h
      exact hquiet hphase (.refresh save _ (.inl hrow)) rfl rfl rfl rfl rfl
    · rename_i hresult
      cases h
      exact hquiet hphase (.refresh save _ (.inr hresult)) rfl rfl rfl rfl rfl
    · rename_i debrief result hrow hresult
      cases h
      exact hquiet hphase (.refreshed save result debrief hresult) rfl rfl rfl rfl rfl
  case enrich result debrief =>
    cases h
    exact .enrich result debrief hphase rfl rfl rfl rfl rfl
  case close debrief =>
    cases h
    exact hquiet hphase (.close debrief) rfl rfl rfl rfl rfl

/-- Every step is one of the three moves. -/
theorem step_moves {S : Setup ι} {w w' : World ι} {a : Action ι} (h : step S w a = some w') :
    Moves S w a.call a w' := by
  cases a with
  | advance i => exact advance_moves h
  | analyze i result =>
    simp only [step] at h
    split at h
    · rename_i hphase
      cases result with
      | some result =>
        cases h
        exact .quiet _ (hphase ▸ .heard result rfl) rfl rfl rfl rfl rfl
      | none =>
        cases h
        exact .quiet _ (hphase ▸ .failed) rfl rfl rfl rfl rfl
    · cases h

/-! ## Calls that will enrich -/

/-- The save of a call between its flush and its last read. -/
def Phase.save : Phase → Option Save
  | .flushUser save | .flushProfile save | .select save | .commit save _ | .recover save
  | .refresh save => some save
  | _ => none

/-- Past the point from which a call goes on to the enrichment. -/
def Phase.bound (lazyLoads : Bool) : Phase → Bool
  | .commit _ (some _) | .refresh _ | .enrich .. => true
  | .recover _ => lazyLoads
  | _ => false

def Phase.ended : Phase → Bool
  | .done _ => true
  | _ => false

/-- The call has run the enrichment, or will. -/
def Bound (S : Setup ι) (w : World ι) (i : ι) : Prop :=
  (w.phase i).bound S.lazyLoads = true ∨ i ∈ w.enriched.map Prod.fst

/-- The state of a session whose learner has spoken: each save comes from a result,
the debrief is there from the first save on, and each saver enriches. -/
structure Tracked (S : Setup ι) (w : World ι) : Prop where
  heard : ∀ i save, (w.phase i).save = some save → save.result ≠ none
  stored : w.debrief = none ↔ w.saves = []
  present : ∀ i, (w.phase i).bound true = true → w.debrief ≠ none
  savers : ∀ p ∈ w.saves, Bound S w p.1
  ended : ∀ i ∈ w.enriched.map Prod.fst, (w.phase i).ended = true
  nodup : (w.enriched.map Prod.fst).Nodup

omit [DecidableEq ι] in
theorem Next.heard_save {S : Setup ι} {w : World ι} {i : ι} {a : Action ι} {p p' : Phase}
    (h : Next S w i a p p') (hspoken : S.spoken = true)
    (hp : ∀ save, p.save = some save → save.result ≠ none) :
    ∀ save, p'.save = some save → save.result ≠ none := by
  cases h with
  | silent level hsilent =>
    rw [hspoken] at hsilent
    cases hsilent
  | reloadProfile result level =>
    intro save hsave
    obtain rfl := Option.some.inj hsave
    simp
  | flushUser save | flushProfile save | select save | violation save => exact hp
  | _ => exact fun save hsave => by cases hsave

omit [DecidableEq ι] in
/-- A call whose debrief is stored stays bound to enrich. -/
theorem Next.bound {S : Setup ι} {w : World ι} {i : ι} {a : Action ι} {p p' : Phase}
    (h : Next S w i a p p') (hp : ∀ save, p.save = some save → save.result ≠ none)
    (hrow : w.debrief ≠ none) (hbound : p.bound S.lazyLoads = true) :
    p'.bound S.lazyLoads = true := by
  cases h with
  | stale save loaded hnone => exact absurd hnone hrow
  | recover save answer hcause =>
    obtain hnone | hnone | hlazy := hcause
    · exact absurd hnone hrow
    · exact absurd hnone (hp save rfl)
    · rw [Phase.bound, hlazy] at hbound
      cases hbound
  | refresh save answer hcause =>
    obtain hnone | hnone := hcause
    · exact absurd hnone hrow
    · exact absurd hnone (hp save rfl)
  | recovered save result debrief hresult hlazy => rfl
  | refreshed save result debrief hresult => rfl
  | _ => cases hbound

omit [DecidableEq ι] in
/-- Only a stored debrief binds a call. -/
theorem Next.present {S : Setup ι} {w : World ι} {i : ι} {a : Action ι} {p p' : Phase}
    (h : Next S w i a p p') (hp : p.bound true = true → w.debrief ≠ none)
    (hbound : p'.bound true = true) : w.debrief ≠ none := by
  cases h with
  | select save =>
    cases hrow : w.debrief with
    | none =>
      rw [hrow] at hbound
      cases hbound
    | some debrief => simp
  | violation save debrief hrow =>
    rw [hrow]
    simp
  | recovered save | refreshed save => exact hp rfl
  | _ => cases hbound

theorem Phase.bound_true {p : Phase} {lazyLoads : Bool} (h : p.bound lazyLoads = true) :
    p.bound true = true := by
  cases p with
  | commit save existing =>
    cases existing with
    | none => cases h
    | some loaded => rfl
  | recover | refresh | enrich => rfl
  | _ => cases h

section tracked

variable {S : Setup ι} {w w' : World ι} {i : ι} {a : Action ι}

/-- A fact about every phase, when the call `i` has moved. -/
theorem forall_phase (P : ι → Phase → Prop) {p : Phase} (h : ∀ j, P j (w.phase j))
    (hphase : w'.phase = Function.update w.phase i p) (hi : P i p) : ∀ j, P j (w'.phase j) := by
  rw [hphase]
  exact (Function.forall_update_iff w.phase P).mpr ⟨hi, fun j _ => h j⟩

theorem bound_step (h : Tracked S w) (hmove : Moves S w i a w') {j : ι} (hj : Bound S w j) :
    Bound S w' j := by
  cases hmove with
  | quiet p hnext hphase _ _ _ henriched =>
    unfold Bound
    rw [henriched, hphase]
    refine hj.imp_left fun hbound => ?_
    by_cases hji : j = i
    · subst hji
      rw [Function.update_self]
      exact hnext.bound (h.heard j) (h.present j (Phase.bound_true hbound)) hbound
    · rwa [Function.update_of_ne hji]
  | store save existing row _ _ hphase _ _ _ henriched =>
    unfold Bound
    rw [henriched, hphase]
    refine hj.imp_left fun hbound => ?_
    by_cases hji : j = i
    · subst hji
      rw [Function.update_self]
      rfl
    · rwa [Function.update_of_ne hji]
  | enrich result debrief henrich hphase _ _ _ henriched =>
    unfold Bound
    rw [henriched, hphase, List.map_append, List.mem_append]
    by_cases hji : j = i
    · subst hji
      exact .inr (.inr (List.mem_singleton.mpr rfl))
    · rw [Function.update_of_ne hji]
      exact hj.imp_right .inl

theorem tracked_step (hspoken : S.spoken = true) (h : Tracked S w) (hmove : Moves S w i a w') :
    Tracked S w' := by
  have hbound : ∀ j, Bound S w j → Bound S w' j := fun j hj => bound_step h hmove hj
  -- a call that still moves has not enriched
  have hfresh : (w.phase i).ended = false → i ∉ w.enriched.map Prod.fst := fun hlive hi => by
    rw [h.ended i hi] at hlive
    cases hlive
  cases hmove with
  | quiet p hnext hphase _ hdebrief hsaves henriched =>
    have hlive : (w.phase i).ended = false := by
      generalize w.phase i = q at hnext
      cases hnext <;> rfl
    constructor
    · exact forall_phase (fun _ q => ∀ save, q.save = some save → save.result ≠ none) h.heard hphase
        (hnext.heard_save hspoken (h.heard i))
    · rw [hdebrief, hsaves]
      exact h.stored
    · rw [hdebrief]
      exact forall_phase (fun _ q => q.bound true = true → w.debrief ≠ none) h.present hphase
        (hnext.present (h.present i))
    · rw [hsaves]
      exact fun q hq => hbound q.1 (h.savers q hq)
    · rw [henriched]
      exact forall_phase (fun j q => j ∈ w.enriched.map Prod.fst → q.ended = true) h.ended hphase
        fun hi => absurd hi (hfresh hlive)
    · rw [henriched]
      exact h.nodup
  | store save existing row hcommit hrow hphase _ hdebrief hsaves henriched =>
    have hlive : (w.phase i).ended = false := by rw [hcommit]; rfl
    have hresult : save.result ≠ none := h.heard i save (by rw [hcommit]; rfl)
    constructor
    · exact forall_phase (fun _ q => ∀ save, q.save = some save → save.result ≠ none) h.heard hphase
        fun save' hsave => Option.some.inj hsave ▸ hresult
    · rw [hdebrief, hsaves]
      simp
    · intro j _
      rw [hdebrief]
      simp
    · rw [hsaves]
      intro q hq
      rcases List.mem_append.mp hq with hold | hnew
      · exact hbound q.1 (h.savers q hold)
      · obtain rfl := List.mem_singleton.mp hnew
        left
        rw [hphase, Function.update_self]
        rfl
    · rw [henriched]
      exact forall_phase (fun j q => j ∈ w.enriched.map Prod.fst → q.ended = true) h.ended hphase
        fun hi => absurd hi (hfresh hlive)
    · rw [henriched]
      exact h.nodup
  | enrich result debrief henrich hphase _ hdebrief hsaves henriched =>
    have hlive : (w.phase i).ended = false := by rw [henrich]; rfl
    constructor
    · exact forall_phase (fun _ q => ∀ save, q.save = some save → save.result ≠ none) h.heard hphase
        fun save hsave => by cases hsave
    · rw [hdebrief, hsaves]
      exact h.stored
    · rw [hdebrief]
      exact forall_phase (fun _ q => q.bound true = true → w.debrief ≠ none) h.present hphase
        fun hi => by cases hi
    · rw [hsaves]
      exact fun q hq => hbound q.1 (h.savers q hq)
    · rw [henriched, hphase, List.map_append]
      intro j hj
      by_cases hji : j = i
      · rw [hji, Function.update_self]
        rfl
      · rw [Function.update_of_ne hji]
        rcases List.mem_append.mp hj with hold | hnew
        · exact h.ended j hold
        · exact absurd (List.mem_singleton.mp hnew) hji
    · rw [henriched, List.map_append, List.nodup_append]
      refine ⟨h.nodup, List.nodup_singleton _, fun j hj k hk hjk => ?_⟩
      obtain rfl := List.mem_singleton.mp hk
      exact hfresh hlive (hjk ▸ hj)

end tracked

end Apm.Debriefs
