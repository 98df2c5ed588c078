import Apm.Mobile.TokenRefresher

/-!
# What a step of a refresh does

The tokens a refresh works with, those it may still act for, and whether it runs its
critical section, as functions of its phase. Every step of `_performRefresh` has one of
five shapes, stated once; the invariants split on them.
-/

namespace Apm.Mobile

open Apm.Lib

set_option autoImplicit false

variable {ι : Type}

/-- The refresh token that was read, and after a success the tokens of the answer. -/
def RefreshPhase.tokens : RefreshPhase ι → Option (Grant ι)
  | .read _ token => token
  | .posting _ token | .awaitingSave _ token | .saving token _ | .saved token
  | .awaitingClear _ token | .clearing token _ | .cleared token => some token
  | .ended result | .settled result => result
  | .idle | .awaitingRead | .reading _ => none

/-- A critical section of the call runs. -/
def RefreshPhase.runs : RefreshPhase ι → Bool
  | .reading _ | .read .. | .saving .. | .saved _ | .clearing .. | .cleared _ => true
  | _ => false

/-- The generation that the call has seen, until it is compared. -/
def RefreshPhase.seen : RefreshPhase ι → Option Nat
  | .reading seen | .read seen _ | .posting seen _ | .awaitingSave seen _ | .awaitingClear seen _ =>
    some seen
  | _ => none

/-- The refresh token for which the call may still save or clear, if the generation is
the one it has seen. -/
def RefreshPhase.held (generation : Nat) : RefreshPhase ι → Option (Grant ι)
  | .read seen token => if seen = generation then token else none
  | .posting seen token | .awaitingSave seen token | .awaitingClear seen token =>
    if seen = generation then some token else none
  | .saving token _ | .clearing token _ => some token
  | _ => none

variable [DecidableEq ι] {w w' : Device ι} {f : ι}

/-- The shapes of a step of `_performRefresh` into phase `p`. -/
inductive Performs (w : Device ι) (f : ι) (p : RefreshPhase ι) : Device ι → Prop where
  /-- a critical section starts -/
  | starts (hmutex : w.mutex.Holds (.refresh f))
      (htokens : p.tokens = (w.refreshes f).tokens)
      (hseen : ∀ generation, p.seen = some generation → generation = w.generation)
      (hheld : p.held w.generation = (w.refreshes f).held w.generation) :
      Performs w f p (w.refreshGoes f p)
  /-- the refresh token is read -/
  | reads {generation : Nat} (hphase : w.refreshes f = .reading generation)
      (hp : p = .read generation (w.storage .refresh)) :
      Performs w f p (w.refreshGoes f p)
  /-- a key is written or deleted for the token that was read -/
  | stores {token : Grant ι} {key : Key} {value : Option (Grant ι)}
      (hruns : (w.refreshes f).runs = true) (hruns' : p.runs = true)
      (htokens : (w.refreshes f).tokens = some token) (htokens' : p.tokens = some token)
      (hheld : (w.refreshes f).held w.generation = some token)
      (hheld' : ∀ t, p.held w.generation = some t → t = token)
      (hseen : p.seen = none) (hvalue : value = none ∨ value = some (.refreshed token f)) :
      Performs w f p (w.store key value |>.refreshGoes f p)
  /-- a critical section is over, perhaps at its check of the generation -/
  | leaves (hmutex : (w.refreshes f).runs = true ∨ w.mutex.Holds (.refresh f))
      (hruns' : p.runs = false)
      (htokens : ∀ t', p.tokens = some t' →
        ∃ t, (w.refreshes f).tokens = some t ∧ t.user = t'.user)
      (hseen : ∀ generation, p.seen = some generation → (w.refreshes f).seen = some generation)
      (hheld : ∀ t, p.held w.generation = some t → (w.refreshes f).held w.generation = some t) :
      Performs w f p (w.leave.refreshGoes f p)
  /-- the `whenComplete` -/
  | settles {result : Option (Grant ι)} (hphase : w.refreshes f = .ended result)
      (hp : p = .settled result) :
      Performs w f p ({ w with inFlight := none }.refreshGoes f p)

theorem perform_cases (h : perform w f = some w') : ∃ p, Performs w f p w' := by
  cases hp : w.refreshes f with
  | idle | settled => simp [perform, hp] at h
  | posting => simp [perform, hp] at h
  | awaitingRead =>
    simp only [perform, hp, Option.ite_none_right_eq_some, Option.some.injEq] at h
    obtain ⟨hmutex, rfl⟩ := h
    exact ⟨_, .starts hmutex (by rw [hp]; rfl) (fun _ h => (Option.some.inj h).symm)
      (by rw [hp]; rfl)⟩
  | reading generation =>
    simp only [perform, hp, Option.some.injEq] at h
    cases h
    exact ⟨_, .reads hp rfl⟩
  | read generation token =>
    cases token with
    | none =>
      simp only [perform, hp, Option.some.injEq] at h
      cases h
      exact ⟨_, .leaves (.inl (by rw [hp]; rfl)) rfl nofun nofun nofun⟩
    | some token =>
      simp only [perform, hp, Option.some.injEq] at h
      cases h
      exact ⟨_, .leaves (.inl (by rw [hp]; rfl)) rfl
        (fun t' ht' => ⟨token, by rw [hp]; rfl, by cases ht'; rfl⟩)
        (fun _ h => by rw [hp]; exact h) (fun t ht => by rw [hp]; exact ht)⟩
  | awaitingSave generation token =>
    simp only [perform, hp, Option.ite_none_right_eq_some] at h
    obtain ⟨hmutex, h⟩ := h
    by_cases hgeneration : w.generation = generation
    · rw [if_pos hgeneration] at h
      cases h
      exact ⟨_, .starts hmutex (by rw [hp]; rfl) nofun
        (by rw [hp]; exact (if_pos hgeneration.symm).symm)⟩
    · rw [if_neg hgeneration] at h
      cases h
      exact ⟨_, .leaves (.inr hmutex) rfl nofun nofun nofun⟩
  | awaitingClear generation token =>
    simp only [perform, hp, Option.ite_none_right_eq_some] at h
    obtain ⟨hmutex, h⟩ := h
    by_cases hgeneration : w.generation = generation
    · rw [if_pos hgeneration] at h
      cases h
      exact ⟨_, .starts hmutex (by rw [hp]; rfl) nofun
        (by rw [hp]; exact (if_pos hgeneration.symm).symm)⟩
    · rw [if_neg hgeneration] at h
      cases h
      exact ⟨_, .leaves (.inr hmutex) rfl nofun nofun nofun⟩
  | saving token key =>
    cases key with
    | access =>
      simp only [perform, hp, Option.some.injEq] at h
      cases h
      exact ⟨_, .stores (by rw [hp]; rfl) rfl (by rw [hp]; rfl) rfl (by rw [hp]; rfl)
        (fun t ht => (Option.some.inj ht).symm) rfl (.inr rfl)⟩
    | refresh =>
      simp only [perform, hp, Option.some.injEq] at h
      cases h
      exact ⟨_, .stores (by rw [hp]; rfl) rfl (by rw [hp]; rfl) rfl (by rw [hp]; rfl)
        nofun rfl (.inr rfl)⟩
  | clearing token key =>
    cases key with
    | access =>
      simp only [perform, hp, Option.some.injEq] at h
      cases h
      exact ⟨_, .stores (by rw [hp]; rfl) rfl (by rw [hp]; rfl) rfl (by rw [hp]; rfl)
        (fun t ht => (Option.some.inj ht).symm) rfl (.inl rfl)⟩
    | refresh =>
      simp only [perform, hp, Option.some.injEq] at h
      cases h
      exact ⟨_, .stores (by rw [hp]; rfl) rfl (by rw [hp]; rfl) rfl (by rw [hp]; rfl)
        nofun rfl (.inl rfl)⟩
  | saved token =>
    simp only [perform, hp, Option.some.injEq] at h
    cases h
    exact ⟨_, .leaves (.inl (by rw [hp]; rfl)) rfl
      (fun t' ht' => ⟨token, by rw [hp]; rfl, by cases ht'; rfl⟩) nofun nofun⟩
  | cleared token =>
    simp only [perform, hp, Option.some.injEq] at h
    cases h
    exact ⟨_, .leaves (.inl (by rw [hp]; rfl)) rfl nofun nofun nofun⟩
  | ended result =>
    simp only [perform, hp, Option.some.injEq] at h
    cases h
    exact ⟨_, .settles hp rfl⟩

/-- A call of `refresh`. -/
inductive Calls (w : Device ι) (f : ι) : Device ι → Prop where
  | joins {f' : ι} (hflight : w.inFlight = some f') : Calls w f w
  | starts (hflight : w.inFlight = none) (hidle : w.refreshes f = .idle) :
      Calls w f ({ w with inFlight := some f }.enter (.refresh f) |>.refreshGoes f .awaitingRead)

theorem refresh_cases (h : refresh w f = some w') : Calls w f w' := by
  rw [refresh] at h
  cases hflight : w.inFlight with
  | some f' =>
    rw [hflight] at h
    cases h
    exact .joins hflight
  | none =>
    rw [hflight] at h
    obtain ⟨hidle, h⟩ := Option.ite_none_right_eq_some.mp h
    cases h
    exact .starts hflight hidle

/-- What a step of the device does. -/
inductive Moves (w : Device ι) : Action ι → Device ι → Prop where
  | refresh {w' : Device ι} {f : ι} (h : Calls w f w') : Moves w (.refresh f) w'
  | performs {w' : Device ι} {f : ι} {p : RefreshPhase ι} (h : Performs w f p w') :
      Moves w (.perform f) w'
  | answers {f : ι} {r : RefreshAnswer} {generation : Nat} {token : Grant ι} {p : RefreshPhase ι}
      (hphase : w.refreshes f = .posting generation token)
      (hp : p = .awaitingSave generation token ∨ p = .awaitingClear generation token) :
      Moves w (.answer f r) (w.enter (.refresh f) |>.refreshGoes f p)
  | fails {f : ι} {r : RefreshAnswer} {generation : Nat} {token : Grant ι}
      (hphase : w.refreshes f = .posting generation token) :
      Moves w (.answer f r) (w.refreshGoes f (.ended none))
  | invalidateAndClear {j : ι} (hphase : w.invalidations j = .idle) :
      Moves w (.invalidateAndClear j) (w.enter (.invalidation j) |>.invalidationGoes j .queued)
  | invalidates {j : ι} (hphase : w.invalidations j = .queued)
      (hmutex : w.mutex.Holds (.invalidation j)) :
      Moves w (.invalidate j)
        ({ w with generation := w.generation + 1 }.invalidationGoes j (.clearing .access))
  | clearsAccess {j : ι} (hphase : w.invalidations j = .clearing .access) :
      Moves w (.invalidate j) (w.store .access none |>.invalidationGoes j (.clearing .refresh))
  | clearsRefresh {j : ι} (hphase : w.invalidations j = .clearing .refresh) :
      Moves w (.invalidate j) (w.store .refresh none |>.invalidationGoes j .cleared)
  | invalidated {j : ι} (hphase : w.invalidations j = .cleared) :
      Moves w (.invalidated j) (w.leave.invalidationGoes j .completed)
  | login {i : ι} {user : Int} (hphase : w.logins i = .idle) :
      Moves w (.login i user) (w.loginGoes i (.saving user .access))
  | savesAccess {i : ι} {user : Int} (hphase : w.logins i = .saving user .access) :
      Moves w (.save i)
        (w.store .access (some (.login i user)) |>.loginGoes i (.saving user .refresh))
  | savesRefresh {i : ι} {user : Int} (hphase : w.logins i = .saving user .refresh) :
      Moves w (.save i) (w.store .refresh (some (.login i user)) |>.loginGoes i .saved)
  | loggedIn {i : ι} (hphase : w.logins i = .saved) :
      Moves w (.loggedIn i) (w.loginGoes i .completed)
  | request {r : ι} (hphase : w.requests r = .idle) :
      Moves w (.request r) (w.requestGoes r (.sent (w.storage .access)))
  | requestOver {r f : ι} {first : Option (Grant ι)} (hphase : w.requests r = .sent first) :
      Moves w (.requestAnswered r false f) (w.requestGoes r .ended)
  | requestWaits {w' : Device ι} {r f : ι} {first : Option (Grant ι)}
      (hphase : w.requests r = .sent first) (h : Calls w f w') :
      Moves w (.requestAnswered r true f)
        (w'.requestGoes r (.refreshing first (w.inFlight.getD f)))
  | retryOver {r f : ι} {first : Option (Grant ι)} (hphase : w.requests r = .refreshing first f) :
      Moves w (.retry r) (w.requestGoes r .ended)
  | retries {r f : ι} {first : Option (Grant ι)} {tokens : Grant ι}
      (hphase : w.requests r = .refreshing first f)
      (hsettled : w.refreshes f = .settled (some tokens)) :
      Moves w (.retry r) (w.requestGoes r (.retried first tokens))

theorem step_cases {a : Action ι} (h : step w a = some w') : Moves w a w' := by
  cases a with
  | refresh f => exact .refresh (refresh_cases h)
  | perform f =>
    obtain ⟨p, hp⟩ := perform_cases h
    exact .performs hp
  | answer f r =>
    replace h : answer w f r = some w' := h
    rw [answer] at h
    split at h
    · next generation token hphase =>
      cases r with
      | tokens => cases h; exact .answers hphase (.inl rfl)
      | unauthorized => cases h; exact .answers hphase (.inr rfl)
      | failed => cases h; exact .fails hphase
    · cases h
  | invalidateAndClear j =>
    obtain ⟨hphase, h⟩ := Option.ite_none_right_eq_some.mp h
    cases h
    exact .invalidateAndClear hphase
  | invalidate j =>
    replace h : invalidate w j = some w' := h
    rw [invalidate] at h
    split at h
    · next hphase =>
      obtain ⟨hmutex, h⟩ := Option.ite_none_right_eq_some.mp h
      cases h
      exact .invalidates hphase hmutex
    · next hphase => cases h; exact .clearsAccess hphase
    · next hphase => cases h; exact .clearsRefresh hphase
    · cases h
  | invalidated j =>
    obtain ⟨hphase, h⟩ := Option.ite_none_right_eq_some.mp h
    cases h
    exact .invalidated hphase
  | login i user =>
    obtain ⟨hphase, h⟩ := Option.ite_none_right_eq_some.mp h
    cases h
    exact .login hphase
  | save i =>
    replace h : save w i = some w' := h
    rw [save] at h
    split at h
    · next user hphase => cases h; exact .savesAccess hphase
    · next user hphase => cases h; exact .savesRefresh hphase
    · cases h
  | loggedIn i =>
    obtain ⟨hphase, h⟩ := Option.ite_none_right_eq_some.mp h
    cases h
    exact .loggedIn hphase
  | request r =>
    obtain ⟨hphase, h⟩ := Option.ite_none_right_eq_some.mp h
    cases h
    exact .request hphase
  | requestAnswered r unauthorized f =>
    replace h : requestAnswered w r unauthorized f = some w' := h
    rw [requestAnswered] at h
    split at h
    · next first hphase =>
      cases unauthorized with
      | true =>
        obtain ⟨w₁, h₁, rfl⟩ := Option.map_eq_some_iff.mp h
        exact .requestWaits hphase (refresh_cases h₁)
      | false => cases h; exact .requestOver hphase
    · cases h
  | retry r =>
    replace h : retry w r = some w' := h
    rw [retry] at h
    split at h
    · next first f hphase =>
      split at h
      · cases h; exact .retryOver hphase
      · next tokens hsettled => cases h; exact .retries hphase hsettled
      · cases h
    · cases h

theorem Calls.tokens {f' : ι} {t : Grant ι} (h : Calls w f w')
    (ht : (w'.refreshes f').tokens = some t) : (w.refreshes f').tokens = some t := by
  cases h with
  | joins => exact ht
  | starts =>
    by_cases hf : f' = f
    · subst hf
      rw [Device.refreshGoes_self] at ht
      cases ht
    · rw [Device.refreshGoes_other hf] at ht
      exact ht

/-- The tokens of a refresh come from storage when it reads, and keep their user. -/
theorem tokens_step {a : Action ι} {t' : Grant ι} (h : step w a = some w')
    (ht : (w'.refreshes f).tokens = some t') :
    (∃ t, (w.refreshes f).tokens = some t ∧ t.user = t'.user) ∨
      (a = .perform f ∧ (∃ generation, w.refreshes f = .reading generation) ∧
        w.storage .refresh = some t') := by
  -- a phase that another call has left alone
  have hother : ∀ {f' : ι} {p : RefreshPhase ι} {w₁ : Device ι}, f ≠ f' →
      w₁.refreshes = w.refreshes → ((w₁.refreshGoes f' p).refreshes f).tokens = some t' →
      (w.refreshes f).tokens = some t' := fun hf hsame ht => by
    rwa [Device.refreshGoes_other hf, hsame] at ht
  cases step_cases h with
  | refresh hcalls | requestWaits _ hcalls => exact .inl ⟨t', hcalls.tokens ht, rfl⟩
  | performs hp =>
    next f' p =>
    by_cases hf : f = f'
    · subst hf
      cases hp with
      | starts _ htokens =>
        rw [Device.refreshGoes_self, htokens] at ht
        exact .inl ⟨t', ht, rfl⟩
      | reads hphase hread =>
        rw [Device.refreshGoes_self, hread] at ht
        exact .inr ⟨rfl, ⟨_, hphase⟩, ht⟩
      | stores _ _ htokens htokens' =>
        rw [Device.refreshGoes_self, htokens'] at ht
        cases ht
        exact .inl ⟨_, htokens, rfl⟩
      | leaves _ _ htokens =>
        rw [Device.refreshGoes_self] at ht
        exact .inl (htokens t' ht)
      | settles hphase hsettled =>
        rw [Device.refreshGoes_self, hsettled] at ht
        exact .inl ⟨t', by rw [hphase]; exact ht, rfl⟩
    · cases hp <;> exact .inl ⟨t', hother hf rfl ht, rfl⟩
  | answers hphase hp =>
    next f' r generation token p =>
    by_cases hf : f = f'
    · subst hf
      rw [Device.refreshGoes_self] at ht
      refine .inl ⟨token, by rw [hphase]; rfl, ?_⟩
      rcases hp with rfl | rfl
      · exact congrArg Grant.user (Option.some.inj ht)
      · exact congrArg Grant.user (Option.some.inj ht)
    · exact .inl ⟨t', hother hf rfl ht, rfl⟩
  | fails hphase =>
    next f' r generation token =>
    by_cases hf : f = f'
    · subst hf
      rw [Device.refreshGoes_self] at ht
      cases ht
    · exact .inl ⟨t', hother hf rfl ht, rfl⟩
  | _ => exact .inl ⟨t', ht, rfl⟩

end Apm.Mobile
