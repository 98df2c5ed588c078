import Apm.Mobile.Steps

/-!
# Which tokens can still reach storage

The critical sections run one at a time, and no refresh has seen a generation that is
still to come. A refresh that is not interrupted changes storage only for a token it
holds, and comes to hold a token only by reading storage in its section. An
invalidation leaves no refresh with a token.
-/

namespace Apm.Mobile

open Apm.Lib

set_option autoImplicit false

variable {ι : Type}

/-- The critical section of the call runs. -/
def InvalidationPhase.runs : InvalidationPhase → Bool
  | .clearing _ | .cleared => true
  | _ => false

def Device.Runs (w : Device ι) : Section ι → Prop
  | .refresh f => (w.refreshes f).runs = true
  | .invalidation j => (w.invalidations j).runs = true

/-- The token for which the refresh may still save or clear. -/
def Device.held (w : Device ι) (f : ι) : Option (Grant ι) := (w.refreshes f).held w.generation

structure Orderly (w : Device ι) : Prop where
  exclusive : w.mutex.Exclusive w.Runs
  seen : ∀ f generation, (w.refreshes f).seen = some generation → generation ≤ w.generation

theorem orderly_start (restored : Key → Option Int) : Orderly (start restored : Device ι) where
  exclusive s hs := by cases s <;> cases hs
  seen f generation h := by cases h

variable [DecidableEq ι] {w w' : Device ι} {f j : ι} {s : Section ι}

theorem runs_refreshGoes {p : RefreshPhase ι} (h : (w.refreshGoes f p).Runs s) :
    (s = .refresh f ∧ p.runs = true) ∨ (s ≠ .refresh f ∧ w.Runs s) := by
  cases s with
  | invalidation j => exact .inr ⟨nofun, h⟩
  | refresh f' =>
    by_cases hf : f' = f
    · subst hf
      have hruns : ((w.refreshGoes f' p).refreshes f').runs = true := h
      rw [Device.refreshGoes_self] at hruns
      exact .inl ⟨rfl, hruns⟩
    · have hruns : ((w.refreshGoes f p).refreshes f').runs = true := h
      rw [Device.refreshGoes_other hf] at hruns
      exact .inr ⟨fun he => hf (Section.refresh.inj he), hruns⟩

theorem runs_invalidationGoes {p : InvalidationPhase} (h : (w.invalidationGoes j p).Runs s) :
    (s = .invalidation j ∧ p.runs = true) ∨ (s ≠ .invalidation j ∧ w.Runs s) := by
  cases s with
  | refresh f => exact .inr ⟨nofun, h⟩
  | invalidation j' =>
    by_cases hj : j' = j
    · subst hj
      have hruns : ((w.invalidationGoes j' p).invalidations j').runs = true := h
      rw [Device.invalidationGoes_self] at hruns
      exact .inl ⟨rfl, hruns⟩
    · have hruns : ((w.invalidationGoes j p).invalidations j').runs = true := h
      rw [Device.invalidationGoes_other hj] at hruns
      exact .inr ⟨fun he => hj (Section.invalidation.inj he), hruns⟩

/-- A phase that runs no section, or the one the call has run. -/
theorem runs_of_refreshGoes {p : RefreshPhase ι} (hp : p.runs = true → (w.refreshes f).runs = true)
    (s : Section ι) (h : (w.refreshGoes f p).Runs s) : w.Runs s := by
  rcases runs_refreshGoes h with ⟨rfl, hruns⟩ | ⟨-, hruns⟩
  · exact hp hruns
  · exact hruns

theorem runs_of_invalidationGoes {p : InvalidationPhase}
    (hp : p.runs = true → (w.invalidations j).runs = true) (s : Section ι)
    (h : (w.invalidationGoes j p).Runs s) : w.Runs s := by
  rcases runs_invalidationGoes h with ⟨rfl, hruns⟩ | ⟨-, hruns⟩
  · exact hp hruns
  · exact hruns

/-- What the calls have seen after one of them goes on. -/
theorem seen_refreshGoes {p : RefreshPhase ι} {bound : Nat}
    (hseen : ∀ f generation, (w.refreshes f).seen = some generation → generation ≤ bound)
    (hp : ∀ generation, p.seen = some generation → generation ≤ bound) (f' : ι) (generation : Nat)
    (h : ((w.refreshGoes f p).refreshes f').seen = some generation) : generation ≤ bound := by
  by_cases hf : f' = f
  · subst hf
    rw [Device.refreshGoes_self] at h
    exact hp generation h
  · rw [Device.refreshGoes_other hf] at h
    exact hseen f' generation h

theorem Orderly.calls (hi : Orderly w) (h : Calls w f w') : Orderly w' := by
  cases h with
  | joins => exact hi
  | starts hflight hidle =>
    exact ⟨hi.exclusive.enter (runs_of_refreshGoes nofun), seen_refreshGoes hi.seen nofun⟩

theorem Orderly.performs {p : RefreshPhase ι} (hi : Orderly w) (h : Performs w f p w') :
    Orderly w' := by
  cases h with
  | starts hmutex _ hseen =>
    refine ⟨hi.exclusive.start hmutex fun s hs => ?_,
      seen_refreshGoes hi.seen fun g hg => Nat.le_of_eq (hseen g hg)⟩
    rcases runs_refreshGoes hs with ⟨rfl, -⟩ | ⟨-, hruns⟩
    · exact .inl rfl
    · exact .inr hruns
  | reads hphase hp =>
    subst hp
    refine ⟨hi.exclusive.mono (runs_of_refreshGoes fun _ => by rw [hphase]; rfl),
      seen_refreshGoes hi.seen fun g hg => hi.seen f g (by rw [hphase]; exact hg)⟩
  | stores hruns _ _ _ _ _ hseen =>
    refine ⟨hi.exclusive.mono (runs_of_refreshGoes (w := w.store _ _) fun _ => hruns),
      seen_refreshGoes hi.seen fun g hg => ?_⟩
    rw [hseen] at hg
    cases hg
  | leaves hmutex hruns _ hseen =>
    have hholds : w.mutex.Holds (.refresh f) :=
      hmutex.elim (fun hruns => hi.exclusive (.refresh f) hruns) id
    refine ⟨hi.exclusive.leave hholds fun s hs => ?_,
      seen_refreshGoes hi.seen fun g hg => hi.seen f g (hseen g hg)⟩
    rcases runs_refreshGoes (w := w.leave) hs with ⟨-, hruns'⟩ | h
    · rw [hruns] at hruns'
      cases hruns'
    · exact h
  | settles hphase hp =>
    subst hp
    exact ⟨hi.exclusive.mono (runs_of_refreshGoes (w := { w with inFlight := none }) nofun),
      seen_refreshGoes hi.seen nofun⟩

theorem Orderly.preserved {a : Action ι} (hi : Orderly w) (h : step w a = some w') :
    Orderly w' := by
  cases step_cases h with
  | refresh hcalls => exact hi.calls hcalls
  | requestWaits _ hcalls =>
    have hcalled := hi.calls hcalls
    exact ⟨hcalled.exclusive, hcalled.seen⟩
  | performs hp => exact hi.performs hp
  | answers hphase hp =>
    next f r generation token p =>
    have hseen : ∀ g, p.seen = some g → g ≤ w.generation := fun g hg => by
      refine hi.seen f g ?_
      rw [hphase]
      rcases hp with rfl | rfl <;> exact hg
    have hruns : p.runs = true → (w.refreshes f).runs = true := by
      rcases hp with rfl | rfl <;> exact nofun
    exact ⟨hi.exclusive.enter (runs_of_refreshGoes hruns), seen_refreshGoes hi.seen hseen⟩
  | fails =>
    exact ⟨hi.exclusive.mono (runs_of_refreshGoes nofun), seen_refreshGoes hi.seen nofun⟩
  | invalidateAndClear => exact ⟨hi.exclusive.enter (runs_of_invalidationGoes nofun), hi.seen⟩
  | invalidates hphase hmutex =>
    refine ⟨hi.exclusive.start hmutex fun s hs => ?_,
      fun f g hg => Nat.le_succ_of_le (hi.seen f g hg)⟩
    rcases runs_invalidationGoes hs with ⟨rfl, -⟩ | ⟨-, hruns⟩
    · exact .inl rfl
    · exact .inr hruns
  | clearsAccess hphase =>
    exact ⟨hi.exclusive.mono (runs_of_invalidationGoes (w := w.store _ _) fun _ => by
      rw [show (w.store .access none).invalidations = w.invalidations from rfl, hphase]; rfl), hi.seen⟩
  | clearsRefresh hphase =>
    exact ⟨hi.exclusive.mono (runs_of_invalidationGoes (w := w.store _ _) fun _ => by
      rw [show (w.store .refresh none).invalidations = w.invalidations from rfl, hphase]; rfl), hi.seen⟩
  | invalidated hphase =>
    next j =>
    have hholds : w.mutex.Holds (.invalidation j) := hi.exclusive (.invalidation j) (by
      show (w.invalidations j).runs = true
      rw [hphase]
      rfl)
    refine ⟨hi.exclusive.leave hholds fun s hs => ?_, hi.seen⟩
    rcases runs_invalidationGoes (w := w.leave) hs with ⟨-, hruns⟩ | h
    · cases hruns
    · exact h
  | _ => exact ⟨hi.exclusive, hi.seen⟩

theorem held_refreshGoes {p : RefreshPhase ι} {f' : ι} {t : Grant ι}
    (h : (w.refreshGoes f p).held f' = some t) :
    (f' = f ∧ p.held w.generation = some t) ∨ w.held f' = some t := by
  have hheld : ((w.refreshGoes f p).refreshes f').held w.generation = some t := h
  by_cases hf : f' = f
  · subst hf
    rw [Device.refreshGoes_self] at hheld
    exact .inl ⟨rfl, hheld⟩
  · rw [Device.refreshGoes_other hf] at hheld
    exact .inr hheld

omit [DecidableEq ι] in
/-- A held token was read in the present generation, or its section runs. -/
theorem seen_or_runs_of_held {p : RefreshPhase ι} {generation : Nat} {t : Grant ι}
    (h : p.held generation = some t) : p.seen = some generation ∨ p.runs = true := by
  cases p with
  | read seen _ => exact .inr rfl
  | posting seen _ | awaitingSave seen _ | awaitingClear seen _ =>
    obtain ⟨rfl, -⟩ := Option.ite_none_right_eq_some.mp h
    exact .inl rfl
  | saving | clearing => exact .inr rfl
  | idle | awaitingRead | reading | saved | cleared | ended | settled => cases h

omit [DecidableEq ι] in
/-- No refresh holds a token for the generation that an invalidation starts. -/
theorem Orderly.held_next (hi : Orderly w) (hmutex : w.mutex.Holds (.invalidation j)) (f : ι) :
    (w.refreshes f).held (w.generation + 1) = none := by
  cases hheld : (w.refreshes f).held (w.generation + 1) with
  | none => rfl
  | some t =>
    rcases seen_or_runs_of_held hheld with hseen | hruns
    · exact absurd (hi.seen f _ hseen) (Nat.not_succ_le_self _)
    · have hholds : w.mutex.Holds (.refresh f) := hi.exclusive (.refresh f) hruns
      cases hholds.unique hmutex

/-- The action belongs to a logout or to the save of a login. -/
def Action.session : Action ι → Bool
  | .invalidateAndClear _ | .invalidate _ | .invalidated _ | .login .. | .save _ | .loggedIn _ => true
  | _ => false

/-- What a refresh or a request does to the tokens. -/
inductive Effect (w w' : Device ι) : Action ι → Prop where
  | keeps {a : Action ι} (hstorage : w'.storage = w.storage)
      (hheld : ∀ f t, w'.held f = some t →
        w.held f = some t ∨ (w.storage .refresh = some t ∧ (w.refreshes f).runs = true)) :
      Effect w w' a
  | acts {f : ι} {token : Grant ι} {key : Key} {value : Option (Grant ι)}
      (hheld : w.held f = some token) (htokens : (w.refreshes f).tokens = some token)
      (hvalue : value = none ∨ value = some (.refreshed token f))
      (hstorage : w'.storage = Function.update w.storage key value)
      (hkept : ∀ f' t, w'.held f' = some t → w.held f' = some t) : Effect w w' (.perform f)

theorem Calls.held {f' : ι} {t : Grant ι} (h : Calls w f w') (ht : w'.held f' = some t) :
    w.held f' = some t := by
  cases h with
  | joins => exact ht
  | starts =>
    rcases held_refreshGoes ht with ⟨-, hp⟩ | hheld
    · cases hp
    · exact hheld

theorem Calls.same (h : Calls w f w') : w'.storage = w.storage ∧ w'.logins = w.logins ∧
    w'.invalidations = w.invalidations := by
  cases h <;> exact ⟨rfl, rfl, rfl⟩

theorem Performs.effect {p : RefreshPhase ι} (h : Performs w f p w') :
    Effect w w' (.perform f) := by
  cases h with
  | starts _ _ _ hp =>
    refine .keeps rfl fun f' t hheld => .inl ?_
    rcases held_refreshGoes hheld with ⟨rfl, ht⟩ | hheld'
    · rwa [hp] at ht
    · exact hheld'
  | reads hphase hp =>
    subst hp
    refine .keeps rfl fun f' t hheld => ?_
    rcases held_refreshGoes hheld with ⟨rfl, ht⟩ | hheld'
    · exact .inr ⟨(Option.ite_none_right_eq_some.mp ht).2, by rw [hphase]; rfl⟩
    · exact .inl hheld'
  | stores _ _ htokens _ hheld hheld' _ hvalue =>
    refine .acts hheld htokens hvalue rfl fun f' t ht => ?_
    rcases held_refreshGoes ht with ⟨rfl, hp⟩ | h
    · rw [hheld' t hp]
      exact hheld
    · exact h
  | leaves _ _ _ _ hp =>
    refine .keeps rfl fun f' t hheld => .inl ?_
    rcases held_refreshGoes (w := w.leave) hheld with ⟨rfl, ht⟩ | hheld'
    · exact hp t ht
    · exact hheld'
  | settles _ hp =>
    subst hp
    refine .keeps rfl fun f' t hheld => .inl ?_
    rcases held_refreshGoes (w := { w with inFlight := none }) hheld with ⟨-, ht⟩ | hheld'
    · cases ht
    · exact hheld'

/-- Refreshes and requests leave logins and invalidations alone. -/
theorem effect_of_step {a : Action ι} (h : step w a = some w') (ha : a.session = false) :
    Effect w w' a ∧ w'.logins = w.logins ∧ w'.invalidations = w.invalidations := by
  cases step_cases h with
  | refresh hcalls =>
    obtain ⟨hstorage, hlogins, hinvalidations⟩ := hcalls.same
    exact ⟨.keeps hstorage fun _ _ ht => .inl (hcalls.held ht), hlogins, hinvalidations⟩
  | requestWaits _ hcalls =>
    obtain ⟨hstorage, hlogins, hinvalidations⟩ := hcalls.same
    exact ⟨.keeps hstorage fun _ _ ht => .inl (hcalls.held ht), hlogins, hinvalidations⟩
  | performs hp =>
    refine ⟨hp.effect, ?_⟩
    cases hp <;> exact ⟨rfl, rfl⟩
  | answers hphase hp =>
    next f r generation token p =>
    refine ⟨.keeps rfl fun f' t hheld => .inl ?_, rfl, rfl⟩
    rcases held_refreshGoes (w := w.enter (.refresh f)) hheld with ⟨rfl, ht⟩ | hheld'
    · show (w.refreshes f').held w.generation = some t
      rw [hphase]
      rcases hp with rfl | rfl <;> exact ht
    · exact hheld'
  | fails =>
    refine ⟨.keeps rfl fun f' t hheld => .inl ?_, rfl, rfl⟩
    rcases held_refreshGoes hheld with ⟨-, ht⟩ | hheld'
    · cases ht
    · exact hheld'
  | request | requestOver | retryOver | retries => exact ⟨.keeps rfl fun _ _ => .inl, rfl, rfl⟩
  | invalidateAndClear | invalidates | clearsAccess | clearsRefresh | invalidated | login
  | savesAccess | savesRefresh | loggedIn => cases ha

end Apm.Mobile
