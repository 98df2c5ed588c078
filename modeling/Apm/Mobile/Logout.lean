import Apm.Mobile.Custody
import Mathlib.Data.Fintype.Basic

/-!
# Logout is final for stored tokens

Logins follow a completed logout and overlap none. Then storage and the refreshes that
may still write to it hold the tokens of one session only: those of the login that
came last, and nothing between the completion of a logout and the next login. This file
proves it for every interleaving of refreshes, logouts and logins, storage operation by
storage operation.
-/

namespace Apm.Mobile

open Apm.Lib

set_option autoImplicit false

variable {ι : Type}

/-- The call has begun and has not completed. -/
def InvalidationPhase.active : InvalidationPhase → Bool
  | .queued | .clearing _ | .cleared => true
  | _ => false

def LoginPhase.active : LoginPhase → Bool
  | .saving .. | .saved => true
  | _ => false

/-- An `invalidateAndClear` has completed, and no save of a login has begun since. The
latest action comes first. -/
def signedOut : List (Action ι) → Bool
  | [] => false
  | .invalidated _ :: _ => true
  | .login .. :: _ => false
  | _ :: earlier => signedOut earlier

/-- Each login follows a completed `invalidateAndClear` with no other login in between,
and does not overlap an `invalidateAndClear`. -/
def Disciplined (x : List (Action ι) × Device ι) (a : Action ι)
    (_ : List (Action ι) × Device ι) : Prop :=
  match a with
  | .login .. => signedOut x.1 = true ∧ ∀ j, (x.2.invalidations j).active = false
  | .invalidateAndClear _ => ∀ i, (x.2.logins i).active = false
  | _ => True

/-- The `invalidateAndClear` was called after the save of the login had completed. -/
def CalledAfter (log : List (Action ι)) (i j : ι) : Prop :=
  ∃ later earlier, log = later ++ .invalidateAndClear j :: earlier ∧ .loggedIn i ∈ earlier

/-- Stored tokens that descend from a login are replaced or cleared only by a refresh that
has read such a token, or by a later `invalidateAndClear`. -/
def ChangedByOwn (x : List (Action ι) × Device ι) (a : Action ι)
    (x' : List (Action ι) × Device ι) : Prop :=
  ∀ key t i, x.2.storage key = some t → t.origin = some i → x'.2.storage key ≠ some t →
    (∃ f token, a = .perform f ∧ (x.2.refreshes f).tokens = some token ∧
      token.origin = some i) ∨
    ∃ j, a = .invalidate j ∧ CalledAfter x.1 i j

/-- No refresh token is left, neither in storage nor with a refresh. -/
structure Vacant (w : Device ι) : Prop where
  refresh : w.storage .refresh = none
  held : ∀ f, w.held f = none

/-- The token is in storage, or a refresh may still act for it. -/
def Around (w : Device ι) (t : Grant ι) : Prop :=
  (∃ key, w.storage key = some t) ∨ ∃ f, w.held f = some t

/-- All tokens descend from one login, which has begun, and no other one saves. -/
structure Belongs (w : Device ι) (origin : Option ι) : Prop where
  around : ∀ t, Around w t → t.origin = origin
  active : ∀ i, (w.logins i).active = true → origin = some i
  begun : ∀ i, origin = some i → w.logins i ≠ .idle

/-- What an `invalidateAndClear` has achieved so far. -/
def InvalidationPhase.Clears (w : Device ι) : InvalidationPhase → Prop
  | .clearing .access => ∀ f, w.held f = none
  | .clearing .refresh => w.storage .access = none ∧ ∀ f, w.held f = none
  | .cleared => w.storage .access = none ∧ Vacant w
  | _ => True

/-- What the save of a login finds. -/
def LoginPhase.Finds (w : Device ι) : LoginPhase → Prop
  | .saving _ .access => w.storage .access = none ∧ Vacant w
  | .saving _ .refresh => Vacant w
  | _ => True

structure Signed (x : List (Action ι) × Device ι) : Prop where
  orderly : Orderly x.2
  session : ∃ origin, Belongs x.2 origin
  empty : signedOut x.1 = true → x.2.storage .access = none ∧ Vacant x.2
  alone : signedOut x.1 = true → ∀ i, (x.2.logins i).active = false
  logins : ∀ i, (x.2.logins i).Finds x.2
  invalidations : ∀ j, (x.2.invalidations j).Clears x.2
  apart : ∀ i j, (x.2.logins i).active = true → (x.2.invalidations j).active = false
  logged : ∀ i, x.2.logins i = .completed → .loggedIn i ∈ x.1
  later : ∀ i j, x.2.logins i = .completed → (x.2.invalidations j).active = true →
    CalledAfter x.1 i j

theorem signed_start (restored : Key → Option Int) :
    Signed (([], start restored) : List (Action ι) × Device ι) where
  orderly := orderly_start restored
  session := by
    refine ⟨none, fun t ht => ?_, nofun, nofun⟩
    rcases ht with ⟨key, hkey⟩ | ⟨f, hf⟩
    · obtain ⟨user, -, rfl⟩ := Option.map_eq_some_iff.mp hkey
      rfl
    · cases hf
  empty := nofun
  alone := nofun
  logins _ := trivial
  invalidations _ := trivial
  apart := nofun
  logged := nofun
  later := nofun

/-- Nothing comes back: what is gone from storage, and what no refresh holds. -/
structure Shrinks (w w' : Device ι) : Prop where
  keys : ∀ key, w.storage key = none → w'.storage key = none
  held : (∀ f, w.held f = none) → ∀ f, w'.held f = none

variable {w w' : Device ι} {log : List (Action ι)}

theorem Shrinks.vacant (h : Shrinks w w') (hv : Vacant w) : Vacant w' :=
  ⟨h.keys .refresh hv.refresh, h.held hv.held⟩

theorem Shrinks.empty (h : Shrinks w w') (he : w.storage .access = none ∧ Vacant w) :
    w'.storage .access = none ∧ Vacant w' := ⟨h.keys .access he.1, h.vacant he.2⟩

theorem Shrinks.clears {p : InvalidationPhase} (h : Shrinks w w') (hp : p.Clears w) :
    p.Clears w' := by
  cases p with
  | idle | queued | completed => trivial
  | cleared => exact h.empty hp
  | clearing key =>
    cases key with
    | access => exact h.held hp
    | refresh => exact ⟨h.keys .access hp.1, h.held hp.2⟩

theorem Shrinks.finds {p : LoginPhase} (h : Shrinks w w') (hp : p.Finds w) : p.Finds w' := by
  cases p with
  | idle | saved | completed => trivial
  | saving user key =>
    cases key with
    | access => exact h.empty hp
    | refresh => exact h.vacant hp

theorem InvalidationPhase.clears_of_not_runs {p : InvalidationPhase} (hp : p.runs = false) :
    p.Clears w := by
  cases p with
  | idle | queued | completed => trivial
  | cleared | clearing => cases hp

theorem InvalidationPhase.held_of_clears {p : InvalidationPhase} (hp : p.Clears w)
    (hruns : p.runs = true) (f : ι) : w.held f = none := by
  cases p with
  | idle | queued | completed => cases hruns
  | cleared => exact hp.2.held f
  | clearing key =>
    cases key with
    | access => exact hp f
    | refresh => exact hp.2 f

theorem InvalidationPhase.not_runs_of_not_active {p : InvalidationPhase} (hp : p.active = false) :
    p.runs = false := by
  cases p with
  | idle | completed => rfl
  | queued | clearing | cleared => cases hp

theorem LoginPhase.finds_of_not_active {p : LoginPhase} (hp : p.active = false) : p.Finds w := by
  cases p with
  | idle | completed => trivial
  | saving | saved => cases hp

theorem LoginPhase.vacant_of_finds {user : Int} {key : Key}
    (h : (LoginPhase.saving user key).Finds w) : Vacant w := by
  cases key with
  | access => exact h.2
  | refresh => exact h

theorem CalledAfter.cons {i j : ι} (h : CalledAfter log i j) (a : Action ι) :
    CalledAfter (a :: log) i j := by
  obtain ⟨later, earlier, rfl, hmem⟩ := h
  exact ⟨a :: later, earlier, rfl, hmem⟩

variable {a : Action ι}

theorem signedOut_cons (ha : a.session = false) : signedOut (a :: log) = signedOut log := by
  cases a with
  | refresh | perform | answer | request | requestAnswered | retry => rfl
  | invalidateAndClear | invalidate | invalidated | login | save | loggedIn => cases ha

/-- While no refresh holds a token or can read one, refreshes bring nothing back. -/
theorem Effect.shrinks (h : Effect w w' a) (hheld : ∀ f, w.held f = none)
    (hread : ∀ f t, w.storage .refresh = some t → (w.refreshes f).runs = false) :
    Shrinks w w' := by
  cases h with
  | keeps hstorage hkept =>
    refine ⟨fun key hkey => by rw [hstorage]; exact hkey, fun _ f => ?_⟩
    cases hf : w'.held f with
    | none => rfl
    | some t =>
      rcases hkept f t hf with ht | ⟨ht, hruns⟩
      · rw [hheld f] at ht
        cases ht
      · rw [hread f t ht] at hruns
        cases hruns
  | acts ht =>
    rw [hheld] at ht
    cases ht

theorem Effect.shrinks_of_vacant (h : Effect w w' a) (hv : Vacant w) : Shrinks w w' :=
  h.shrinks hv.held fun f t ht => by
    rw [hv.refresh] at ht
    cases ht

/-- The section of an invalidation keeps the refreshes from reading. -/
theorem Effect.shrinks_of_runs {j : ι} (h : Effect w w' a) (ho : Orderly w)
    (hruns : (w.invalidations j).runs = true) (hheld : ∀ f, w.held f = none) : Shrinks w w' :=
  h.shrinks hheld fun f t _ => by
    by_contra hf
    rw [Bool.not_eq_false] at hf
    have hrefresh := ho.exclusive (.refresh f) hf
    cases hrefresh.unique (ho.exclusive (.invalidation j) hruns)

/-- The tokens stay those of one session. -/
theorem Belongs.effect {origin : Option ι} (hb : Belongs w origin) (h : Effect w w' a)
    (hlogins : w'.logins = w.logins) : Belongs w' origin := by
  refine ⟨fun t ht => ?_, fun i hi => hb.active i (hlogins ▸ hi), fun i hi => hlogins ▸ hb.begun i hi⟩
  cases h with
  | keeps hstorage hkept =>
    rcases ht with ⟨key, hkey⟩ | ⟨f, hf⟩
    · exact hb.around t (.inl ⟨key, hstorage ▸ hkey⟩)
    · rcases hkept f t hf with hheld | ⟨hread, -⟩
      · exact hb.around t (.inr ⟨f, hheld⟩)
      · exact hb.around t (.inl ⟨.refresh, hread⟩)
  | acts hheld _ hvalue hstorage hkept =>
    next f token key value _ =>
    rcases ht with ⟨key', hkey⟩ | ⟨f', hf⟩
    · rw [hstorage] at hkey
      by_cases hk : key' = key
      · subst hk
        rw [Function.update_self] at hkey
        rcases hvalue with rfl | rfl
        · cases hkey
        · cases hkey
          exact hb.around token (.inr ⟨f, hheld⟩)
      · rw [Function.update_of_ne hk] at hkey
        exact hb.around t (.inl ⟨key', hkey⟩)
    · exact hb.around t (.inr ⟨f', hkept f' t hf⟩)

/-- Nothing changes but phases and the mutex. -/
theorem shrinks_of_same (hstorage : w'.storage = w.storage) (hheld : ∀ f, w'.held f = w.held f) :
    Shrinks w w' :=
  ⟨fun key hkey => by rw [hstorage]; exact hkey, fun h f => by rw [hheld f]; exact h f⟩

/-- A key is deleted. -/
theorem shrinks_of_delete {key : Key} (hstorage : w'.storage = Function.update w.storage key none)
    (hheld : ∀ f, w'.held f = w.held f) : Shrinks w w' := by
  refine ⟨fun key' hkey => ?_, fun h f => by rw [hheld f]; exact h f⟩
  rw [hstorage]
  by_cases hk : key' = key
  · rw [hk, Function.update_self]
  · rwa [Function.update_of_ne hk]

theorem around_of_delete {key : Key} (hstorage : w'.storage = Function.update w.storage key none)
    (hheld : ∀ f, w'.held f = w.held f) (t : Grant ι) (ht : Around w' t) : Around w t := by
  rcases ht with ⟨key', hkey⟩ | ⟨f, hf⟩
  · rw [hstorage] at hkey
    by_cases hk : key' = key
    · rw [hk, Function.update_self] at hkey
      cases hkey
    · rw [Function.update_of_ne hk] at hkey
      exact .inl ⟨key', hkey⟩
  · exact .inr ⟨f, hheld f ▸ hf⟩

/-- What a login's write leaves around. -/
theorem around_of_save {key : Key} {i : ι} {user : Int}
    (hstorage : w'.storage = Function.update w.storage key (some (.login i user)))
    (hheld : ∀ f, w'.held f = w.held f) (t : Grant ι) (ht : Around w' t) :
    Around w t ∨ t.origin = some i := by
  rcases ht with ⟨key', hkey⟩ | ⟨f, hf⟩
  · rw [hstorage] at hkey
    by_cases hk : key' = key
    · rw [hk, Function.update_self] at hkey
      cases hkey
      exact .inr rfl
    · rw [Function.update_of_ne hk] at hkey
      exact .inl (.inl ⟨key', hkey⟩)
  · exact .inl (.inr ⟨f, hheld f ▸ hf⟩)

variable [DecidableEq ι]

/-- A step of a refresh or a request. -/
theorem Signed.calm (hi : Signed (log, w)) (h : step w a = some w') (ha : a.session = false) :
    Signed (a :: log, w') := by
  obtain ⟨heffect, hlogins, hinvalidations⟩ := effect_of_step h ha
  obtain ⟨origin, hb⟩ := hi.session
  constructor
  · exact hi.orderly.preserved h
  · exact ⟨origin, hb.effect heffect hlogins⟩
  · intro hout
    rw [signedOut_cons ha] at hout
    have hempty := hi.empty hout
    exact (heffect.shrinks_of_vacant hempty.2).empty hempty
  · intro hout i
    rw [signedOut_cons ha] at hout
    rw [show ((a :: log, w').2.logins i) = w.logins i from congrFun hlogins i]
    exact hi.alone hout i
  · intro i
    have hfinds := hi.logins i
    show (w'.logins i).Finds w'
    rw [hlogins]
    cases hp : w.logins i with
    | idle | saved | completed => trivial
    | saving user key =>
      replace hfinds : (LoginPhase.saving user key).Finds w := hp ▸ hfinds
      exact (heffect.shrinks_of_vacant (LoginPhase.vacant_of_finds hfinds)).finds hfinds
  · intro j
    have hclears : (w.invalidations j).Clears w := hi.invalidations j
    show (w'.invalidations j).Clears w'
    rw [hinvalidations]
    by_cases hruns : (w.invalidations j).runs = true
    · have hheld := InvalidationPhase.held_of_clears hclears hruns
      exact (heffect.shrinks_of_runs hi.orderly hruns hheld).clears hclears
    · exact InvalidationPhase.clears_of_not_runs (Bool.eq_false_iff.mpr hruns)
  · intro i j hactive
    show (w'.invalidations j).active = false
    rw [hinvalidations]
    exact hi.apart i j (hlogins ▸ hactive)
  · intro i hcompleted
    exact List.mem_cons_of_mem _ (hi.logged i (hlogins ▸ hcompleted))
  · intro i j hcompleted hactive
    exact (hi.later i j (hlogins ▸ hcompleted) (hinvalidations ▸ hactive)).cons a

/-- A step of a logout: nothing comes back, and the logins go on as they were. -/
theorem Signed.invalidation {j : ι} {p : InvalidationPhase} (hi : Signed (log, w))
    (h : step w a = some w') (hlogins : w'.logins = w.logins)
    (hinvalidations : w'.invalidations = Function.update w.invalidations j p)
    (hshrinks : Shrinks w w') (haround : ∀ t, Around w' t → Around w t) (hclears : p.Clears w')
    (hactive : p.active = true → ((w.invalidations j).active = true ∨
      a = .invalidateAndClear j ∧ ∀ i, (w.logins i).active = false))
    (hout : signedOut (a :: log) = true → signedOut log = true ∨
      (w'.storage .access = none ∧ Vacant w') ∧ ∀ i, (w.logins i).active = false) :
    Signed (a :: log, w') := by
  obtain ⟨origin, hb⟩ := hi.session
  have hself : w'.invalidations j = p := by rw [hinvalidations, Function.update_self]
  have hother : ∀ j', j' ≠ j → w'.invalidations j' = w.invalidations j' := fun j' hj => by
    rw [hinvalidations, Function.update_of_ne hj]
  constructor
  · exact hi.orderly.preserved h
  · exact ⟨origin, fun t ht => hb.around t (haround t ht), fun i hi => hb.active i (hlogins ▸ hi),
      fun i hi => hlogins ▸ hb.begun i hi⟩
  · intro hsigned
    rcases hout hsigned with hsigned' | ⟨hempty, -⟩
    · exact hshrinks.empty (hi.empty hsigned')
    · exact hempty
  · intro hsigned i
    show (w'.logins i).active = false
    rw [hlogins]
    rcases hout hsigned with hsigned' | ⟨-, halone⟩
    · exact hi.alone hsigned' i
    · exact halone i
  · intro i
    show (w'.logins i).Finds w'
    rw [hlogins]
    exact hshrinks.finds (hi.logins i)
  · intro j'
    show (w'.invalidations j').Clears w'
    by_cases hj : j' = j
    · subst hj
      rw [hself]
      exact hclears
    · rw [hother j' hj]
      exact hshrinks.clears (hi.invalidations j')
  · intro i j' hlogin
    show (w'.invalidations j').active = false
    replace hlogin : (w.logins i).active = true := hlogins ▸ hlogin
    by_cases hj : j' = j
    · subst hj
      rw [hself]
      by_contra hp
      rw [Bool.not_eq_false] at hp
      rcases hactive hp with hcalled | ⟨-, halone⟩
      · rw [hi.apart i j' hlogin] at hcalled
        cases hcalled
      · rw [halone i] at hlogin
        cases hlogin
    · rw [hother j' hj]
      exact hi.apart i j' hlogin
  · intro i hcompleted
    exact List.mem_cons_of_mem _ (hi.logged i (hlogins ▸ hcompleted))
  · intro i j' hcompleted hactive'
    replace hcompleted : w.logins i = .completed := hlogins ▸ hcompleted
    replace hactive' : (w'.invalidations j').active = true := hactive'
    by_cases hj : j' = j
    · subst hj
      rw [hself] at hactive'
      rcases hactive hactive' with hcalled | ⟨rfl, -⟩
      · exact (hi.later i j' hcompleted hcalled).cons a
      · exact ⟨[], log, rfl, hi.logged i hcompleted⟩
    · rw [hother j' hj] at hactive'
      exact (hi.later i j' hcompleted hactive').cons a

/-- The steps of logouts. -/
theorem Signed.logout {j : ι} (hi : Signed (log, w)) (h : step w a = some w')
    (ha : a = .invalidateAndClear j ∨ a = .invalidate j ∨ a = .invalidated j)
    (hcalls : a = .invalidateAndClear j → ∀ i, (w.logins i).active = false) :
    Signed (a :: log, w') := by
  have hclears : (w.invalidations j).Clears w := hi.invalidations j
  cases step_cases h with
  | invalidateAndClear hphase =>
    obtain rfl : _ = j := by simpa using ha
    exact hi.invalidation h rfl rfl (shrinks_of_same rfl fun _ => rfl) (fun _ ht => ht) trivial
      (fun _ => .inr ⟨rfl, hcalls rfl⟩) .inl
  | invalidates hphase hmutex =>
    obtain rfl : _ = j := by simpa using ha
    have hnone := hi.orderly.held_next hmutex
    refine hi.invalidation h rfl rfl ⟨fun _ hkey => hkey, fun _ => hnone⟩ (fun t ht => ?_) hnone
      (fun _ => .inl (by rw [hphase]; rfl)) .inl
    rcases ht with hkey | ⟨f, hf⟩
    · exact .inl hkey
    · cases (hnone f).symm.trans hf
  | clearsAccess hphase =>
    obtain rfl : _ = j := by simpa using ha
    rw [hphase] at hclears
    have haccess : (w.store .access none).storage .access = none := Device.store_self
    exact hi.invalidation h rfl rfl (shrinks_of_delete rfl fun _ => rfl)
      (around_of_delete rfl fun _ => rfl) ⟨haccess, hclears⟩
      (fun _ => .inl (by rw [hphase]; rfl)) .inl
  | clearsRefresh hphase =>
    obtain rfl : _ = j := by simpa using ha
    rw [hphase] at hclears
    have hempty : (w.store .refresh none).storage .access = none ∧
        Vacant (w.store .refresh none) :=
      ⟨(Device.store_other (fun he => by cases he)).trans hclears.1, Device.store_self, hclears.2⟩
    exact hi.invalidation h rfl rfl (shrinks_of_delete rfl fun _ => rfl)
      (around_of_delete rfl fun _ => rfl) ⟨hempty.1, hempty.2.refresh, hempty.2.held⟩
      (fun _ => .inl (by rw [hphase]; rfl)) .inl
  | invalidated hphase =>
    next j' =>
    obtain rfl : j' = j := by simpa using ha
    rw [hphase] at hclears
    refine hi.invalidation h rfl rfl (shrinks_of_same rfl fun _ => rfl) (fun _ ht => ht) trivial
      nofun fun _ => .inr ⟨⟨hclears.1, hclears.2.refresh, hclears.2.held⟩, fun i => ?_⟩
    by_contra hactive
    rw [Bool.not_eq_false] at hactive
    have hover : (w.invalidations j').active = false := hi.apart i j' hactive
    rw [hphase] at hover
    cases hover
  | _ => simp at ha

/-- The save of a login begins, on an empty device. -/
theorem Signed.login {i : ι} {user : Int} (hi : Signed (log, w))
    (h : step w (.login i user) = some w') (hout : signedOut log = true)
    (hover : ∀ j, (w.invalidations j).active = false) : Signed (.login i user :: log, w') := by
  have hempty := hi.empty hout
  have halone := hi.alone hout
  have horderly := hi.orderly.preserved h
  cases step_cases h
  have hself : (w.loginGoes i (.saving user .access)).logins i = .saving user .access :=
    Device.loginGoes_self
  have hother : ∀ i', i' ≠ i →
      (w.loginGoes i (.saving user .access)).logins i' = w.logins i' := fun i' hne =>
    Device.loginGoes_other hne
  constructor
  · exact horderly
  · refine ⟨some i, fun t ht => ?_, fun i' hactive => ?_, fun i' hi' => ?_⟩
    · rcases ht with ⟨key, hkey⟩ | ⟨f, hf⟩
      · replace hkey : w.storage key = some t := hkey
        cases key with
        | access => rw [hempty.1] at hkey; cases hkey
        | refresh => rw [hempty.2.refresh] at hkey; cases hkey
      · cases (hempty.2.held f).symm.trans hf
    · by_cases hne : i' = i
      · rw [hne]
      · replace hactive : ((w.loginGoes i (.saving user .access)).logins i').active = true := hactive
        rw [hother i' hne, halone i'] at hactive
        cases hactive
    · rw [← Option.some.inj hi']
      show (w.loginGoes i (.saving user .access)).logins i ≠ .idle
      rw [hself]
      exact nofun
  · exact nofun
  · exact nofun
  · intro i'
    show ((w.loginGoes i (.saving user .access)).logins i').Finds _
    by_cases hne : i' = i
    · rw [hne, hself]
      exact ⟨hempty.1, hempty.2.refresh, hempty.2.held⟩
    · rw [hother i' hne]
      exact LoginPhase.finds_of_not_active (halone i')
  · intro j
    exact InvalidationPhase.clears_of_not_runs
      (InvalidationPhase.not_runs_of_not_active (hover j))
  · exact fun _ j _ => hover j
  · intro i' hcompleted
    replace hcompleted : (w.loginGoes i (.saving user .access)).logins i' = .completed := hcompleted
    by_cases hne : i' = i
    · rw [hne, hself] at hcompleted
      cases hcompleted
    · rw [hother i' hne] at hcompleted
      exact List.mem_cons_of_mem _ (hi.logged i' hcompleted)
  · intro i' j _ hactive
    cases (hover j).symm.trans hactive

/-- A login writes a key, or is through: it is the only one that saves. -/
theorem Signed.loginGoes {i : ι} {p : LoginPhase} (hi : Signed (log, w))
    (h : step w a = some w') (hactive : (w.logins i).active = true)
    (hlogins : w'.logins = Function.update w.logins i p)
    (hinvalidations : w'.invalidations = w.invalidations) (hidle : p ≠ .idle)
    (haround : ∀ t, Around w' t → Around w t ∨ t.origin = some i) (hfinds : p.Finds w')
    (hout : signedOut (a :: log) = signedOut log)
    (hcompleted : p = .completed → a = .loggedIn i) : Signed (a :: log, w') := by
  obtain ⟨origin, hb⟩ := hi.session
  have hsession : origin = some i := hb.active i hactive
  have hself : w'.logins i = p := by rw [hlogins, Function.update_self]
  have hother : ∀ i', i' ≠ i → w'.logins i' = w.logins i' := fun i' hne => by
    rw [hlogins, Function.update_of_ne hne]
  have hinactive : ∀ i', i' ≠ i → (w.logins i').active = false := fun i' hne => by
    by_contra hactive'
    rw [Bool.not_eq_false] at hactive'
    exact hne (Option.some.inj ((hb.active i' hactive').symm.trans hsession))
  have hover : ∀ j, (w.invalidations j).active = false := fun j => hi.apart i j hactive
  have hin : signedOut (a :: log) = false := by
    rw [hout]
    by_contra hsigned
    rw [Bool.not_eq_false] at hsigned
    have halone : (w.logins i).active = false := hi.alone hsigned i
    rw [hactive] at halone
    cases halone
  constructor
  · exact hi.orderly.preserved h
  · refine ⟨origin, fun t ht => ?_, fun i' hactive' => ?_, fun i' hi' => ?_⟩
    · rcases haround t ht with ht' | ht'
      · exact hb.around t ht'
      · rw [ht', hsession]
    · by_cases hne : i' = i
      · rw [hne, hsession]
      · replace hactive' : (w'.logins i').active = true := hactive'
        rw [hother i' hne, hinactive i' hne] at hactive'
        cases hactive'
    · obtain rfl : i = i' := Option.some.inj (hsession.symm.trans hi')
      show w'.logins i ≠ .idle
      rw [hself]
      exact hidle
  · exact fun hsigned => by rw [hin] at hsigned; cases hsigned
  · exact fun hsigned => by rw [hin] at hsigned; cases hsigned
  · intro i'
    show (w'.logins i').Finds w'
    by_cases hne : i' = i
    · rw [hne, hself]
      exact hfinds
    · rw [hother i' hne]
      exact LoginPhase.finds_of_not_active (hinactive i' hne)
  · intro j
    show (w'.invalidations j).Clears w'
    rw [hinvalidations]
    exact InvalidationPhase.clears_of_not_runs
      (InvalidationPhase.not_runs_of_not_active (hover j))
  · intro _ j _
    show (w'.invalidations j).active = false
    rw [hinvalidations]
    exact hover j
  · intro i' hdone
    replace hdone : w'.logins i' = .completed := hdone
    by_cases hne : i' = i
    · rw [hne, hself] at hdone
      rw [hne, hcompleted hdone]
      exact List.mem_cons_self
    · rw [hother i' hne] at hdone
      exact List.mem_cons_of_mem _ (hi.logged i' hdone)
  · intro i' j _ hactive'
    replace hactive' : (w'.invalidations j).active = true := hactive'
    rw [hinvalidations, hover j] at hactive'
    cases hactive'

/-- The other steps of a login. -/
theorem Signed.saves {i : ι} (hi : Signed (log, w)) (h : step w a = some w')
    (ha : a = .save i ∨ a = .loggedIn i) : Signed (a :: log, w') := by
  have hfinds : (w.logins i).Finds w := hi.logins i
  cases step_cases h with
  | savesAccess hphase =>
    next i' user =>
    obtain rfl : i' = i := by simpa using ha
    rw [hphase] at hfinds
    have hrefresh : (w.store .access (some (.login i' user))).storage .refresh = none :=
      (Device.store_other (fun he => by cases he)).trans hfinds.2.refresh
    exact hi.loginGoes h (by rw [hphase]; rfl) rfl rfl nofun (around_of_save rfl fun _ => rfl)
      ⟨hrefresh, hfinds.2.held⟩ rfl nofun
  | savesRefresh hphase =>
    obtain rfl : _ = i := by simpa using ha
    exact hi.loginGoes h (by rw [hphase]; rfl) rfl rfl nofun (around_of_save rfl fun _ => rfl)
      trivial rfl nofun
  | loggedIn hphase =>
    obtain rfl : _ = i := by simpa using ha
    exact hi.loginGoes h (by rw [hphase]; rfl) rfl rfl nofun (fun _ => .inl) trivial rfl
      fun _ => rfl
  | _ => simp at ha

/-- **One step of a disciplined device.** -/
theorem Signed.preserved {x x' : List (Action ι) × Device ι} (hi : Signed x)
    (hg : Disciplined x a x') (h : recorded step x a = some x') : Signed x' := by
  obtain ⟨log, w⟩ := x
  obtain ⟨log', w'⟩ := x'
  obtain ⟨hlog, hstep⟩ := recorded_eq_some_iff.mp h
  replace hlog : log' = a :: log := hlog
  replace hstep : step w a = some w' := hstep
  subst hlog
  cases a with
  | refresh | perform | answer | request | requestAnswered | retry => exact hi.calm hstep rfl
  | invalidateAndClear j => exact hi.logout hstep (.inl rfl) fun _ => hg
  | invalidate j => exact hi.logout hstep (.inr (.inl rfl)) nofun
  | invalidated j => exact hi.logout hstep (.inr (.inr rfl)) nofun
  | login i user => exact hi.login hstep hg.1 hg.2
  | save i => exact hi.saves hstep (.inl rfl)
  | loggedIn i => exact hi.saves hstep (.inr rfl)

omit [DecidableEq ι] in
/-- While a logout runs, the login whose tokens are around has completed before its call. -/
theorem Signed.calledAfter {i j : ι} {t : Grant ι} (hi : Signed (log, w)) (ht : Around w t)
    (horigin : t.origin = some i) (hactive : (w.invalidations j).active = true) :
    CalledAfter log i j := by
  obtain ⟨origin, hb⟩ := hi.session
  have hsession : origin = some i := (hb.around t ht).symm.trans horigin
  have hidle : w.logins i ≠ .idle := hb.begun i hsession
  refine hi.later i j ?_ hactive
  show w.logins i = .completed
  cases hp : w.logins i with
  | completed => rfl
  | idle => exact absurd hp hidle
  | saving | saved =>
    have hover : (w.invalidations j).active = false := hi.apart i j (by
      show (w.logins i).active = true
      rw [hp]
      rfl)
    rw [hactive] at hover
    cases hover

/-- What a step may replace or clear. -/
theorem Signed.changedByOwn {x x' : List (Action ι) × Device ι} (hi : Signed x)
    (h : recorded step x a = some x') : ChangedByOwn x a x' := by
  obtain ⟨log, w⟩ := x
  obtain ⟨log', w'⟩ := x'
  have hstep : step w a = some w' := (recorded_eq_some_iff.mp h).2
  intro key t i hkey horigin hchanged
  replace hkey : w.storage key = some t := hkey
  replace hchanged : w'.storage key ≠ some t := hchanged
  by_cases ha : a.session = false
  · obtain ⟨heffect, -, -⟩ := effect_of_step hstep ha
    cases heffect with
    | keeps hstorage =>
      rw [hstorage] at hchanged
      exact absurd hkey hchanged
    | acts hheld htokens =>
      next f token _ _ _ _ _ =>
      obtain ⟨origin, hb⟩ := hi.session
      have hown : token.origin = t.origin :=
        (hb.around token (.inr ⟨f, hheld⟩)).trans (hb.around t (.inl ⟨key, hkey⟩)).symm
      exact .inl ⟨f, token, rfl, htokens, hown.trans horigin⟩
  · have hfinds : ∀ i, (w.logins i).Finds w := hi.logins
    cases step_cases hstep with
    | clearsAccess hphase | clearsRefresh hphase =>
      exact .inr ⟨_, rfl, hi.calledAfter (.inl ⟨key, hkey⟩) horigin (by rw [hphase]; rfl)⟩
    | savesAccess hphase =>
      next i' user =>
      have hempty := hfinds i'
      rw [hphase] at hempty
      -- a login writes over nothing
      cases key with
      | access => rw [hempty.1] at hkey; cases hkey
      | refresh => rw [hempty.2.refresh] at hkey; cases hkey
    | savesRefresh hphase =>
      next i' user =>
      have hvacant := hfinds i'
      rw [hphase] at hvacant
      cases key with
      | access =>
        have hother : (w.store .refresh (some (.login i' user))).storage .access =
            w.storage .access := Device.store_other (fun he => by cases he)
        exact absurd (hother.trans hkey) hchanged
      | refresh => rw [hvacant.refresh] at hkey; cases hkey
    | invalidateAndClear | invalidates | invalidated | login | loggedIn =>
      exact absurd hkey hchanged
    | refresh | performs | answers | fails | request | requestOver | requestWaits | retryOver
    | retries => exact absurd rfl ha

/-- **Logout is final for stored tokens.** In every interleaving of refreshes, logouts and
logins, the logins disciplined, whatever the server answers: between the completion of an
`invalidateAndClear` and the next login's save storage holds no tokens, and the tokens of
a login are replaced or cleared only by a refresh that has read one of them or by a later
`invalidateAndClear`. -/
theorem logout_is_final (restored : Key → Option Int) (as : List (Action ι))
    (hg : Along (recorded step) Disciplined ([], start restored) as) :
    (∀ w, run step (start restored) as = some w → signedOut as.reverse = true →
      ∀ key, w.storage key = none) ∧
    Along (recorded step) ChangedByOwn ([], start restored) as := by
  constructor
  · intro w hrun hout key
    have hsigned : Signed (as.reverse ++ [], w) :=
      run_invariant (fun x a x' hi hg (h : recorded step x a = some x') => hi.preserved hg h)
        (signed_start restored) hg (run_recorded hrun)
    rw [List.append_nil] at hsigned
    have hempty := hsigned.empty hout
    cases key with
    | access => exact hempty.1
    | refresh => exact hempty.2.refresh
  · exact along_of_invariant
      (fun x a x' hi hg (h : recorded step x a = some x') => ⟨hi.changedByOwn h, hi.preserved hg h⟩)
      (signed_start restored) hg

instance [Fintype ι] (x : List (Action ι) × Device ι) (a : Action ι)
    (x' : List (Action ι) × Device ι) : Decidable (Disciplined x a x') :=
  match a with
  | .login .. => inferInstanceAs (Decidable
      (signedOut x.1 = true ∧ ∀ j, (x.2.invalidations j).active = false))
  | .invalidateAndClear _ => inferInstanceAs (Decidable (∀ i, (x.2.logins i).active = false))
  | .refresh _ | .perform _ | .answer .. | .invalidate _ | .invalidated _ | .save _ | .loggedIn _
  | .request _ | .requestAnswered .. | .retry _ => isTrue trivial

/-- A refresh that has read is answered after the logout and the next login. -/
def answeredLate : List (Action Unit) :=
  [.refresh (), .perform (), .perform (), .perform (), .invalidateAndClear (), .invalidate (),
    .invalidate (), .invalidate (), .invalidated (), .login () 2, .save (), .save (),
    .loggedIn (), .answer () .tokens, .perform (), .perform ()]

theorem logout_is_final_answered_late :
    Along (recorded step) ChangedByOwn ([], start fun _ => some 1) answeredLate :=
  (logout_is_final _ answeredLate (by decide +kernel)).2

end Apm.Mobile
