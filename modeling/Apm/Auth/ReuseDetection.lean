import Apm.Auth.CredentialChange
import Mathlib.Data.Fin.VecNotation

/-!
# What the reuse detection answers to

Rotation, logout and the credential changes write the same `revoked_at`, and the
detection looks at that column and a time window only. A token that was revoked
without an exchange and is presented late revokes the other sessions of its user
as a reused one does. This file proves when a refresh revokes them for an
exchanged token only.
-/

namespace Apm.Auth

open Apm.Core Apm.Lib

set_option autoImplicit false

variable {ι : Type} [DecidableEq ι]

/-- The token was exchanged by a refresh that has committed. -/
def Exchanged (w : World ι) (tokenHash : String) : Prop := tokenHash ∈ w.exchanges.map Prod.fst

instance (w : World ι) (tokenHash : String) : Decidable (Exchanged w tokenHash) :=
  inferInstanceAs (Decidable (_ ∈ _))

/-- A step of a refresh revokes other active tokens for an exchanged token only, and
a revoked token is not exchanged. -/
structure ReuseOnly (w : World ι) (a : Action ι) (w' : World ι) : Prop where
  others : ∀ record, (w.phase a.call).record = some record → ∀ userId,
    ∀ h ∈ w.tokens.active userId, h ≠ record.tokenHash → h ∉ w'.tokens.active userId →
      Exchanged w record.tokenHash
  rejected : ∀ record, (w.phase a.call).record = some record → record.revokedAt ≠ none →
    ∀ raw, w'.phase a.call ≠ .issued raw

/-- The bulk `UPDATE` of a late presentation starts for an exchanged token, or finds
no active token of the user. -/
def detects (w : World ι) (a : Action ι) : Bool :=
  match w.phase a.call with
  | .revokeAll (.reuse record _) _ =>
    Exchanged w record.tokenHash || (w.tokens.active record.userId).isEmpty
  | _ => true

/-- A bulk `UPDATE` for a token that was not exchanged has nothing to revoke. -/
structure Harmless (w : World ι) : Prop where
  locked : Locked w
  empty : ∀ i record present revokedAt todo staged,
    w.phase i = .updating (.reuse record present) revokedAt todo staged →
    ¬Exchanged w record.tokenHash → todo = [] ∧ staged = []

section reuse

variable {S : Setup} {w w' : World ι} {i : ι} {lost : Bool} {a : Action ι}

theorem Moves.exchanged (h : Moves S w i lost w') {tokenHash : String} (he : Exchanged w tokenHash) :
    Exchanged w' tokenHash := by
  rcases h.exchanges with hsame | ⟨record, read, raw, -, hexchanges, -⟩
  · rwa [Exchanged, hsame]
  · rw [Exchanged, hexchanges, List.map_append]
    exact List.mem_append_left _ he

theorem active_revoke_of_notMem {t : RefreshTokens} {revokedAt : Instant} {hashes : List String}
    {userId : Nat} {h : String} (hactive : h ∈ t.active userId) (hout : h ∉ hashes) :
    h ∈ (t.revoke revokedAt hashes).active userId := by
  rw [RefreshTokens.mem_active_iff, RefreshTokens.get_revoke_of_notMem revokedAt hout]
  exact RefreshTokens.mem_active_iff.mp hactive

theorem active_insert_of_mem {t t' : RefreshTokens} {new : RefreshToken}
    (hinsert : t.insert new = some t') {userId : Nat} {h : String} (hactive : h ∈ t.active userId) :
    h ∈ t'.active userId := by
  obtain ⟨row, hrow, huser, hnone⟩ := RefreshTokens.mem_active_iff.mp hactive
  refine RefreshTokens.mem_active_iff.mpr ⟨row, ?_, huser, hnone⟩
  rw [Table.get_insert hinsert, if_neg, hrow]
  rintro rfl
  rw [Table.insert_fresh hinsert] at hrow
  cases hrow

theorem harmless_step (hw : Harmless w) (hdetects : detects w a = true)
    (hmoves : Moves S w a.call a.lost w') : Harmless w' := by
  have hself : ∀ (p : Phase), Function.update w.phase a.call p a.call = p :=
    fun p => Function.update_self ..
  refine ⟨locked_step hw.locked hmoves, ?_⟩
  intro i record present revokedAt todo staged hphase hnew
  have hold : ¬Exchanged w record.tokenHash := fun he => hnew (hmoves.exchanged he)
  by_cases hia : i = a.call
  swap
  · rw [hmoves.phase_other hia] at hphase
    exact hw.empty i record present revokedAt todo staged hphase hold
  subst hia
  cases hmoves with
  | goes p hgoes =>
    obtain rfl := (hself p).symm.trans hphase
    generalize hp : w.phase a.call = q at hgoes
    cases hgoes with
    | update =>
      simp only [detects, hp, Bool.or_eq_true, decide_eq_true_eq, List.isEmpty_iff] at hdetects
      exact ⟨hdetects.resolve_left hold, rfl⟩
    | skip _ _ todo' =>
      obtain ⟨rfl, hstaged⟩ := hw.empty a.call record present revokedAt todo' staged hp hold
      exact ⟨List.filter_nil, hstaged⟩
  | leaves p hleaves =>
    obtain rfl := (hself p).symm.trans hphase
    cases hleaves.ended
  | stage r revokedAt' todo' staged' k hp hmem =>
    cases (hself _).symm.trans hphase
    obtain ⟨rfl, -⟩ := hw.empty a.call record present revokedAt todo' staged' hp hold
    cases hmem
  | lock | late | flush => cases (hself _).symm.trans hphase
  | save | issue | exchange | logout | reused | changed =>
    exact absurd ((hself _).symm.trans hphase) (answered_ne rfl rfl)

theorem reuseOnly_of_harmless (hw : Harmless w) (hmoves : Moves S w a.call a.lost w') :
    ReuseOnly w a w' := by
  have hself : ∀ (p : Phase), Function.update w.phase a.call p a.call = p :=
    fun p => Function.update_self ..
  constructor
  · intro record hrecord userId h hactive hne hgone
    cases hmoves with
    | exchange r read now raw tokens hphase hinsert =>
      rw [hphase] at hrecord
      obtain rfl := Option.some.inj hrecord
      refine absurd (active_insert_of_mem hinsert ?_) hgone
      exact active_revoke_of_notMem hactive (by rwa [List.mem_singleton])
    | reused r present revokedAt staged hphase =>
      rw [hphase] at hrecord
      obtain rfl := Option.some.inj hrecord
      by_contra hnot
      obtain ⟨-, rfl⟩ := hw.empty a.call r present revokedAt [] staged hphase hnot
      exact hgone (active_revoke_of_notMem hactive List.not_mem_nil)
    | issue userId epoch now raw tokens hphase | logout tokenHash now hphase
    | changed loaded mutated revokedAt staged hphase =>
      rw [hphase] at hrecord
      cases hrecord
    | _ => exact absurd hactive hgone
  · intro record hrecord hrevoked raw hissued
    cases hmoves with
    | goes p hgoes =>
      obtain rfl := (hself p).symm.trans hissued
      generalize w.phase a.call = q at hgoes
      cases hgoes
    | leaves p hleaves =>
      obtain rfl := (hself p).symm.trans hissued
      generalize w.phase a.call = q at hleaves
      cases hleaves
    | issue _ _ _ _ _ hphase | save _ _ hphase | logout _ _ hphase | changed _ _ _ _ hphase =>
      rw [hphase] at hrecord
      cases hrecord
    | exchange r read now raw' tokens hphase =>
      rw [hphase] at hrecord
      obtain rfl := Option.some.inj hrecord
      exact hrevoked ((hw.locked a.call).exchanging r (by rw [hphase]; rfl))
    | reused =>
      have hended := (hself _).symm.trans hissued
      generalize a.lost = lost at hended
      cases lost <;> cases hended
    | lock | late | flush | stage => cases (hself _).symm.trans hissued

variable (users : Users) (tokens : RefreshTokens) (exchanges : List (String × String))
  (request : ι → Request) {as : List (Action ι)}

/-- **When only reuse is detected.** For every run of any requests, from any rows:
suppose that whenever a refresh starts to revoke the sessions of a user, the token
it presented had been exchanged or the user has no active token. Then no step of a
refresh revokes another active token unless the presented one was exchanged, and
no revoked token is exchanged. -/
theorem reuse_only (S : Setup)
    (hdetects : Along (step S) (fun w a _ => detects w a = true)
      (.init users tokens exchanges request) as) :
    Along (step S) (fun w a w' => ReuseOnly w a w') (.init users tokens exchanges request) as :=
  along_of_invariant (I := Harmless)
    (fun w a w' hi hg (hs : step S w a = some w') =>
      ⟨reuseOnly_of_harmless hi (step_moves hs), harmless_step hi hg (step_moves hs)⟩)
    ⟨locked_init users tokens request exchanges, fun _ _ _ _ _ _ hp => by cases hp⟩ hdetects

end reuse

theorem reuse_only_stolen :
    (run (step plainSetup) (.init onlyAda (.empty _) [] stolen) stolenRun).isSome = true ∧
      Along (step plainSetup) (fun w a w' => ReuseOnly w a w')
        (.init onlyAda (.empty _) [] stolen) stolenRun :=
  ⟨by decide +kernel,
    reuse_only onlyAda (.empty _) [] stolen plainSetup (by decide +kernel)⟩

/-- Two devices sign in, the first signs out and presents its token later. -/
def signedOut : Fin 4 → Request := ![.login "ada" "old", .login "ada" "old", .logout "a", .refresh "a"]

def signedOutRun : List (Action (Fin 4)) :=
  [.advance 0 0 "", .advance 0 0 "a", .advance 1 0 "", .advance 1 0 "b", .advance 2 0 "",
    .advance 2 0 "", .advance 3 31000000 "", .advance 3 31000000 "", .advance 3 31000000 "",
    .visit 3 "b"]

/-- No token was exchanged, and the session of the second device is revoked. -/
theorem signed_out_token_revokes_session :
    ∃ w w', run (step plainSetup) (.init onlyAda (.empty _) [] signedOut) signedOutRun = some w ∧
      step plainSetup w (.advance 3 31000000 "") = some w' ∧ w'.exchanges = [] ∧
      w.tokens.active 1 = ["b"] ∧ w'.tokens.active 1 = [] ∧
      ¬ReuseOnly w (.advance 3 31000000 "") w' := by
  obtain ⟨w, hw, hd⟩ := exists_run_of_check (step plainSetup)
    (.init onlyAda (.empty _) [] signedOut) signedOutRun
    (fun w => decide (w.exchanges = [] ∧ w.tokens.active 1 = ["b"] ∧
      (w.phase 3).record.map RefreshToken.tokenHash = some "a" ∧
      (step plainSetup w (.advance 3 31000000 "")).map
        (fun w' => (w'.exchanges, w'.tokens.active 1)) = some ([], []))) (by decide +kernel)
  obtain ⟨hexchanges, hactive, hrecord, hstep⟩ := of_decide_eq_true hd
  obtain ⟨w', hw', hafter⟩ := Option.map_eq_some_iff.mp hstep
  obtain ⟨hexchanges', hactive'⟩ := Prod.mk.inj hafter
  obtain ⟨record, hphase, hhash⟩ := Option.map_eq_some_iff.mp hrecord
  refine ⟨w, w', hw, hw', hexchanges', hactive, hactive', fun h => ?_⟩
  have hexchanged := h.others record hphase 1 "b" (by rw [hactive]; exact List.mem_singleton_self _)
    (by rw [hhash]; decide) (by rw [hactive']; exact List.not_mem_nil)
  rw [Exchanged, hexchanges] at hexchanged
  cases hexchanged

end Apm.Auth
