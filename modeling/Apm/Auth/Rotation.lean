import Apm.Auth.Steps

/-!
# Rotation of refresh tokens

A refresh holds the lock of the row it presents until it ends, and a bulk update
holds the locks of the rows it has updated: what a call read under a lock is still
the row when it commits. From this every token is exchanged at most once, a late
reuse revokes every token that was committed when its row lock was obtained, and
every other failing refresh writes nothing, unless it fails behind its commit.
-/

namespace Apm.Auth

open Apm.Core Apm.Lib

set_option autoImplicit false

namespace Phase

/-- The row a refresh read under its lock. -/
def record : Phase → Option RefreshToken
  | .locked record _ | .lookup record _ | .rotate record _ | .revokeAll (.reuse record _) _
  | .updating (.reuse record _) _ _ _ => some record
  | _ => none

/-- The row a refresh is going to exchange. -/
def exchanging : Phase → Option RefreshToken
  | .lookup record _ | .rotate record _ => some record
  | _ => none

/-- The rows a bulk `UPDATE` has updated. -/
def staged : Phase → List String
  | .updating _ _ _ staged => staged
  | _ => []

/-- The late reuse a refresh is answering. -/
def reuse : Phase → Option (RefreshToken × List String)
  | .revokeAll (.reuse record present) _ | .updating (.reuse record present) _ _ _ =>
    some (record, present)
  | _ => none

/-- A refresh under way. -/
def refreshing : Phase → Bool
  | .entered (.refresh _) => true
  | p => p.record.isSome

end Phase

variable {ι : Type} [DecidableEq ι]

/-- What a call read or updated under a row lock is still there. -/
structure Holds (w : World ι) (i : ι) (p : Phase) : Prop where
  record : ∀ r, p.record = some r →
    w.tokenLock r.tokenHash = some i ∧ w.tokens.get r.tokenHash = some r
  staged : ∀ h ∈ p.staged, w.tokenLock h = some i
  exchanging : ∀ r, p.exchanging = some r → r.revokedAt = none

def Locked (w : World ι) : Prop := ∀ i, Holds w i (w.phase i)

section locked

variable {S : Setup} {w w' : World ι} {i j : ι} {lost : Bool} {p q : Phase}

theorem Moves.phase (h : Moves S w i lost w') : ∃ p, w'.phase = Function.update w.phase i p := by
  cases h with
  | goes p | leaves p => exact ⟨p, rfl⟩
  | _ => exact ⟨_, rfl⟩

theorem Moves.phase_other (h : Moves S w i lost w') (hji : j ≠ i) : w'.phase j = w.phase j := by
  obtain ⟨p, hp⟩ := h.phase
  rw [hp, Function.update_of_ne hji]

omit [DecidableEq ι] in
theorem Goes.record (h : Goes S w p q) {r : RefreshToken} (hr : q.record = some r) :
    p.record = some r := by
  cases h with
  | lookup | rotate => exact hr
  | update revocation | skip revocation =>
    cases revocation with
    | reuse record present => exact hr
    | credentials => cases hr
  | _ => cases hr

omit [DecidableEq ι] in
theorem Goes.staged (h : Goes S w p q) {k : String} (hk : k ∈ q.staged) : k ∈ p.staged := by
  cases h with
  | skip => exact hk
  | _ => exact absurd hk List.not_mem_nil

omit [DecidableEq ι] in
theorem Goes.exchanging (h : Goes S w p q) (hp : ∀ r, p.exchanging = some r → r.revokedAt = none)
    {r : RefreshToken} (hr : q.exchanging = some r) : r.revokedAt = none := by
  cases h with
  | lookup record present now hrevoked => exact Option.some.inj hr ▸ hrevoked
  | rotate => exact hp r hr
  | _ => cases hr

theorem Leaves.ended (h : Leaves p q) : q.ended = true := by cases h <;> rfl

omit [DecidableEq ι] in
/-- A phase that reads or updates no row under a lock. -/
theorem holds_of_free (hrecord : p.record = none) (hstaged : p.staged = []) : Holds w i p where
  record := fun r hr => by
    rw [hrecord] at hr
    cases hr
  staged := fun k hk => by
    rw [hstaged] at hk
    cases hk
  exchanging := fun r hr => by
    cases p <;> cases hr <;> cases hrecord

omit [DecidableEq ι] in
theorem holds_of_ended (hended : p.ended = true) : Holds w i p := by
  cases p <;> cases hended <;> exact holds_of_free rfl rfl

/-- A row locked by another call is neither released nor written. -/
theorem Moves.row_kept (hl : Locked w) (h : Moves S w i lost w') (hji : j ≠ i) {k : String}
    (hlock : w.tokenLock k = some j) :
    w'.tokenLock k = some j ∧ ∀ row, w.tokens.get k = some row → w'.tokens.get k = some row := by
  have hmine : w.tokenLock k ≠ some i := fun he => hji (Option.some.inj (hlock.symm.trans he))
  have hleave : (if w.tokenLock k = some i then none else w.tokenLock k) = some j := by
    rw [if_neg hmine, hlock]
  have hheld : w.tokenLock k ≠ none := fun he => by rw [hlock] at he; cases he
  have hacquire : ∀ {h : String}, (w.tokenLock h = none ∨ w.tokenLock h = some i) →
      Function.update w.tokenLock h (some i) k = some j := fun {h} hfree => by
    rw [Function.update_of_ne, hlock]
    rintro rfl
    exact hfree.elim hheld hmine
  have hinsert : ∀ {t t' : RefreshTokens} {new : RefreshToken}, t.insert new = some t' →
      ∀ row, t.get k = some row → t'.get k = some row := fun {t t' new} hi row hrow => by
    rw [Table.get_insert hi, if_neg, hrow]
    rintro rfl
    rw [Table.insert_fresh hi] at hrow
    cases hrow
  have hrevoke : ∀ {staged : List String} (revokedAt : Instant), k ∉ staged →
      ∀ row, w.tokens.get k = some row → (w.tokens.revoke revokedAt staged).get k = some row :=
    fun revokedAt hk row hrow => by rwa [RefreshTokens.get_revoke_of_notMem revokedAt hk]
  cases h with
  | goes | late | flush => exact ⟨hlock, fun _ => id⟩
  | leaves | save => exact ⟨hleave, fun _ => id⟩
  | lock raw record hphase hrow hfree => exact ⟨hacquire (.inl hfree), fun _ => id⟩
  | issue userId epoch now raw tokens hphase hi => exact ⟨hleave, hinsert hi⟩
  | exchange record read now raw tokens hphase hi =>
    refine ⟨hleave, fun row hrow => hinsert hi row (hrevoke read ?_ row hrow)⟩
    have hown := ((hl i).record record (by rw [hphase]; rfl)).1
    rw [List.mem_singleton]
    exact fun he => hmine (he ▸ hown)
  | logout tokenHash now hphase hfree =>
    refine ⟨hleave, hrevoke now ?_⟩
    rw [List.mem_singleton]
    exact fun he => hheld (he ▸ hfree)
  | stage r revokedAt todo staged h hphase hmem hfree hactive => exact ⟨hacquire hfree, fun _ => id⟩
  | reused record present revokedAt staged hphase =>
    exact ⟨hleave, hrevoke revokedAt fun hk => hmine ((hl i).staged k (by rw [hphase]; exact hk))⟩
  | changed loaded mutated revokedAt staged hphase =>
    exact ⟨hleave, hrevoke revokedAt fun hk => hmine ((hl i).staged k (by rw [hphase]; exact hk))⟩

/-- The rows of the moving call. -/
theorem Moves.own (hl : Locked w) (h : Moves S w i lost w') : Holds w' i (w'.phase i) := by
  have hself : ∀ (p : Phase), Function.update w.phase i p i = p := fun p => Function.update_self ..
  cases h with
  | goes p hgoes =>
    simp only [World.setPhase, hself]
    exact ⟨fun r hr => (hl i).record r (hgoes.record hr),
      fun k hk => (hl i).staged k (hgoes.staged hk),
      fun r hr => hgoes.exchanging (hl i).exchanging hr⟩
  | leaves p hleaves =>
    simp only [World.leave, World.setPhase, hself]
    exact holds_of_ended hleaves.ended
  | lock raw record hphase hrow hfree =>
    simp only [World.setPhase, hself]
    refine ⟨fun r hr => ?_, fun k hk => absurd hk List.not_mem_nil, fun _ hr => by cases hr⟩
    obtain rfl := Option.some.inj hr
    exact ⟨Function.update_self .., hrow⟩
  | late record present revokedAt now hphase =>
    simp only [World.setPhase, hself]
    have hold := hl i
    rw [hphase] at hold
    exact ⟨hold.record, hold.staged, hold.exchanging⟩
  | flush =>
    simp only [World.setPhase, hself]
    exact holds_of_free rfl rfl
  | stage r revokedAt todo staged h hphase hmem hfree hactive =>
    simp only [World.setPhase, hself]
    have hold := hl i
    rw [hphase] at hold
    have hlock : ∀ k, w.tokenLock k = some i →
        Function.update w.tokenLock h (some i) k = some i := fun k hk => by
      by_cases hkh : k = h
      · rw [hkh, Function.update_self]
      · rw [Function.update_of_ne hkh, hk]
    refine ⟨fun record hr => ?_, fun k hk => ?_, hold.exchanging⟩
    · obtain ⟨hown, hrow⟩ := hold.record record (by cases r <;> exact hr)
      exact ⟨hlock _ hown, hrow⟩
    · rcases List.mem_cons.mp hk with rfl | hk
      · exact Function.update_self ..
      · exact hlock k (hold.staged k hk)
  | save | logout | changed | issue | exchange | reused =>
    simp only [World.leave, World.setPhase, hself]
    exact holds_of_ended (answered_ended rfl)

theorem locked_step (hl : Locked w) (h : Moves S w i lost w') : Locked w' := by
  intro j
  by_cases hji : j = i
  · subst hji
    exact h.own hl
  · rw [h.phase_other hji]
    constructor
    · intro r hr
      obtain ⟨hlock, hrow⟩ := (hl j).record r hr
      obtain ⟨hlock', hkept⟩ := h.row_kept hl hji hlock
      exact ⟨hlock', hkept r hrow⟩
    · exact fun k hk => (h.row_kept hl hji ((hl j).staged k hk)).1
    · exact (hl j).exchanging

end locked

/-! ## One exchange for each token -/

/-- An exchanged token is revoked and was exchanged once. -/
structure Rotated (w : World ι) : Prop where
  locked : Locked w
  exchanged : ∀ p ∈ w.exchanges, ∃ row, w.tokens.get p.1 = some row ∧ row.revokedAt ≠ none
  once : (w.exchanges.map Prod.fst).Nodup

section rotated

variable {S : Setup} {w w' : World ι} {i j : ι} {lost : Bool}

/-- A revoked row is found revoked later on. -/
theorem revoked_later {t t' : RefreshTokens} (hlater : t.Later t') {h : String}
    (hrow : ∃ row, t.get h = some row ∧ row.revokedAt ≠ none) :
    ∃ row, t'.get h = some row ∧ row.revokedAt ≠ none := by
  obtain ⟨row, hrow, hrevoked⟩ := hrow
  obtain ⟨row', hrow', -, hback⟩ := hlater h row hrow
  exact ⟨row', hrow', fun hnone => hrevoked (hback hnone)⟩

theorem Moves.exchanges (h : Moves S w i lost w') : w'.exchanges = w.exchanges ∨
    ∃ record read raw, w.phase i = .rotate record read ∧
      w'.exchanges = w.exchanges ++ [(record.tokenHash, raw)] ∧
      ∃ t, (w.tokens.revoke read [record.tokenHash]).Later t ∧ w'.tokens = t := by
  cases h with
  | exchange record read now raw tokens hphase hinsert =>
    exact .inr ⟨record, read, _, hphase, rfl, tokens, RefreshTokens.later_insert hinsert, rfl⟩
  | _ => exact .inl rfl

theorem rotated_step (hr : Rotated w) (h : Moves S w i lost w') : Rotated w' := by
  have hlater := h.later
  refine ⟨locked_step hr.locked h, ?_, ?_⟩ <;>
    obtain hsame | ⟨record, read, raw, hphase, hexchanges, t, ht, htokens⟩ := h.exchanges
  · rw [hsame]
    exact fun p hp => revoked_later hlater (hr.exchanged p hp)
  · have hrow := ((hr.locked i).record record (by rw [hphase]; rfl)).2
    intro p hp
    rw [hexchanges, List.mem_append, List.mem_singleton] at hp
    rcases hp with hp | rfl
    · exact revoked_later hlater (hr.exchanged p hp)
    · rw [htokens]
      refine revoked_later ht ⟨{ record with revokedAt := some read }, ?_, by simp⟩
      rw [RefreshTokens.get_revoke, hrow]
      simp only [List.mem_singleton, if_true, Option.map_some]
  · rw [hsame]
    exact hr.once
  · have hrow := ((hr.locked i).record record (by rw [hphase]; rfl)).2
    have hactive := (hr.locked i).exchanging record (by rw [hphase]; rfl)
    rw [hexchanges, List.map_append, List.map_cons, List.map_nil]
    refine List.Nodup.append hr.once (List.nodup_singleton _) (List.disjoint_singleton.mpr ?_)
    intro hmem
    obtain ⟨p, hp, hfst⟩ := List.mem_map.mp hmem
    obtain ⟨row, hrow', hrevoked⟩ := hr.exchanged p hp
    rw [hfst, hrow] at hrow'
    exact hrevoked (Option.some.inj hrow' ▸ hactive)

end rotated

/-! ## Late reuse -/

/-- A refresh that presented a revoked token late goes on until no token that was
committed at its row lock is active. -/
structure LateCall (w : World ι) (i : ι) (p : Phase) : Prop where
  recorded : ∀ reuse, p.reuse = some reuse → w.late i = some reuse
  known : ∀ reuse, w.late i = some reuse → p.reuse = some reuse ∨ p = .rejected ∨ p = .aborted
  locked : ∀ record present, p = .locked record present → ∀ h ∈ present, h ∈ w.tokens.keys
  present : ∀ record present, w.late i = some (record, present) → ∀ h ∈ present, h ∈ w.tokens.keys
  reached : ∀ record present revokedAt todo staged,
    p = .updating (.reuse record present) revokedAt todo staged →
    ∀ h ∈ present, h ∈ w.tokens.active record.userId → h ∈ todo ∨ h ∈ staged
  closed : ∀ record present, w.late i = some (record, present) → p = .rejected →
    ∀ h ∈ present, h ∉ w.tokens.active record.userId

section late

variable {S : Setup} {w w' : World ι} {i j : ι} {lost : Bool} {p q : Phase}

theorem keys_later {t t' : RefreshTokens} (hlater : t.Later t') {h : String} (hh : h ∈ t.keys) :
    h ∈ t'.keys := by
  obtain ⟨row, hrow⟩ := Table.mem_keys_iff.mp hh
  obtain ⟨row', hrow', -⟩ := hlater h row hrow
  exact Table.mem_keys_iff.mpr ⟨row', hrow'⟩

/-- A token that is active later and was there was active. -/
theorem active_of_later {t t' : RefreshTokens} (hlater : t.Later t') {h : String} {userId : Nat}
    (hh : h ∈ t.keys) (hactive : h ∈ t'.active userId) : h ∈ t.active userId := by
  obtain ⟨row, hrow⟩ := Table.mem_keys_iff.mp hh
  obtain ⟨row', hrow', huser, hback⟩ := hlater h row hrow
  obtain ⟨row'', hrow'', huser', hnone⟩ := RefreshTokens.mem_active_iff.mp hactive
  obtain rfl := Option.some.inj (hrow'.symm.trans hrow'')
  exact RefreshTokens.mem_active_iff.mpr ⟨row, hrow, huser.symm.trans huser', hback hnone⟩

omit [DecidableEq ι] in
theorem LateCall.later (hc : LateCall w i p) (hlater : w.tokens.Later w'.tokens)
    (hlate : w'.late i = w.late i) : LateCall w' i p where
  recorded := fun reuse hp => hlate.trans (hc.recorded reuse hp)
  known := fun reuse hl => hc.known reuse (hlate ▸ hl)
  locked := fun record present hp h hh => keys_later hlater (hc.locked record present hp h hh)
  present := fun record present hl h hh =>
    keys_later hlater (hc.present record present (hlate ▸ hl) h hh)
  reached := fun record present revokedAt todo staged hp h hh hactive =>
    have hl := hc.recorded (record, present) (by rw [hp]; rfl)
    hc.reached record present revokedAt todo staged hp h hh
      (active_of_later hlater (hc.present record present hl h hh) hactive)
  closed := fun record present hl hp h hh hactive =>
    have hl := hlate ▸ hl
    hc.closed record present hl hp h hh
      (active_of_later hlater (hc.present record present hl h hh) hactive)

omit [DecidableEq ι] in
/-- A call that presented nothing late. -/
theorem lateCall_of_none (hlate : w.late i = none) (hreuse : p.reuse = none)
    (hlocked : ∀ record present, p ≠ .locked record present) : LateCall w i p where
  recorded := fun reuse hp => by
    rw [hreuse] at hp
    cases hp
  known := fun reuse hl => by
    rw [hlate] at hl
    cases hl
  locked := fun record present hp => absurd hp (hlocked record present)
  present := fun record present hl => by
    rw [hlate] at hl
    cases hl
  reached := fun record present revokedAt todo staged hp => by
    rw [hp] at hreuse
    cases hreuse
  closed := fun record present hl => by
    rw [hlate] at hl
    cases hl

/-- A call that is over answers no reuse, and holds no row. -/
theorem reuse_of_ended (h : p.ended = true) :
    p.reuse = none ∧ ∀ record present, p ≠ .locked record present := by
  cases p with
  | issued | rejected | done | aborted => exact ⟨rfl, fun _ _ he => by cases he⟩
  | _ => cases h

omit [DecidableEq ι] in
theorem LateCall.none (hc : LateCall w i p) (hreuse : p.reuse = none) (hended : p.ended = false) :
    w.late i = none := by
  rw [Option.eq_none_iff_forall_ne_some]
  intro reuse hl
  rcases hc.known reuse hl with hp | rfl | rfl
  · rw [hreuse] at hp
    cases hp
  · cases hended
  · cases hended

omit [DecidableEq ι] in
/-- The late reuse of a call under way, with a new list of rows to reach. -/
theorem LateCall.update (hc : LateCall w i p) {record : RefreshToken} {present : List String}
    (hp : p.reuse = some (record, present)) {revokedAt : Instant} {todo staged : List String}
    (hreached : ∀ h ∈ present, h ∈ w.tokens.active record.userId → h ∈ todo ∨ h ∈ staged) :
    LateCall w i (.updating (.reuse record present) revokedAt todo staged) where
  recorded := fun reuse hq => hc.recorded reuse (hp.trans hq)
  known := fun reuse hl => by
    have hsame := (hc.recorded _ hp).symm.trans hl
    exact .inl hsame
  locked := fun record' present' hq => by cases hq
  present := hc.present
  reached := fun record' present' revokedAt' todo' staged' hq => by
    cases hq
    exact hreached
  closed := fun record' present' hl hq => by cases hq

omit [DecidableEq ι] in
theorem Goes.late (hc : LateCall w i p) (h : Goes S w p q) : LateCall w i q := by
  cases h with
  | update r read now =>
    cases r with
    | reuse record present => exact hc.update rfl fun h _ hactive => .inl hactive
    | credentials loaded mutated =>
      exact lateCall_of_none (hc.none rfl rfl) rfl fun _ _ he => by cases he
  | skip r revokedAt todo staged k hk =>
    cases r with
    | reuse record present =>
      refine hc.update rfl fun h hh hactive => ?_
      refine (hc.reached record present revokedAt todo staged rfl h hh hactive).imp_left fun ht => ?_
      have hne : h ≠ k := fun he => hk (he ▸ hactive)
      exact List.mem_filter.mpr ⟨ht, by simpa using hne⟩
    | credentials loaded mutated =>
      exact lateCall_of_none (hc.none rfl rfl) rfl fun _ _ he => by cases he
  | _ => exact lateCall_of_none (hc.none rfl rfl) rfl fun _ _ he => by cases he

omit [DecidableEq ι] in
theorem Leaves.late (hc : LateCall w i p) (h : Leaves p q) : LateCall w i q := by
  cases h with
  | aborted p hended =>
    exact {
      recorded := fun _ hq => by cases hq
      known := fun _ _ => .inr (.inr rfl)
      locked := fun _ _ hq => by cases hq
      present := hc.present
      reached := fun _ _ _ _ _ hq => by cases hq
      closed := fun _ _ _ hq => by cases hq }
  | _ => exact lateCall_of_none (hc.none rfl rfl) rfl fun _ _ he => by cases he

theorem Moves.late_other (h : Moves S w i lost w') (hji : j ≠ i) : w'.late j = w.late j := by
  cases h with
  | late => exact Function.update_of_ne hji _ _
  | _ => rfl

theorem Moves.late_own (hc : LateCall w i (w.phase i)) (h : Moves S w i lost w') :
    LateCall w' i (w'.phase i) := by
  have hself : ∀ (p : Phase), Function.update w.phase i p i = p := fun p => Function.update_self ..
  have hlater := h.later
  have hend : ∀ {v : World ι} {q : Phase}, v.late i = w.late i → v.phase i = q →
      (w.phase i).reuse = none → (w.phase i).ended = false → q.reuse = none →
      (∀ record present, q ≠ .locked record present) → LateCall v i (v.phase i) := by
    rintro v q hlate rfl hreuse hended hq hlocked
    exact lateCall_of_none (hlate.trans (hc.none hreuse hended)) hq hlocked
  have hcommit : ∀ {v : World ι} {q : Phase}, v.late i = w.late i →
      v.phase i = answered lost q → q.ended = true → (w.phase i).reuse = none →
      (w.phase i).ended = false → LateCall v i (v.phase i) := by
    intro v q hlate hq hqended hreuse hended
    have hfree : (answered lost q).reuse = none ∧ _ := reuse_of_ended (answered_ended hqended)
    exact hend hlate hq hreuse hended hfree.1 hfree.2
  cases h with
  | goes p hgoes =>
    simp only [World.setPhase, hself]
    exact (hgoes.late hc).later hlater rfl
  | leaves p hleaves =>
    simp only [World.leave, World.setPhase, hself]
    exact (hleaves.late hc).later hlater rfl
  | lock raw record hphase hrow hfree =>
    have hnone := hc.none (by rw [hphase]; rfl) (by rw [hphase]; rfl)
    simp only [World.setPhase, hself]
    exact {
      recorded := fun _ hq => by cases hq
      known := fun _ hl => absurd (hnone.symm.trans hl) (by simp)
      locked := fun _ _ hq h hh => by
        cases hq
        exact hh
      present := fun _ _ hl => absurd (hnone.symm.trans hl) (by simp)
      reached := fun _ _ _ _ _ hq => by cases hq
      closed := fun _ _ _ hq => by cases hq }
  | late record present revokedAt now hphase =>
    simp only [World.setPhase, hself]
    have hlate : Function.update w.late i (some (record, present)) i = some (record, present) :=
      Function.update_self ..
    exact {
      recorded := fun reuse hq => hlate.trans hq
      known := fun reuse hl => .inl (hlate.symm.trans hl)
      locked := fun _ _ hq => by cases hq
      present := fun record' present' hl => by
        obtain ⟨rfl, rfl⟩ := Prod.mk.inj (Option.some.inj (hlate.symm.trans hl))
        exact hc.locked record present hphase
      reached := fun _ _ _ _ _ hq => by cases hq
      closed := fun _ _ _ hq => by cases hq }
  | stage r revokedAt todo staged k hphase hmem hfree hactive =>
    cases r with
    | reuse record present =>
      simp only [World.setPhase, hself]
      have hnew : LateCall w i
          (.updating (.reuse record present) revokedAt (todo.filter (· ≠ k)) (k :: staged)) := by
        refine hc.update (by rw [hphase]; rfl) fun h hh hact => ?_
        rw [List.mem_filter, List.mem_cons]
        by_cases hk : h = k
        · exact .inr (.inl hk)
        · exact (hc.reached record present revokedAt todo staged hphase h hh hact).imp
            (fun ht => ⟨ht, by simpa using hk⟩) .inr
      exact hnew.later hlater rfl
    | credentials loaded mutated =>
      exact hend rfl (hself _) (by rw [hphase]; rfl) (by rw [hphase]; rfl) rfl
        fun _ _ he => by cases he
  | reused record present revokedAt staged hphase =>
    have hl := hc.recorded (record, present) (by rw [hphase]; rfl)
    have hfree : (answered lost .rejected).reuse = none ∧ _ := reuse_of_ended (answered_ended rfl)
    simp only [World.leave, World.setPhase, hself]
    exact {
      recorded := fun reuse hq => absurd (hfree.1.symm.trans hq) (by simp)
      known := fun _ _ => .inr (by cases lost <;> simp [answered])
      locked := fun record' present' hq => absurd hq (hfree.2 record' present')
      present := fun record' present' hl' h hh =>
        keys_later hlater (hc.present record' present' hl' h hh)
      reached := fun record' present' revokedAt' todo' staged' hq => by
        rw [hq] at hfree
        cases hfree.1
      closed := fun record' present' hl' _ h hh hactive => by
        obtain ⟨rfl, rfl⟩ := Prod.mk.inj (Option.some.inj (hl.symm.trans hl'))
        have hold := active_of_later hlater (hc.present record present hl h hh) hactive
        rcases hc.reached record present revokedAt [] staged hphase h hh hold with ht | hs
        · cases ht
        · obtain ⟨row, hrow, -, hnone⟩ := RefreshTokens.mem_active_iff.mp hactive
          exact RefreshTokens.revokedAt_of_get_revoke hrow hs hnone }
  | flush loaded mutated read hphase =>
    exact hend rfl (hself _) (by rw [hphase]; rfl) (by rw [hphase]; rfl) rfl
      fun _ _ he => by cases he
  | save loaded mutated hphase | issue userId epoch now raw tokens hphase
  | exchange record read now raw tokens hphase | logout tokenHash now hphase
  | changed loaded mutated revokedAt staged hphase =>
    exact hcommit rfl (hself _) rfl (by rw [hphase]; rfl) (by rw [hphase]; rfl)

theorem lateCall_step (hc : ∀ j, LateCall w j (w.phase j)) (h : Moves S w i lost w') (j : ι) :
    LateCall w' j (w'.phase j) := by
  by_cases hji : j = i
  · subst hji
    exact h.late_own (hc j)
  · rw [h.phase_other hji]
    exact (hc j).later h.later (h.late_other hji)

end late

/-! ## The rotation -/

/-- What a step of a refresh notes and writes. -/
structure RefreshStep (S : Setup) (w : World ι) (a : Action ι) (w' : World ι) : Prop where
  /-- the tokens that are committed when the row lock is obtained -/
  locks : ∀ raw record present, w.phase a.call = .entered (.refresh raw) →
    w'.phase a.call = .locked record present → present = w.tokens.keys
  /-- a token that was revoked longer ago than the grace -/
  late : ∀ i now random record present revokedAt, a = .advance i now random →
    w.phase i = .locked record present → record.revokedAt = some revokedAt →
    S.reuseGraceSeconds * microsPerSecond < now - revokedAt → w'.late i = some (record, present)
  /-- the rows change only with an exchange, or with the answer to a late reuse; behind such a
  commit the refresh has failed if the answer of the commit is lost -/
  writes : (w.phase a.call).refreshing = true → w'.tokens ≠ w.tokens →
    (∃ raw, w'.phase a.call = .issued raw) ∨
      (w.late a.call ≠ none ∧ w'.phase a.call = .rejected) ∨
      (a.lost = true ∧ w'.phase a.call = .aborted)

section rotation

variable {S : Setup} {w w' : World ι} {a : Action ι}

theorem refreshStep_of_step (hc : ∀ i, LateCall w i (w.phase i)) (hstep : step S w a = some w') :
    RefreshStep S w a w' := by
  have hself : ∀ (p : Phase), Function.update w.phase a.call p a.call = p :=
    fun p => Function.update_self ..
  have hmoves := step_moves hstep
  constructor
  · intro raw record present hentered hlocked
    cases hmoves with
    | goes p hgoes =>
      obtain rfl := (hself p).symm.trans hlocked
      rw [hentered] at hgoes
      cases hgoes
    | leaves p hleaves =>
      obtain rfl := (hself p).symm.trans hlocked
      rw [hentered] at hleaves
      cases hleaves
    | lock raw' record' hphase =>
      cases (hself _).symm.trans hlocked
      rfl
    | late _ _ _ _ hphase | flush _ _ _ hphase | save _ _ hphase | issue _ _ _ _ _ hphase
    | exchange _ _ _ _ _ hphase | logout _ _ hphase | stage _ _ _ _ _ hphase
    | reused _ _ _ _ hphase | changed _ _ _ _ hphase =>
      rw [hphase] at hentered
      cases hentered
  · rintro i now random record present revokedAt rfl hphase hrevoked hbeyond
    have hb : beyondGrace S now revokedAt = true := decide_eq_true hbeyond
    simp only [step, hphase, advance, hrevoked, hb, if_true, Option.some.injEq] at hstep
    subst hstep
    exact Function.update_self ..
  · intro hrefreshing hchanged
    cases hmoves with
    | issue userId epoch now raw tokens hphase | logout tokenHash now hphase
    | changed loaded mutated revokedAt staged hphase =>
      rw [hphase] at hrefreshing
      cases hrefreshing
    | exchange record read now raw =>
      cases hlost : a.lost with
      | false => exact .inl ⟨raw, hself _⟩
      | true => exact .inr (.inr ⟨rfl, hself _⟩)
    | reused record present revokedAt staged hphase =>
      have hlate := (hc a.call).recorded (record, present) (by rw [hphase]; rfl)
      cases hlost : a.lost with
      | false =>
        exact .inr (.inl ⟨by rw [hlate]; simp, hself _⟩)
      | true => exact .inr (.inr ⟨rfl, hself _⟩)
    | _ => exact absurd rfl hchanged

variable (users : Users) (tokens : RefreshTokens) (request : ι → Request)

omit [DecidableEq ι] in
theorem lateCall_init (exchanges : List (String × String)) (i : ι) :
    LateCall (World.init users tokens exchanges request) i (.entered (request i)) :=
  lateCall_of_none rfl rfl fun _ _ he => by cases he

omit [DecidableEq ι] in
theorem locked_init (exchanges : List (String × String)) :
    Locked (World.init users tokens exchanges request) := fun _ => holds_of_free rfl rfl

omit [DecidableEq ι] in
theorem rotated_init : Rotated (World.init users tokens [] request) where
  locked := locked_init users tokens request []
  exchanged := fun _ hp => absurd hp List.not_mem_nil
  once := List.nodup_nil

/-- **Rotation.** In every run of any number of calls, in any order of their
statements: no token is exchanged twice; when a refresh that presented a revoked
token beyond the grace has been answered, no token of that user that was committed
when it obtained the row lock is active, then or later; and no other failing
refresh changes a row, unless its commit was applied and the answer lost. -/
theorem rotation_safe (S : Setup) {as : List (Action ι)} {w : World ι}
    (hrun : run (step S) (.init users tokens [] request) as = some w) :
    (w.exchanges.map Prod.fst).Nodup ∧
      (∀ i record present, w.late i = some (record, present) → (w.phase i).ended = true →
        w.phase i ≠ .aborted → ∀ h ∈ present, h ∉ w.tokens.active record.userId) ∧
      Along (step S) (RefreshStep S) (.init users tokens [] request) as := by
  have hinv := run_preserves (I := fun w => Rotated w ∧ ∀ i, LateCall w i (w.phase i))
    (fun w a w' hi (hs : step S w a = some w') =>
      ⟨rotated_step hi.1 (step_moves hs), lateCall_step hi.2 (step_moves hs)⟩)
    ⟨rotated_init users tokens request, lateCall_init users tokens request []⟩ hrun
  refine ⟨hinv.1.once, fun i record present hlate hended haborted => ?_, ?_⟩
  · have hc := hinv.2 i
    refine hc.closed record present hlate ?_
    rcases hc.known _ hlate with hreuse | hrejected | hab
    · cases hp : w.phase i <;> rw [hp] at hended hreuse <;> cases hended <;> cases hreuse
    · exact hrejected
    · exact absurd hab haborted
  · exact along_of_invariant (I := fun w => ∀ i, LateCall w i (w.phase i)) (G := fun _ _ _ => True)
      (fun w a w' hi _ (hs : step S w a = some w') =>
        ⟨refreshStep_of_step hi hs, lateCall_step hi (step_moves hs)⟩)
      (lateCall_init users tokens request [])
      (along_of_forall_mem (fun _ _ _ _ _ => trivial) _)

end rotation

/-- A service that keeps texts as they are. -/
def plainSetup : Setup where
  normalizeEmail := id
  hashToken := id
  hashPassword := fun password _ => password
  verifyPassword := fun password hashed => password = hashed
  refreshTtlDays := 30
  reuseGraceSeconds := 30

def ada : User := ⟨1, "ada", "old", true, none, none⟩

def onlyAda : Users := ⟨[ada], List.nodup_singleton _⟩

inductive Theft where
  | login | refresh | replay
  deriving DecidableEq

/-- One device signs in and refreshes; the rotated token is presented again later. -/
def stolen : Theft → Request
  | .login => .login "ada" "old"
  | .refresh => .refresh "a"
  | .replay => .refresh "a"

def stolenRun : List (Action Theft) :=
  [.advance .login 0 "", .advance .login 0 "a", .advance .refresh 0 "", .advance .refresh 0 "",
    .advance .refresh 0 "", .advance .refresh 0 "b", .advance .replay 31000000 "",
    .advance .replay 31000000 "", .advance .replay 31000000 "", .visit .replay "b",
    .advance .replay 31000000 ""]

/-- The refresh exchanges its token, and the answer of its commit is lost: it fails, and the rows
have changed. -/
theorem lost_commit_exchanges :
    ∃ w w', run (step plainSetup) (.init onlyAda (.empty _) [] stolen) (stolenRun.take 5) = some w ∧
      step plainSetup w (.lose .refresh 0 "b") = some w' ∧ w'.phase .refresh = .aborted ∧
      w.late .refresh = none ∧ w.tokens.active 1 = ["a"] ∧ w'.tokens.active 1 = ["b"] := by
  obtain ⟨w, hw, hd⟩ := exists_run_of_check (step plainSetup)
    (.init onlyAda (.empty _) [] stolen) (stolenRun.take 5)
    (fun w => decide (w.late .refresh = none ∧ w.tokens.active 1 = ["a"] ∧
      (step plainSetup w (.lose .refresh 0 "b")).map
        (fun w' => (w'.phase .refresh, w'.tokens.active 1)) = some (.aborted, ["b"])))
    (by decide +kernel)
  obtain ⟨hlate, hactive, hstep⟩ := of_decide_eq_true hd
  obtain ⟨w', hw', hafter⟩ := Option.map_eq_some_iff.mp hstep
  obtain ⟨hphase, hactive'⟩ := Prod.mk.inj hafter
  exact ⟨w, w', hw, hw', hphase, hlate, hactive, hactive'⟩

theorem rotation_safe_stolen :
    ∃ w, run (step plainSetup) (.init onlyAda (.empty _) [] stolen) stolenRun = some w ∧
      w.exchanges = [("a", "b")] ∧ (w.exchanges.map Prod.fst).Nodup ∧
      "b" ∉ w.tokens.active 1 := by
  obtain ⟨w, hw, hd⟩ := exists_run_of_check (step plainSetup)
    (.init onlyAda (.empty _) [] stolen) stolenRun
    (fun w => decide (w.exchanges = [("a", "b")] ∧ w.phase .replay = .rejected ∧
      (w.late .replay).map (fun l => (l.1.userId, l.2)) = some (1, ["a", "b"]))) (by decide +kernel)
  obtain ⟨hexchanges, hphase, hlate⟩ := of_decide_eq_true hd
  obtain ⟨honce, hclosed, -⟩ := rotation_safe onlyAda (.empty _) stolen plainSetup hw
  obtain ⟨⟨record, present⟩, hrecord, hpair⟩ := Option.map_eq_some_iff.mp hlate
  obtain ⟨huser, hpresent⟩ := Prod.mk.inj hpair
  refine ⟨w, hw, hexchanges, honce, ?_⟩
  rw [← huser]
  exact hclosed .replay record present hrecord (by rw [hphase]; rfl) (by rw [hphase]; simp) "b"
    (by rw [show present = ["a", "b"] from hpresent]; simp)

end Apm.Auth
