import Apm.Conversation.Router

/-!
# Ownership of claims

A request finalises only what it has claimed, and each claim once. A row does
not name its claimant: when a claim was reclaimed, its first holder still
finalises the row by its key. This file proves exactly which final operations
break the ownership of a claim.
-/

namespace Apm.Conversation

open Apm.Core Apm.Lib Apm.Idempotency

set_option autoImplicit false

variable {ι : Type} [DecidableEq ι]

/-! ## The discipline of the endpoints -/

/-- A request relies on a claim, or has it to finalise, only while it has it. -/
structure Disciplined (S : Setup ι) (w : World ι) : Prop where
  acts : ∀ i role, (w.phase i).acts (S.request i).keyed role = true → w.tenure (i, role) ≠ .free
  distinct : ∀ i, (w.phase i).Distinct

theorem take_tenure_self (S : Setup ι) (w : World ι) (k : ι × Role) (stamp : Instant)
    (table : Table) : (w.take S k stamp table).tenure k = .held stamp := by
  simp only [World.take]
  split <;> simp

theorem take_tenure_eq_free_iff {S : Setup ι} {w : World ι} {k j : ι × Role} (stamp : Instant)
    (table : Table) (hj : j ≠ k) :
    (w.take S k stamp table).tenure j = .free ↔ w.tenure j = .free := by
  simp only [World.take]
  split
  · rw [Tenure.take_other hj]
  · exact Tenure.seize_eq_free_iff hj

theorem take_tenure_ne_free {S : Setup ι} {w : World ι} {k j : ι × Role} (stamp : Instant)
    (table : Table) (h : w.tenure j ≠ .free) : (w.take S k stamp table).tenure j ≠ .free := by
  by_cases hj : j = k
  · subst hj
    rw [take_tenure_self]
    simp
  · rwa [Ne, take_tenure_eq_free_iff stamp table hj]

omit [DecidableEq ι] in
theorem quiet_afterPersist {S : Setup ι} {w : World ι} {i : ι} {base : List Message}
    {reply : String} {cut : Bool} (hphase : w.phase i = .persist base reply cut) :
    Quiet S w i (.finish ((S.request i).afterPersist reply) (.replied reply)) :=
  .finish (.inr (.inr ⟨_, _, _, hphase⟩)) (finals_afterPersist _ _)

omit [DecidableEq ι] in
theorem quiet_afterLoss {S : Setup ι} {w : World ι} {i : ι} {base : List Message}
    {reply : String} {cut : Bool} (hphase : w.phase i = .persist base reply cut)
    (cancelled : Bool) :
    Quiet S w i (.finish ((S.request i).afterLoss cut cancelled) .failed) :=
  .finish (.inr (.inr ⟨_, _, _, hphase⟩)) (finals_afterLoss _ _ _)

theorem disciplined_step {S : Setup ι} {w w' : World ι} {a : Action ι} (h : Disciplined S w)
    (hmove : Moves S w a w') : Disciplined S w' := by
  have hquiet : ∀ i p, Quiet S w i p → Disciplined S (w.setPhase i p) := by
    intro i p hp
    constructor
    · intro j role hacts
      by_cases hj : j = i
      · subst hj
        simp only [World.setPhase, Function.update_self] at hacts
        exact h.acts j role (hp.acts role hacts)
      · simp only [World.setPhase, Function.update_of_ne hj] at hacts
        exact h.acts j role hacts
    · intro j
      by_cases hj : j = i
      · subst hj
        simp only [World.setPhase, Function.update_self]
        exact hp.distinct (h.distinct j)
      · simp only [World.setPhase, Function.update_of_ne hj]
        exact h.distinct j
  cases hmove with
  | tick micros => exact ⟨h.acts, h.distinct⟩
  | quiet i p hp _ _ => exact hquiet i p hp
  | store i base reply cut hphase =>
    have hq := hquiet i _ (quiet_afterPersist hphase)
    exact ⟨hq.acts, hq.distinct⟩
  | lost i base reply cut cancelled hphase =>
    have hq := hquiet i _ (quiet_afterLoss hphase cancelled)
    exact ⟨hq.acts, hq.distinct⟩
  | take i role readAt stamp table hphase _ _ _ _ _ =>
    constructor
    · intro j role' hacts
      change (w.take S (i, role) stamp table).tenure (j, role') ≠ .free
      by_cases hj : j = i
      · subst hj
        simp only [World.setPhase, Function.update_self] at hacts
        by_cases hrole : role' = role
        · subst hrole
          rw [take_tenure_self]
          simp
        · refine take_tenure_ne_free stamp table (h.acts j role' ?_)
          -- the other claim of the request is its key, held since before the lock
          rw [hphase]
          cases role <;> cases role' <;> first | exact absurd rfl hrole | exact hacts
      · simp only [World.setPhase, Function.update_of_ne hj] at hacts
        exact take_tenure_ne_free stamp table (h.acts j role' hacts)
    · intro j
      by_cases hj : j = i
      · subst hj
        simp only [World.setPhase, Function.update_self]
        cases role <;> trivial
      · simp only [World.setPhase, Function.update_of_ne hj]
        exact h.distinct j
  | finalise i op rest outcome hphase =>
    have hdistinct := h.distinct i
    rw [hphase] at hdistinct
    obtain ⟨hop, hrest⟩ := List.nodup_cons.mp hdistinct
    constructor
    · intro j role hacts
      change Tenure.leave w.tenure (i, op.role) (j, role) ≠ .free
      by_cases hj : j = i
      · subst hj
        simp only [World.setPhase, Function.update_self, Phase.acts, List.any_eq_true,
          decide_eq_true_eq] at hacts
        obtain ⟨o, ho, rfl⟩ := hacts
        have hne : o.role ≠ op.role := fun he => hop (he ▸ List.mem_map_of_mem ho)
        rw [Tenure.leave_other (by simp [hne])]
        refine h.acts j o.role ?_
        rw [hphase]
        exact List.any_eq_true.mpr ⟨o, List.mem_cons_of_mem _ ho, decide_eq_true rfl⟩
      · simp only [World.setPhase, Function.update_of_ne hj] at hacts
        rw [Tenure.leave_other (by simp [hj])]
        exact h.acts j role hacts
    · intro j
      by_cases hj : j = i
      · subst hj
        simp only [World.setPhase, Function.update_self]
        exact hrest
      · simp only [World.setPhase, Function.update_of_ne hj]
        exact h.distinct j

omit [DecidableEq ι] in
theorem disciplined_init (S : Setup ι) (clock : Instant) (table : Table)
    (transcripts : Int → List Message) :
    Disciplined S (World.init S clock table transcripts) where
  acts := by
    intro i role hacts
    simp only [World.init] at hacts
    split at hacts
    · rename_i hkey
      cases role <;> simp [Phase.acts, Request.keyed, hkey] at hacts
    · cases hacts
  distinct := by
    intro i
    simp only [World.init]
    split <;> trivial

omit [DecidableEq ι] in
/-- The claim of the operation to come has been taken. -/
theorem Disciplined.head {S : Setup ι} {w : World ι} (h : Disciplined S w) {i : ι} {op : Final}
    {rest : List Final} {outcome : Outcome} (hphase : w.phase i = .finish (op :: rest) outcome) :
    w.tenure (i, op.role) ≠ .free := by
  refine h.acts i op.role ?_
  rw [hphase]
  exact List.any_eq_true.mpr ⟨op, List.mem_cons_self, decide_eq_true rfl⟩

/-! ## Owned claims -/

/-- What ownership asks of a step. A final operation on a reclaimed claim leaves
the row alone; a completed row stays as it is; afterwards no two holders that
have not been reclaimed hold the same row. -/
structure Owned (S : Setup ι) (w : World ι) (a : Action ι) (w' : World ι) : Prop where
  stray : ∀ i op rest outcome, a = .finalise i → w.phase i = .finish (op :: rest) outcome →
    w.tenure (i, op.role) = .reclaimed →
    w'.table (S.ref (i, op.role)) = w.table (S.ref (i, op.role))
  completed : ∀ r row, w.table r = some row → row.response ≠ none → w'.table r = some row
  sole : ∀ k j t u, w'.tenure k = .held t → w'.tenure j = .held u → S.ref k = S.ref j → k = j

/-- The operation leaves this row as it is. -/
def Final.harmless (row : Option IdempotencyKey) (op : Final) : Bool :=
  match row, op with
  | none, _ => true
  | some row, .complete response => decide (row.response = some response)
  | some _, _ => false

/-- Final operations on a reclaimed claim find the row absent, or completed with
the response they would write. -/
def rightful (S : Setup ι) (w : World ι) : Action ι → Bool
  | .finalise i =>
    match w.phase i with
    | .finish (op :: _) _ =>
      match w.tenure (i, op.role) with
      | .reclaimed => op.harmless (w.table (S.ref (i, op.role)))
      | _ => true
    | _ => true
  | _ => true

theorem apply_self_eq_iff (table : Table) (r : Ref) (op : Final) :
    op.apply table r r = table r ↔ op.harmless (table r) = true := by
  cases op with
  | releaseTurnLock =>
    rw [Final.apply, release_self]
    cases table r <;> simp [Final.harmless]
  | release =>
    rw [Final.apply, release_self]
    cases table r <;> simp [Final.harmless]
  | complete response =>
    rw [Final.apply, complete_self]
    cases htable : table r with
    | none => simp [Final.harmless]
    | some row =>
      obtain ⟨old, createdAt⟩ := row
      simp [Final.harmless, eq_comm]

theorem apply_other (table : Table) {r r' : Ref} (op : Final) (h : r' ≠ r) :
    op.apply table r r' = table r' := by
  cases op with
  | releaseTurnLock => exact release_other table h
  | release => exact release_other table h
  | complete response => exact complete_other table response h

/-- Every row has at most one holder that has not been reclaimed, and is its
pending claim. -/
structure Held (S : Setup ι) (w : World ι) : Prop extends Disciplined S w where
  sole : ∀ r, Sole S.ref r (Pending w.table r) w.tenure

theorem Sole.claimed {S : Setup ι} {w : World ι} {k : ι × Role} {staleBefore stamp : Instant}
    {table : Table} {r : Ref} (h : Sole S.ref r (Pending w.table r) w.tenure)
    (hclaim : claim w.table (S.ref k) staleBefore stamp = some table) :
    Sole S.ref r (Pending table r) (w.take S k stamp table).tenure := by
  obtain ⟨rfl, hrow⟩ := claim_eq_some hclaim
  by_cases hr : S.ref k = r
  · have hnew : Pending (Function.update w.table (S.ref k) (some ⟨none, stamp⟩)) r stamp := by
      rw [Pending, hr, Function.update_self]
    simp only [World.take]
    split
    · rename_i habsent
      refine h.take hr (fun t ht => ?_) hnew
      rw [Pending, ← hr, habsent] at ht
      cases ht
    · exact Sole.seize hr hnew
  · have hkeep : ∀ t, Pending w.table r t →
        Pending (Function.update w.table (S.ref k) (some ⟨none, stamp⟩)) r t := fun t ht => by
      rwa [Pending, Function.update_of_ne (Ne.symm hr)]
    refine h.congr hkeep fun j t hj ht => ?_
    have hjk : j ≠ k := fun he => hr (he ▸ hj)
    simp only [World.take] at ht
    split at ht
    · rwa [Tenure.take_other hjk] at ht
    · rwa [Tenure.seize_away (by rw [hj]; exact Ne.symm hr)] at ht

/-- The holder of a row finalises it, or another row is finalised, or the row
stays as it is. -/
theorem Sole.finalised {S : Setup ι} {w : World ι} {k : ι × Role} {op : Final} {r : Ref}
    (h : Sole S.ref r (Pending w.table r) w.tenure)
    (hk : S.ref k = r → (∃ t, w.tenure k = .held t) ∨
      op.apply w.table (S.ref k) r = w.table r) :
    Sole S.ref r (Pending (op.apply w.table (S.ref k)) r) (Tenure.leave w.tenure k) := by
  have hstay : op.apply w.table (S.ref k) r = w.table r →
      Sole S.ref r (Pending (op.apply w.table (S.ref k)) r) (Tenure.leave w.tenure k) := fun he =>
    h.leave_other fun t ht => he.trans ht
  by_cases hr : S.ref k = r
  · rcases hk hr with ⟨t, ht⟩ | he
    · exact h.leave hr ht
    · exact hstay he
  · exact hstay (apply_other w.table op (Ne.symm hr))

theorem held_step {S : Setup ι} {w w' : World ι} {a : Action ι} (h : Held S w)
    (hg : rightful S w a = true) (hmove : Moves S w a w') : Held S w' := by
  refine ⟨disciplined_step h.toDisciplined hmove, fun r => ?_⟩
  cases hmove with
  | tick micros => exact h.sole r
  | quiet i p _ _ _ => exact h.sole r
  | store i base reply cut _ | lost i base reply cut _ _ => exact h.sole r
  | take i role readAt stamp table _ _ _ hclaim _ _ => exact Sole.claimed (h.sole r) hclaim
  | finalise i op rest outcome hphase =>
    refine Sole.finalised (h.sole r) fun hr => ?_
    cases htenure : w.tenure (i, op.role) with
    | free => exact absurd htenure (h.head hphase)
    | held t => exact .inl ⟨t, rfl⟩
    | reclaimed =>
      right
      simp only [rightful, hphase, htenure] at hg
      subst hr
      exact (apply_self_eq_iff _ _ _).mpr hg

omit [DecidableEq ι] in
theorem Held.unique {S : Setup ι} {w : World ι} (h : Held S w) (k j : ι × Role) (t u : Instant)
    (hk : w.tenure k = .held t) (hj : w.tenure j = .held u) (hr : S.ref k = S.ref j) : k = j :=
  (h.sole (S.ref k)).unique k j t u rfl hr.symm hk hj

/-- A claim does not touch a completed row. -/
theorem claim_completed {table table' : Table} {r r' : Ref} {staleBefore stamp : Instant}
    {row : IdempotencyKey} (h : claim table r staleBefore stamp = some table')
    (hrow : table r' = some row) (hdone : row.response ≠ none) : table' r' = some row := by
  obtain ⟨rfl, hold⟩ := claim_eq_some h
  by_cases hr : r' = r
  · subst hr
    rcases hold with habsent | ⟨t, ht, -⟩
    · rw [habsent] at hrow
      cases hrow
    · rw [ht] at hrow
      obtain rfl := Option.some.inj hrow
      exact absurd rfl hdone
  · rw [Function.update_of_ne hr]
    exact hrow

theorem owned_step_iff {S : Setup ι} {w w' : World ι} {a : Action ι} (h : Held S w)
    (hmove : Moves S w a w') : Owned S w a w' ↔ rightful S w a = true := by
  constructor
  · intro ho
    cases hmove with
    | tick micros => rfl
    | quiet i p _ _ ha =>
      cases a with
      | finalise j => exact absurd rfl (ha j)
      | _ => rfl
    | store i base reply cut _ | lost i base reply cut _ _ => rfl
    | take i role readAt stamp table _ _ _ _ _ ha =>
      cases a with
      | finalise j => exact absurd rfl (ha j)
      | _ => rfl
    | finalise i op rest outcome hphase =>
      simp only [rightful, hphase]
      cases htenure : w.tenure (i, op.role) with
      | free => rfl
      | held t => rfl
      | reclaimed =>
        exact (apply_self_eq_iff _ _ _).mp (ho.stray i op rest outcome rfl hphase htenure)
  · intro hg
    have hheld := held_step h hg hmove
    refine ⟨?_, ?_, hheld.unique⟩
    · rintro i op rest outcome rfl hphase htenure
      cases hmove with
      | quiet j p _ _ ha => exact absurd rfl (ha i)
      | take j role readAt stamp table _ _ _ _ _ ha => exact absurd rfl (ha i)
      | finalise j op' rest' outcome' hphase' =>
        simp only [rightful, hphase, htenure] at hg
        rw [hphase] at hphase'
        cases hphase'
        exact (apply_self_eq_iff _ _ _).mpr hg
    · intro r row hrow hdone
      cases hmove with
      | tick micros => exact hrow
      | quiet i p _ _ _ => exact hrow
      | store i base reply cut _ | lost i base reply cut _ _ => exact hrow
      | take i role readAt stamp table _ _ _ hclaim _ _ => exact claim_completed hclaim hrow hdone
      | finalise i op rest outcome hphase =>
        change op.apply w.table (S.ref (i, op.role)) r = some row
        by_cases hr : r = S.ref (i, op.role)
        · subst hr
          cases htenure : w.tenure (i, op.role) with
          | free => exact absurd htenure (h.head hphase)
          | held t =>
            -- the row of a holder is pending, not completed
            have hpending := (h.sole _).row (i, op.role) t rfl htenure
            rw [Pending, hrow] at hpending
            obtain rfl := Option.some.inj hpending
            exact absurd rfl hdone
          | reclaimed =>
            simp only [rightful, hphase, htenure] at hg
            rw [(apply_self_eq_iff _ _ _).mpr hg]
            exact hrow
        · rw [apply_other _ _ hr]
          exact hrow

omit [DecidableEq ι] in
theorem held_init (S : Setup ι) (clock : Instant) (table : Table)
    (transcripts : Int → List Message) : Held S (World.init S clock table transcripts) where
  toDisciplined := disciplined_init S clock table transcripts
  sole := fun r =>
    { row := fun k t _ hk => by cases hk
      unique := fun k j t u _ _ hk _ => by cases hk }

theorem along_owned_iff (S : Setup ι) {w : World ι} (h : Held S w) (as : List (Action ι)) :
    Along (step S) (Owned S) w as ↔ Along (step S) (fun w a _ => rightful S w a = true) w as :=
  along_iff_of_invariant (I := Held S)
    (fun w a w' hi (hs : step S w a = some w') => owned_step_iff hi (step_moves hs))
    (fun w a w' hi hg (hs : step S w a = some w') => held_step hi hg (step_moves hs)) h

/-- No claim is finalised that another attempt has reclaimed. -/
def finalisesOwn (w : World ι) : Action ι → Bool
  | .finalise i =>
    match w.phase i with
    | .finish (op :: _) _ => decide (w.tenure (i, op.role) ≠ .reclaimed)
    | _ => true
  | _ => true

omit [DecidableEq ι] in
theorem rightful_of_finalisesOwn {S : Setup ι} {w : World ι} {a : Action ι}
    (h : finalisesOwn w a = true) : rightful S w a = true := by
  cases a with
  | finalise i =>
    simp only [finalisesOwn, rightful] at h ⊢
    split at h
    · have hkept := of_decide_eq_true h
      split
      · rename_i hreclaimed
        exact absurd hreclaimed hkept
      · rfl
    · rfl
  | _ => rfl

/-- **When claims are owned.** For any number of requests, any keys and durations, and
every order of their steps: while no attempt finalises a claim that another attempt
has reclaimed, a completed row stays as it is, and no row has two holders that have
not been reclaimed. -/
theorem claims_owned (S : Setup ι) (clock : Instant) (table : Table)
    (transcripts : Int → List Message) {as : List (Action ι)}
    (hown : Along (step S) (fun w a _ => finalisesOwn w a = true)
      (.init S clock table transcripts) as) :
    Along (step S) (Owned S) (.init S clock table transcripts) as :=
  along_of_invariant (I := Held S)
    (fun w a w' hi hg (hs : step S w a = some w') =>
      have hright := rightful_of_finalisesOwn hg
      ⟨(owned_step_iff hi (step_moves hs)).mpr hright, held_step hi hright (step_moves hs)⟩)
    (held_init S clock table transcripts) hown

/-- Two attempts at one turn, the first of them slow. -/
def sameKey : Setup Bool where
  request := fun _ => ⟨1, 5, .turn, some "k", "hello"⟩
  owner := fun _ => some 1
  transcriptMaxMessages := 200

/-- The second attempt reclaims key and lock after 121 seconds and completes; then
the LLM of the first one fails. -/
def slowAttempt : List (Action Bool) :=
  [.lookup false, .claim false 0 0, .acquire false 0 0, .prepare false true, .tick 121000000,
    .lookup true, .claim true 121000000 121000000, .acquire true 121000000 121000000,
    .prepare true true, .generate true (.reply "hi"), .persist true .committed, .finalise true,
    .finalise true, .generate false .failed, .finalise false]

/-- The release of the first attempt deletes the response of the second. -/
theorem completed_response_deleted :
    (∃ w w', run (step sameKey) (.init sameKey 0 (fun _ => none) fun _ => []) slowAttempt = some w ∧
      step sameKey w (.finalise false) = some w' ∧ w.tenure (false, .key) = .reclaimed ∧
      w.table (1, "k") = some ⟨some "hi", 121000000⟩ ∧ w'.table (1, "k") = none) ∧
    ¬Along (step sameKey) (Owned sameKey) (.init sameKey 0 (fun _ => none) fun _ => [])
      (slowAttempt ++ [.finalise false]) := by
  constructor
  · obtain ⟨w, hw, hd⟩ := exists_run_of_check (step sameKey)
      (.init sameKey 0 (fun _ => none) fun _ => []) slowAttempt
      (fun w => decide (w.phase false = .finish [.release] .failed ∧
        w.tenure (false, .key) = .reclaimed ∧
        w.table (1, "k") = some ⟨some "hi", 121000000⟩)) (by decide +kernel)
    obtain ⟨hphase, htenure, hrow⟩ := of_decide_eq_true hd
    have href : sameKey.ref (false, .key) = (1, "k") := by decide
    refine ⟨w, (w.finalise sameKey false .release).setPhase false (.finish [] .failed), hw, ?_,
      htenure, hrow, ?_⟩
    · simp only [step, hphase]
    · change Idempotency.release w.table (sameKey.ref (false, .key)) (1, "k") = none
      rw [href, release_self]
  · rw [along_owned_iff sameKey (held_init _ _ _ _)]
    decide +kernel

/-- The process of the first attempt dies with its final operations to come. -/
theorem claims_owned_crash :
    (run (step sameKey) (.init sameKey 0 (fun _ => none) fun _ => [])
      (slowAttempt.dropLast ++ [.skip false, .skip false])).isSome = true ∧
      Along (step sameKey) (Owned sameKey) (.init sameKey 0 (fun _ => none) fun _ => [])
        (slowAttempt.dropLast ++ [.skip false, .skip false]) :=
  ⟨by decide +kernel, claims_owned sameKey 0 _ _ (by decide +kernel)⟩

end Apm.Conversation
