import Apm.Conversation.TurnLock

/-!
# Replays of one key

Every request of this file carries the same user and `Idempotency-Key`, to any
session and through either endpoint. While no request relies on a claim of the key
that is older than `STALE_CLAIM_SECONDS`, the row of the key has one such holder
until it is completed. So at most one request commits its turn, and a request that
begins after the completion is answered from the row. The exception is a turn whose
commit is applied and whose answer is lost: its request takes the turn for unsaved
and releases the key.
-/

namespace Apm.Conversation

open Apm.Core Apm.Lib Apm.Idempotency

set_option autoImplicit false

variable {ι : Type} [DecidableEq ι]

/-- Every request is a replay of one turn. -/
def Carries (S : Setup ι) (userId : Int) (key : String) : Prop :=
  ∀ i, (S.request i).userId = userId ∧ (S.request i).key = some key

/-- The request relies on its claim of the key: it has not finished with it, or it has
committed its turn. -/
def relies (S : Setup ι) (w : World ι) (i : ι) : Bool :=
  (w.phase i).acts (S.request i).keyed .key || w.persisted i

/-- Each claim of a key is completed or released before it is stale. -/
def Timely (S : Setup ι) (w : World ι) : Prop :=
  ∀ i, relies S w i = true → withinStale w.clock (w.tenure (i, .key)) = true

instance [Fintype ι] (S : Setup ι) (w : World ι) : Decidable (Timely S w) :=
  inferInstanceAs (Decidable (∀ _, _))

/-- A request that has committed its turn, and is told otherwise, does not release its key: it is
cancelled, or the reply of its stream has been delivered in full. -/
def keepsClaim (S : Setup ι) (w : World ι) : Action ι → Bool
  | .persist i (.lost cancelled) =>
    match w.phase i with
    | .persist _ _ partialReply =>
      cancelled || (decide ((S.request i).endpoint = .stream) && !partialReply)
    | _ => true
  | _ => true

/-- The row carries a response. -/
def Completed (table : Table) (r : Ref) (response : String) : Prop :=
  ∃ t, table r = some ⟨some response, t⟩

omit [DecidableEq ι] in
theorem Carries.keyed {S : Setup ι} {userId : Int} {key : String} (h : Carries S userId key)
    (i : ι) : (S.request i).keyed = true := by
  rw [Request.keyed, (h i).2]
  rfl

omit [DecidableEq ι] in
theorem Carries.ref {S : Setup ι} {userId : Int} {key : String} (h : Carries S userId key)
    (i : ι) : S.ref (i, .key) = (userId, key) := by
  simp only [Setup.ref, Request.ref, (h i).1, (h i).2, Option.getD_some]

theorem Completed.not_pending {table : Table} {r : Ref} {response : String} {t : Instant}
    (h : Completed table r response) : ¬Pending table r t := by
  obtain ⟨u, hrow⟩ := h
  rw [Pending, hrow]
  simp

/-! ## One attempt at a time -/

/-- The state of a key whose row is `r`: whoever relies on its claim has not been
reclaimed, no turn lock is on the row, a committed turn is its holder's or the
completed one. -/
structure Once (S : Setup ι) (r : Ref) (w : World ι) : Prop extends Disciplined S w where
  sole : Sole S.ref r (Pending w.table r) w.tenure
  kept : ∀ i, relies S w i = true → w.tenure (i, .key) ≠ .reclaimed
  timely : Timely S w
  unlocked : ∀ i, S.ref (i, .lock) = r → w.tenure (i, .lock) = .free
  completes : ∀ i todo outcome response, w.phase i = .finish todo outcome →
    .complete response ∈ todo → outcome = .replied response
  /-- who has committed is about to complete the row, or has completed it, or leaves it -/
  settled : ∀ i, w.persisted i = true → ∃ todo outcome, w.phase i = .finish todo outcome ∧
    .release ∉ todo ∧ ((∃ t, w.tenure (i, .key) = .held t) ∨ ∃ ρ, Completed w.table r ρ)
  /-- the response is the reply of the attempt that committed, if one did -/
  answered : ∀ ρ, Completed w.table r ρ → ∃ i todo, w.phase i = .finish todo (.replied ρ) ∧
    ∀ k, w.persisted k = true → k = i
  unique : ∀ i j, w.persisted i = true → w.persisted j = true → i = j
  commits : w.commits.length ≤ 1 ∧ ((∀ i, w.persisted i = false) → w.commits = [])

section preservation

variable {S : Setup ι} {r : Ref} {w : World ι} {i : ι}

omit [DecidableEq ι] in
theorem relies_of_acts (hacts : (w.phase i).acts (S.request i).keyed .key = true) :
    relies S w i = true := by
  rw [relies, hacts, Bool.true_or]

omit [DecidableEq ι] in
/-- A claim that is relied on is live, and the row carries its stamp. -/
theorem Once.live (h : Once S r w) (hr : S.ref (i, .key) = r) (hrelies : relies S w i = true)
    {t : Instant} (ht : w.tenure (i, .key) = .held t) :
    Pending w.table r t ∧ w.clock ≤ t + staleClaim := by
  have htimely := h.timely i hrelies
  rw [ht] at htimely
  exact ⟨h.sole.row (i, .key) t hr ht, of_decide_eq_true htimely⟩

omit [DecidableEq ι] in
/-- While a request acts on its key the row is pending, with its stamp. -/
theorem Once.pending (h : Once S r w) (hr : S.ref (i, .key) = r)
    (hacts : (w.phase i).acts (S.request i).keyed .key = true) :
    ∃ t, w.tenure (i, .key) = .held t ∧ Pending w.table r t ∧ w.clock ≤ t + staleClaim := by
  cases htenure : w.tenure (i, .key) with
  | free => exact absurd htenure (h.acts i .key hacts)
  | reclaimed => exact absurd htenure (h.kept i (relies_of_acts hacts))
  | held t => exact ⟨t, rfl, h.live hr (relies_of_acts hacts) htenure⟩

omit [DecidableEq ι] in
/-- Whoever has committed while another request acts on the key is that request. -/
theorem Once.persisted_acts (h : Once S r w) (hkey : ∀ j, S.ref (j, .key) = r)
    (hacts : (w.phase i).acts (S.request i).keyed .key = true) {k : ι}
    (hk : w.persisted k = true) : k = i := by
  obtain ⟨t, ht, hpending, -⟩ := h.pending (hkey i) hacts
  obtain ⟨-, -, -, -, ⟨u, hu⟩ | ⟨ρ, hρ⟩⟩ := h.settled k hk
  · exact congrArg Prod.fst (h.sole.unique (k, .key) (i, .key) u t (hkey k) (hkey i) hu ht)
  · exact absurd hpending hρ.not_pending

/-- A claim of a row that is relied on fails. -/
theorem claim_live {table table' : Table} {r : Ref} {clock readAt stamp t : Instant}
    (hread : readAt ≤ clock) (hclaim : claim table r (readAt - staleClaim) stamp = some table')
    (ht : Pending table r t) (hlive : clock ≤ t + staleClaim) : False := by
  obtain ⟨-, habsent | ⟨u, hu, hstale⟩⟩ := claim_eq_some hclaim
  · rw [Pending, habsent] at ht
    cases ht
  · obtain rfl := Pending.inj ht hu
    exact not_lt.mpr (Int.sub_right_le_of_le_add (hread.trans hlive)) hstale

/-- A claim of an absent row, or of another row, leaves a tenure alone. -/
theorem take_tenure_other {k j : ι × Role} (stamp : Instant) (table : Table) (hj : j ≠ k)
    (hrow : w.table (S.ref k) = none ∨ S.ref j ≠ S.ref k) :
    (w.take S k stamp table).tenure j = w.tenure j := by
  simp only [World.take]
  split
  · exact Tenure.take_other hj
  · rename_i hpresent
    exact Tenure.seize_away (hrow.resolve_left hpresent)

/-- A request that has finished keeps its outcome. -/
theorem Moves.settled {w' : World ι} {a : Action ι} (hmove : Moves S w a w') {k : ι}
    {todo : List Final} {outcome : Outcome} (hk : w.phase k = .finish todo outcome) :
    ∃ rest, w'.phase k = .finish rest outcome ∧ rest ⊆ todo := by
  have hother : ∀ {i : ι} {p : Phase}, k ≠ i →
      ∃ rest, Function.update w.phase i p k = .finish rest outcome ∧ rest ⊆ todo :=
    fun hki => ⟨todo, by rwa [Function.update_of_ne hki], List.Subset.refl _⟩
  cases hmove with
  | tick micros => exact ⟨todo, hk, List.Subset.refl _⟩
  | quiet i p hp _ _ =>
    by_cases hki : k = i
    · subst hki
      obtain ⟨rest, rfl, hsub⟩ := hp.settled todo outcome hk
      exact ⟨rest, Function.update_self .., hsub⟩
    · exact hother hki
  | take i role readAt stamp table hphase _ _ _ _ _ =>
    refine hother fun hki => ?_
    rw [hki, hphase] at hk
    cases role <;> cases hk
  | store i base reply cut hphase | lost i base reply cut _ hphase =>
    refine hother fun hki => ?_
    rw [hki, hphase] at hk
    cases hk
  | finalise i op rest outcome' hphase =>
    by_cases hki : k = i
    · subst hki
      rw [hphase] at hk
      cases hk
      exact ⟨rest, Function.update_self .., List.subset_cons_self _ _⟩
    · exact hother hki

/-- A response to write is the reply of its request. -/
theorem Moves.completes {w' : World ι} {a : Action ι} (hmove : Moves S w a w')
    (h : ∀ i todo outcome response, w.phase i = .finish todo outcome →
      .complete response ∈ todo → outcome = .replied response)
    (k : ι) (todo : List Final) (outcome : Outcome) (response : String)
    (hk : w'.phase k = .finish todo outcome) (hop : .complete response ∈ todo) :
    outcome = .replied response := by
  have hother : ∀ {i : ι} {p : Phase}, k ≠ i →
      Function.update w.phase i p k = .finish todo outcome → outcome = .replied response :=
    fun hki hfinish => by
      rw [Function.update_of_ne hki] at hfinish
      exact h k todo outcome response hfinish hop
  cases hmove with
  | tick micros => exact h k todo outcome response hk hop
  | quiet i p hp _ _ =>
    by_cases hki : k = i
    · subst hki
      simp only [World.setPhase, Function.update_self] at hk
      rcases hp.completes todo outcome response hk hop with hreplied | ⟨todo', hold, hop'⟩
      · exact hreplied
      · exact h k todo' outcome response hold hop'
    · exact hother hki hk
  | take i role readAt stamp table _ _ _ _ _ _ =>
    by_cases hki : k = i
    · subst hki
      simp only [World.setPhase, Function.update_self] at hk
      cases role <;> cases hk
    · exact hother hki hk
  | store i base reply cut hphase =>
    by_cases hki : k = i
    · subst hki
      simp only [World.setPhase, Function.update_self] at hk
      cases hk
      exact (finals_afterPersist _ reply).completes response hop
    · exact hother hki hk
  | lost i base reply cut cancelled hphase =>
    by_cases hki : k = i
    · subst hki
      simp only [World.setPhase, Function.update_self] at hk
      cases hk
      exact (finals_afterLoss _ cut cancelled).completes response hop
    · exact hother hki hk
  | finalise i op rest outcome' hphase =>
    by_cases hki : k = i
    · subst hki
      simp only [World.setPhase, Function.update_self] at hk
      cases hk
      exact h k _ _ response hphase (List.mem_cons_of_mem _ hop)
    · exact hother hki hk

/-- A step that leaves the row, its claims and the commits alone. -/
theorem once_away {w' : World ι} {a : Action ι} (h : Once S r w) (hkey : ∀ j, S.ref (j, .key) = r)
    (hmove : Moves S w a w') (htimely : Timely S w') (hrow : w'.table r = w.table r)
    (htenure : ∀ k, S.ref k = r → w'.tenure k = w.tenure k)
    (hacts : ∀ j, (w'.phase j).acts (S.request j).keyed .key = true →
      (w.phase j).acts (S.request j).keyed .key = true)
    (hpersisted : w'.persisted = w.persisted) (hcommits : w'.commits = w.commits) :
    Once S r w' where
  toDisciplined := disciplined_step h.toDisciplined hmove
  sole := h.sole.congr (fun t ht => hrow.trans ht) fun k t hk ht => htenure k hk ▸ ht
  kept := fun j hj => by
    rw [htenure _ (hkey j)]
    refine h.kept j ?_
    rw [relies, hpersisted, Bool.or_eq_true] at hj
    rw [relies, Bool.or_eq_true]
    exact hj.imp_left (hacts j)
  timely := htimely
  unlocked := fun j hj => by
    rw [htenure _ hj]
    exact h.unlocked j hj
  completes := hmove.completes h.completes
  settled := fun k hk => by
    rw [hpersisted] at hk
    obtain ⟨todo, outcome, hphase, hrelease, hstate⟩ := h.settled k hk
    obtain ⟨rest, hphase', hsub⟩ := hmove.settled hphase
    refine ⟨rest, outcome, hphase', fun hmem => hrelease (hsub hmem), ?_⟩
    rw [htenure _ (hkey k)]
    simpa only [Completed, hrow] using hstate
  answered := fun ρ hρ => by
    simp only [Completed, hrow] at hρ
    obtain ⟨i, todo, hphase, honly⟩ := h.answered ρ hρ
    obtain ⟨rest, hphase', -⟩ := hmove.settled hphase
    exact ⟨i, rest, hphase', by rwa [hpersisted]⟩
  unique := by
    rw [hpersisted]
    exact h.unique
  commits := by
    rw [hpersisted, hcommits]
    exact h.commits

/-- The key is claimed. Nobody relied on its row, so nobody has committed. -/
theorem once_take_key {readAt stamp : Instant} {table : Table} {a : Action ι} (h : Once S r w)
    (hkey : ∀ j, S.ref (j, .key) = r) (hread : readAt ≤ w.clock)
    (hclaim : claim w.table (S.ref (i, .key)) (readAt - staleClaim) stamp = some table)
    (hmove : Moves S w a ((w.take S (i, .key) stamp table).setPhase i .acquire))
    (htimely : Timely S ((w.take S (i, .key) stamp table).setPhase i .acquire)) :
    Once S r ((w.take S (i, .key) stamp table).setPhase i .acquire) := by
  have hclaim' := hclaim
  rw [hkey i] at hclaim'
  have hrow : table r = some ⟨none, stamp⟩ := by
    obtain ⟨rfl, -⟩ := claim_eq_some hclaim'
    exact Function.update_self ..
  have hself : (w.take S (i, .key) stamp table).tenure (i, .key) = .held stamp :=
    take_tenure_self ..
  have hunheld : ∀ k, relies S w k = true → ∀ t, w.tenure (k, .key) ≠ .held t :=
    fun k hk t ht => by
      obtain ⟨hpending, hlive⟩ := h.live (hkey k) hk ht
      exact claim_live hread hclaim' hpending hlive
  have hnobody : ∀ k, w.persisted k = false := fun k => by
    by_contra hk
    have hk' : w.persisted k = true := by simpa using hk
    obtain ⟨-, -, -, -, ⟨t, ht⟩ | ⟨ρ, u, hρ⟩⟩ := h.settled k hk'
    · exact hunheld k (by rw [relies, hk', Bool.or_true]) t ht
    · obtain ⟨-, habsent | ⟨t, hpending, -⟩⟩ := claim_eq_some hclaim'
      · rw [habsent] at hρ
        cases hρ
      · exact Completed.not_pending ⟨u, hρ⟩ hpending
  refine ⟨disciplined_step h.toDisciplined hmove, Sole.claimed h.sole hclaim, ?_, htimely, ?_,
    hmove.completes h.completes, ?_, ?_, h.unique, h.commits⟩
  · intro j hj
    by_cases hji : j = i
    · subst hji
      exact ne_of_eq_of_ne hself (by simp)
    · rw [relies, show ((w.take S (i, .key) stamp table).setPhase i .acquire).persisted j = false
        from hnobody j, Bool.or_false] at hj
      simp only [World.setPhase, World.take, Function.update_of_ne hji] at hj
      -- who acts on the key holds it, and the claim would have failed
      obtain ⟨t, ht, -⟩ := h.pending (hkey j) hj
      exact absurd ht (hunheld j (relies_of_acts hj) t)
  · intro j hj
    change (w.take S (i, .key) stamp table).tenure (j, .lock) = .free
    exact (take_tenure_eq_free_iff stamp table (by simp)).mpr (h.unlocked j hj)
  · intro k hk
    exact absurd (hnobody k) (by rw [show w.persisted k = true from hk]; simp)
  · intro ρ hρ
    exact absurd hrow hρ.not_pending

/-- A turn lock is claimed while the row of the key is relied on, so on another row. -/
theorem once_take_lock {readAt stamp : Instant} {table : Table} {a : Action ι} (h : Once S r w)
    (hkey : ∀ j, S.ref (j, .key) = r) (hkeyed : (S.request i).keyed = true)
    (hphase : w.phase i = .acquire) (hread : readAt ≤ w.clock)
    (hclaim : claim w.table (S.ref (i, .lock)) (readAt - staleClaim) stamp = some table)
    (hmove : Moves S w a ((w.take S (i, .lock) stamp table).setPhase i .prepare))
    (htimely : Timely S ((w.take S (i, .lock) stamp table).setPhase i .prepare)) :
    Once S r ((w.take S (i, .lock) stamp table).setPhase i .prepare) := by
  have hacts : (w.phase i).acts (S.request i).keyed .key = true := by
    rw [hphase]
    exact hkeyed
  obtain ⟨t, -, hpending, hlive⟩ := h.pending (hkey i) hacts
  have hlock : S.ref (i, .lock) ≠ r := fun hr => by
    rw [hr] at hclaim
    exact claim_live hread hclaim hpending hlive
  refine once_away h hkey hmove htimely ?_ (fun k hk => ?_) (fun j hj => ?_) rfl rfl
  · obtain ⟨rfl, -⟩ := claim_eq_some hclaim
    exact Function.update_of_ne (Ne.symm hlock) ..
  · have hne : S.ref k ≠ S.ref (i, .lock) := fun he => hlock (he.symm.trans hk)
    exact take_tenure_other stamp table (fun he => hne (congrArg S.ref he)) (.inr hne)
  · by_cases hji : j = i
    · exact hji ▸ hacts
    · simpa only [World.setPhase, World.take, Function.update_of_ne hji] using hj

/-- The holder of the key commits its turn, and will not release the key: nobody has committed
before it. -/
theorem once_store {base : List Message} {reply : String} {cut : Bool} {todo : List Final}
    {outcome : Outcome} {a : Action ι} (h : Once S r w)
    (hkey : ∀ j, S.ref (j, .key) = r) (hkeyed : (S.request i).keyed = true)
    (hphase : w.phase i = .persist base reply cut) (hrelease : .release ∉ todo)
    (hmove : Moves S w a ((w.store S i base reply).setPhase i (.finish todo outcome)))
    (htimely : Timely S ((w.store S i base reply).setPhase i (.finish todo outcome))) :
    Once S r ((w.store S i base reply).setPhase i (.finish todo outcome)) := by
  have hacts : (w.phase i).acts (S.request i).keyed .key = true := by
    rw [hphase]
    exact hkeyed
  obtain ⟨t, ht, hpending, -⟩ := h.pending (hkey i) hacts
  have hnobody : ∀ k, w.persisted k = false := fun k => by
    by_contra hk
    have hk' : w.persisted k = true := by simpa using hk
    obtain rfl := h.persisted_acts hkey hacts hk'
    obtain ⟨todo', outcome', hfinish, -⟩ := h.settled k hk'
    rw [hphase] at hfinish
    cases hfinish
  have honly : ∀ k, Function.update w.persisted i true k = true → k = i := fun k hk => by
    by_contra hki
    rw [Function.update_of_ne hki, hnobody k] at hk
    cases hk
  refine ⟨disciplined_step h.toDisciplined hmove, h.sole, fun j hj => ?_, htimely, h.unlocked,
    hmove.completes h.completes, fun k hk => ?_, fun ρ hρ => absurd hpending hρ.not_pending,
    fun k j hk hj => (honly k hk).trans (honly j hj).symm, ?_, fun hnone => ?_⟩
  · change w.tenure (j, .key) ≠ .reclaimed
    by_cases hji : j = i
    · rw [hji, ht]
      simp
    · refine h.kept j ?_
      simpa only [relies, World.setPhase, World.store, Function.update_of_ne hji] using hj
  · obtain rfl := honly k hk
    exact ⟨todo, outcome, Function.update_self .., hrelease, .inl ⟨t, ht⟩⟩
  · change (w.commits ++ [_]).length ≤ 1
    rw [h.commits.2 hnobody]
    exact Nat.le_refl 1
  · have hself : Function.update w.persisted i true i = false := hnone i
    rw [Function.update_self] at hself
    cases hself

omit [DecidableEq ι] in
theorem release_notMem_afterPersist (r : Request) (reply : String) :
    Final.release ∉ r.afterPersist reply := by
  unfold Request.afterPersist Request.onKey
  split <;> split <;> simp

omit [DecidableEq ι] in
theorem release_notMem_afterLoss {base : List Message} {reply : String} {cut cancelled : Bool}
    (hphase : w.phase i = .persist base reply cut)
    (hkeeps : keepsClaim S w (.persist i (.lost cancelled)) = true) :
    Final.release ∉ (S.request i).afterLoss cut cancelled := by
  simp only [keepsClaim, hphase, Bool.or_eq_true, Bool.and_eq_true, decide_eq_true_eq,
    Bool.not_eq_true'] at hkeeps
  rw [Request.afterLoss]
  split_ifs with hcancelled
  · simp
  · obtain ⟨hstream, rfl⟩ := hkeeps.resolve_left hcancelled
    simp [Request.afterPersistError, hstream]

/-- A final operation on the key: its holder releases the row, or completes it
with its reply. -/
theorem once_finalise_key {op : Final} {rest : List Final} {outcome : Outcome} (h : Once S r w)
    (hkey : ∀ j, S.ref (j, .key) = r) (hphase : w.phase i = .finish (op :: rest) outcome)
    (hrole : op.role = .key)
    (hmove : Moves S w (.finalise i) ((w.finalise S i op).setPhase i (.finish rest outcome)))
    (htimely : Timely S ((w.finalise S i op).setPhase i (.finish rest outcome))) :
    Once S r ((w.finalise S i op).setPhase i (.finish rest outcome)) := by
  have hacts : (w.phase i).acts (S.request i).keyed .key = true := by
    rw [hphase]
    exact List.any_eq_true.mpr ⟨op, List.mem_cons_self, decide_eq_true hrole⟩
  obtain ⟨t, ht, hpending, -⟩ := h.pending (hkey i) hacts
  have href : S.ref (i, op.role) = r := by rw [hrole, hkey i]
  -- the row afterwards
  have hrow : (∀ u, ¬Pending (op.apply w.table r) r u) ∧
      ∀ ρ, Completed (op.apply w.table r) r ρ → op = .complete ρ := by
    cases op with
    | releaseTurnLock => cases hrole
    | release =>
      refine ⟨fun u hu => ?_, fun ρ hρ => ?_⟩
      · rw [Pending, Final.apply, release_self] at hu
        cases hu
      · obtain ⟨u, hu⟩ := hρ
        rw [Final.apply, release_self] at hu
        cases hu
    | complete response =>
      refine ⟨fun u hu => ?_, fun ρ hρ => ?_⟩
      · rw [Pending, Final.apply, complete_self, hpending] at hu
        cases hu
      · obtain ⟨u, hu⟩ := hρ
        rw [Final.apply, complete_self, hpending] at hu
        cases hu
        rfl
  have htable : ((w.finalise S i op).setPhase i (.finish rest outcome)).table =
      op.apply w.table r := by rw [← href]; rfl
  have hother : ∀ j, j ≠ (i, .key) → Tenure.leave w.tenure (i, op.role) j = w.tenure j :=
    fun j hj => by rw [hrole, Tenure.leave_other hj]
  refine ⟨disciplined_step h.toDisciplined hmove, ?_, ?_, htimely, ?_,
    hmove.completes h.completes, ?_, ?_, h.unique, h.commits⟩
  · exact Sole.finalised h.sole fun _ => .inl ⟨t, hrole ▸ ht⟩
  · intro j hj
    change Tenure.leave w.tenure (i, op.role) (j, .key) ≠ .reclaimed
    by_cases hji : j = i
    · rw [hji, hrole, Tenure.leave_self]
      simp
    · rw [hother _ (by simp [hji])]
      refine h.kept j ?_
      simpa only [relies, World.setPhase, World.finalise, Function.update_of_ne hji] using hj
  · intro j hj
    exact (hother (j, .lock) (by simp)).trans (h.unlocked j hj)
  · intro k hk
    obtain rfl := h.persisted_acts hkey hacts hk
    obtain ⟨todo, outcome', hfinish, hrelease, -⟩ := h.settled k hk
    rw [hphase] at hfinish
    cases hfinish
    rw [List.mem_cons, not_or] at hrelease
    obtain ⟨hop, hrest⟩ := hrelease
    refine ⟨rest, outcome, Function.update_self .., hrest, .inr ?_⟩
    rw [htable]
    cases op with
    | releaseTurnLock => cases hrole
    | release => exact absurd rfl hop
    | complete response =>
      exact ⟨response, t, by rw [Final.apply, complete_self, hpending]; rfl⟩
  · intro ρ hρ
    rw [htable] at hρ
    obtain rfl := hrow.2 ρ hρ
    obtain rfl := h.completes i _ _ ρ hphase List.mem_cons_self
    exact ⟨i, rest, Function.update_self .., fun k hk => h.persisted_acts hkey hacts hk⟩

end preservation

theorem once_step {S : Setup ι} {r : Ref} {w w' : World ι} {a : Action ι} (h : Once S r w)
    (hkey : ∀ j, S.ref (j, .key) = r) (hkeyed : ∀ j, (S.request j).keyed = true)
    (hkeeps : keepsClaim S w a = true) (htimely : Timely S w') (hmove : Moves S w a w') :
    Once S r w' := by
  cases hmove with
  | tick micros =>
    exact once_away h hkey (.tick micros) htimely rfl (fun _ _ => rfl) (fun _ => id) rfl rfl
  | quiet i p hp hi ha =>
    refine once_away h hkey (.quiet i p hp hi ha) htimely rfl (fun _ _ => rfl) (fun j hj => ?_) rfl
      rfl
    by_cases hji : j = i
    · subst hji
      simp only [World.setPhase, Function.update_self] at hj
      exact hp.acts .key hj
    · simpa only [World.setPhase, Function.update_of_ne hji] using hj
  | take i role readAt stamp table hphase hread hstamp hclaim hi ha =>
    have hmove := Moves.take i role readAt stamp table hphase hread hstamp hclaim hi ha
    cases role with
    | key => exact once_take_key h hkey hread hclaim hmove htimely
    | lock => exact once_take_lock h hkey (hkeyed i) hphase hread hclaim hmove htimely
  | store i base reply cut hphase =>
    exact once_store h hkey (hkeyed i) hphase (release_notMem_afterPersist _ _)
      (.store i base reply cut hphase) htimely
  | lost i base reply cut cancelled hphase =>
    exact once_store h hkey (hkeyed i) hphase (release_notMem_afterLoss hphase hkeeps)
      (.lost i base reply cut cancelled hphase) htimely
  | finalise i op rest outcome hphase =>
    have hmove := Moves.finalise (S := S) i op rest outcome hphase
    cases hrole : op.role with
    | key => exact once_finalise_key h hkey hphase hrole hmove htimely
    | lock =>
      -- the lock of the request is another row
      have hlock : S.ref (i, op.role) ≠ r := fun hr =>
        absurd (h.unlocked i (hrole ▸ hr)) (hrole ▸ h.head hphase)
      refine once_away h hkey hmove htimely (apply_other _ _ (Ne.symm hlock)) (fun k hk => ?_)
        (fun j hj => ?_) rfl rfl
      · exact Tenure.leave_other fun he => hlock (he ▸ hk)
      · by_cases hji : j = i
        · subst hji
          simp only [World.setPhase, Function.update_self] at hj
          rw [hphase, Phase.acts, List.any_cons, Bool.or_eq_true]
          exact .inr hj
        · simpa only [World.setPhase, World.finalise, Function.update_of_ne hji] using hj

/-! ## Requests that begin after the completion -/

/-- A step of another request. -/
theorem Moves.phase_other {S : Setup ι} {w w' : World ι} {a : Action ι} (h : Moves S w a w')
    {j : ι} (hj : a.request ≠ some j) : w'.phase j = w.phase j := by
  have hother : ∀ {i : ι} {p : Phase}, a.request = some i →
      Function.update w.phase i p j = w.phase j := fun hi =>
    Function.update_of_ne (fun he => hj (hi.trans (congrArg some he.symm))) ..
  cases h with
  | tick micros => rfl
  | quiet i p _ hi _ => exact hother hi
  | take i role readAt stamp table _ _ _ _ hi _ => exact hother hi
  | store i base reply cut _ | lost i base reply cut _ _ => exact hother rfl
  | finalise i op rest outcome _ => exact hother rfl

/-- A completed row of the key stays as it is. -/
theorem Once.completed_step {S : Setup ι} {r : Ref} {w w' : World ι} {a : Action ι} {ρ : String}
    (h : Once S r w) (hkey : ∀ j, S.ref (j, .key) = r) (hmove : Moves S w a w')
    (hρ : Completed w.table r ρ) : Completed w'.table r ρ := by
  obtain ⟨t, hrow⟩ := hρ
  refine ⟨t, ?_⟩
  cases hmove with
  | tick micros => exact hrow
  | quiet i p _ _ _ => exact hrow
  | store i base reply cut _ | lost i base reply cut _ _ => exact hrow
  | take i role readAt stamp table _ _ _ hclaim _ _ =>
    exact claim_completed hclaim hrow (by simp)
  | finalise i op rest outcome hphase =>
    refine (apply_other w.table op fun hr => ?_).trans hrow
    cases hrole : op.role with
    | lock => exact absurd (h.unlocked i (hrole ▸ hr.symm)) (hrole ▸ h.head hphase)
    | key =>
      have hacts : (w.phase i).acts (S.request i).keyed .key = true := by
        rw [hphase]
        exact List.any_eq_true.mpr ⟨op, List.mem_cons_self, decide_eq_true hrole⟩
      obtain ⟨u, -, hpending, -⟩ := h.pending (hkey i) hacts
      exact Completed.not_pending ⟨t, hrow⟩ hpending

/-- How far a request gets that begins when the row is completed: it has taken no
step, it has the response, or its only database operation raised or was cancelled. -/
def Replayed (j : ι) (response : String) (as : List (Action ι)) (p : Phase) : Prop :=
  (p = .lookup ∧ ∀ a ∈ as, a.request ≠ some j) ∨ p = .finish [] (.cached response) ∨
    (p = .finish [] .failed ∧ (.error j ∈ as ∨ .cancel j ∈ as))

omit [DecidableEq ι] in
theorem Replayed.cons {j : ι} {response : String} {as : List (Action ι)} {p : Phase} {a : Action ι}
    (h : Replayed j response as p) (ha : a.request ≠ some j) : Replayed j response (a :: as) p := by
  obtain ⟨hp, hnone⟩ | hp | ⟨hp, hraised⟩ := h
  · exact .inl ⟨hp, List.forall_mem_cons.mpr ⟨ha, hnone⟩⟩
  · exact .inr (.inl hp)
  · exact .inr (.inr ⟨hp, hraised.imp (List.mem_cons_of_mem _) (List.mem_cons_of_mem _)⟩)

/-- A request that has nothing left to do stays as it is. -/
theorem finished_run {S : Setup ι} {w w' : World ι} {as : List (Action ι)} {j : ι}
    {outcome : Outcome} (hphase : w.phase j = .finish [] outcome)
    (hrun : run (step S) w as = some w') : w'.phase j = .finish [] outcome := by
  refine run_preserves (I := fun w : World ι => w.phase j = .finish [] outcome)
    (fun w a w' hi (hs : step S w a = some w') => ?_) hphase hrun
  obtain ⟨rest, hphase', hsub⟩ := (step_moves hs).settled hi
  rwa [List.subset_nil.mp hsub] at hphase'

/-- The first step of a request whose row is completed. -/
theorem lookup_completed {S : Setup ι} {w w' : World ι} {a : Action ι} {j : ι} {ρ : String}
    (hphase : w.phase j = .lookup) (hρ : Completed w.table (S.ref (j, .key)) ρ)
    (ha : a.request = some j) (h : step S w a = some w') :
    w'.phase j = .finish [] (.cached ρ) ∨
      w'.phase j = .finish [] .failed ∧ (a = .error j ∨ a = .cancel j) := by
  obtain ⟨t, hrow⟩ := hρ
  cases a with
  | tick micros => cases ha
  | lookup i =>
    obtain rfl := Option.some.inj ha
    simp only [step, hphase, Idempotency.lookup, hrow] at h
    obtain rfl := Option.some.inj h
    exact .inl (Function.update_self ..)
  | error i =>
    obtain rfl := Option.some.inj ha
    simp only [step, hphase, onError, Option.map_some] at h
    obtain rfl := Option.some.inj h
    exact .inr ⟨Function.update_self .., .inl rfl⟩
  | cancel i =>
    obtain rfl := Option.some.inj ha
    simp only [step, hphase, onCancel] at h
    obtain rfl := Option.some.inj h
    exact .inr ⟨Function.update_self .., .inr rfl⟩
  | claim i | reread i | acquire i | prepare i | generate i | persist i | finalise i | skip i =>
    obtain rfl := Option.some.inj ha
    simp [step, hphase] at h

theorem replayed_run {S : Setup ι} {r : Ref} {ρ : String} {j : ι}
    (hkey : ∀ j, S.ref (j, .key) = r) (hkeyed : ∀ j, (S.request j).keyed = true)
    {as : List (Action ι)} {w w' : World ι} (h : Once S r w) (hρ : Completed w.table r ρ)
    (hphase : w.phase j = .lookup)
    (hg : Along (step S) (fun w a w' => keepsClaim S w a = true ∧ Timely S w') w as)
    (hrun : run (step S) w as = some w') : Replayed j ρ as (w'.phase j) := by
  induction as generalizing w with
  | nil =>
    obtain rfl := Option.some.inj hrun
    exact .inl ⟨hphase, by simp⟩
  | cons a rest ih =>
    obtain ⟨m, hm, hrest⟩ := run_cons_iff.mp hrun
    obtain ⟨⟨hkeeps, ht⟩, hrestTimely⟩ := hg m hm
    have hmove := step_moves hm
    by_cases ha : a.request = some j
    · obtain hcached | ⟨hfailed, hraised⟩ :=
        lookup_completed hphase (by rwa [hkey j]) ha hm
      · exact .inr (.inl (finished_run hcached hrest))
      · refine .inr (.inr ⟨finished_run hfailed hrest, ?_⟩)
        rcases hraised with rfl | rfl
        · exact .inl List.mem_cons_self
        · exact .inr List.mem_cons_self
    · have hsame : m.phase j = .lookup := (hmove.phase_other ha).trans hphase
      exact (ih (once_step h hkey hkeyed hkeeps ht hmove) (h.completed_step hkey hmove hρ) hsame
        hrestTimely hrest).cons ha

omit [DecidableEq ι] in
theorem once_init {S : Setup ι} {r : Ref} (clock : Instant) {table : Table}
    (transcripts : Int → List Message) (habsent : table r = none) :
    Once S r (.init S clock table transcripts) where
  toDisciplined := disciplined_init ..
  sole := (held_init S clock table transcripts).sole r
  kept := fun _ _ => by simp [World.init]
  timely := fun _ _ => rfl
  unlocked := fun _ _ => rfl
  completes := fun i todo outcome response hphase _ => by
    simp only [World.init] at hphase
    split at hphase <;> cases hphase
  settled := fun _ hk => by cases hk
  answered := fun ρ hρ => by
    obtain ⟨t, hrow⟩ := hρ
    rw [show (World.init S clock table transcripts).table r = none from habsent] at hrow
    cases hrow
  unique := fun _ _ hk => by cases hk
  commits := ⟨Nat.zero_le 1, fun _ => rfl⟩

/-- **When a keyed turn is processed once.** For any number of requests with one user
and `Idempotency-Key`, through either endpoint, and every order of their steps: while
each claim of the key ends before it is stale, and no request that has committed its
turn without learning of it releases the key, at most one turn is committed, by one
request. Once the key is completed, with the reply of that request, every request that
begins is answered with it as soon as it takes a step, and never commits. -/
theorem replayed_once (S : Setup ι) {userId : Int} {key : String} (hcarry : Carries S userId key)
    (clock : Instant) {table : Table} (habsent : table (userId, key) = none)
    (transcripts : Int → List Message) {before after : List (Action ι)} {s w : World ι}
    (hbefore : run (step S) (.init S clock table transcripts) before = some s)
    (hafter : run (step S) s after = some w)
    (hkeeps : Along (step S) (fun w a _ => keepsClaim S w a = true)
      (.init S clock table transcripts) (before ++ after))
    (htimely : Along (step S) (fun _ _ w' => Timely S w') (.init S clock table transcripts)
      (before ++ after)) :
    w.commits.length ≤ 1 ∧ (∀ i j, w.persisted i = true → w.persisted j = true → i = j) ∧
      ∀ ρ, Completed s.table (userId, key) ρ →
        (∃ i todo, w.phase i = .finish todo (.replied ρ) ∧ ∀ k, w.persisted k = true → k = i) ∧
        ∀ j, s.phase j = .lookup →
          Replayed j ρ after (w.phase j) ∧ w.persisted j = false := by
  have hinv : ∀ {as : List (Action ι)} {v v' : World ι}, Once S (userId, key) v →
      Along (step S) (fun w a w' => keepsClaim S w a = true ∧ Timely S w') v as →
      run (step S) v as = some v' → Once S (userId, key) v' ∧
        ∀ ρ, Completed v.table (userId, key) ρ → Completed v'.table (userId, key) ρ := by
    intro as v v' hv hg hrun
    refine ⟨run_invariant (fun w a w' hi hg (hs : step S w a = some w') =>
      once_step hi hcarry.ref hcarry.keyed hg.1 hg.2 (step_moves hs)) hv hg hrun, fun ρ hρ => ?_⟩
    exact (run_invariant (I := fun w => Once S (userId, key) w ∧ Completed w.table (userId, key) ρ)
      (fun w a w' hi hg (hs : step S w a = some w') =>
        ⟨once_step hi.1 hcarry.ref hcarry.keyed hg.1 hg.2 (step_moves hs),
          hi.1.completed_step hcarry.ref (step_moves hs) hi.2⟩) ⟨hv, hρ⟩ hg hrun).2
  obtain ⟨hg, hg'⟩ := along_append_iff.mp (along_and hkeeps htimely)
  obtain ⟨hs, -⟩ := hinv (once_init clock transcripts habsent) hg hbefore
  obtain ⟨hw, hstays⟩ := hinv hs (hg' s hbefore) hafter
  refine ⟨hw.commits.1, hw.unique, fun ρ hρ => ⟨hw.answered ρ (hstays ρ hρ), fun j hj => ?_⟩⟩
  have hreplayed := replayed_run hcarry.ref hcarry.keyed hs hρ hj (hg' s hbefore) hafter
  refine ⟨hreplayed, ?_⟩
  by_contra hp
  -- whoever has committed is the request that replied
  obtain ⟨i, todo, hfinish, honly⟩ := hw.answered ρ (hstays ρ hρ)
  obtain rfl := honly j (by simpa using hp)
  obtain ⟨h, -⟩ | h | ⟨h, -⟩ := hreplayed <;> rw [hfinish] at h <;> cases h

/-- A turn, and its retry as a stream. -/
def retried : Setup Bool where
  request := fun i => ⟨1, 5, if i then .stream else .turn, some "k", "hello"⟩
  owner := fun _ => some 1
  transcriptMaxMessages := 200

/-- The first attempt completes before the retry begins. -/
def firstAttempt : List (Action Bool) :=
  [.lookup false, .claim false 0 0, .acquire false 0 0, .prepare false true, .tick 5000000,
    .generate false (.reply "hi"), .persist false .committed, .finalise false, .finalise false]

theorem replayed_once_retry :
    ∃ s w, run (step retried) (.init retried 0 (fun _ => none) fun _ => []) firstAttempt = some s ∧
      run (step retried) s [.lookup true] = some w ∧ w.commits.length ≤ 1 ∧
      Replayed true "hi" [.lookup true] (w.phase true) ∧ w.persisted true = false := by
  obtain ⟨s, hs, hd⟩ := exists_run_of_check (step retried)
    (.init retried 0 (fun _ => none) fun _ => []) firstAttempt
    (fun s => decide (s.phase true = .lookup ∧ s.table (1, "k") = some ⟨some "hi", 0⟩))
    (by decide +kernel)
  obtain ⟨hphase, hrow⟩ := of_decide_eq_true hd
  have hcarry : Carries retried 1 "k" := fun i => by cases i <;> decide
  have hafter : run (step retried) s [.lookup true] =
      some (s.setPhase true (.finish [] (.cached "hi"))) := by
    have href : retried.ref (true, .key) = (1, "k") := hcarry.ref true
    simp only [run, step, hphase, Idempotency.lookup, href, hrow, Option.bind_some]
  obtain ⟨hcommits, -, hreplayed⟩ := replayed_once retried hcarry 0 rfl
    (fun _ => []) hs hafter (by decide +kernel) (by decide +kernel)
  exact ⟨s, _, hs, hafter, hcommits, (hreplayed "hi" ⟨0, hrow⟩).2 true hphase⟩

/-- The commit of the first attempt is applied and its answer lost: `run_once` releases the key,
and the retry runs. Both attempts end at once, the second one with the completion of the key. -/
def lostCommit : List (Action Bool) :=
  [.lookup false, .claim false 0 0, .acquire false 0 0, .prepare false true,
    .generate false (.reply "hi"), .persist false (.lost false), .finalise false, .finalise false,
    .lookup true, .claim true 0 0, .acquire true 0 0, .prepare true true,
    .generate true (.reply "hi again"), .persist true .committed, .finalise true, .finalise true]

/-- The turn is committed and metered twice. -/
theorem lost_commit_processed_twice :
    Along (step retried) (fun _ _ w' => Timely retried w')
        (.init retried 0 (fun _ => none) fun _ => []) lostCommit ∧
      ∃ w, run (step retried) (.init retried 0 (fun _ => none) fun _ => []) lostCommit = some w ∧
        w.commits = [(5, "hello", "hi"), (5, "hello", "hi again")] ∧
        w.persisted false = true ∧ w.persisted true = true ∧
        w.table (1, "k") = some ⟨some "hi again", 0⟩ := by
  refine ⟨by decide +kernel, ?_⟩
  obtain ⟨w, hw, hd⟩ := exists_run_of_check (step retried)
    (.init retried 0 (fun _ => none) fun _ => []) lostCommit
    (fun w => decide (w.commits = [(5, "hello", "hi"), (5, "hello", "hi again")] ∧
      w.persisted false = true ∧ w.persisted true = true ∧
      w.table (1, "k") = some ⟨some "hi again", 0⟩)) (by decide +kernel)
  exact ⟨w, hw, of_decide_eq_true hd⟩

end Apm.Conversation
