import Apm.Lib.Feed
import Apm.Takes.Marks
import Apm.Takes.Sweep

/-!
# Pending purges

No take is returned to a user whose erasure has failed, until an erasure succeeds. The calls
follow one another, each operation of the storage fails or not, and the app is closed at any
point, also within a call. The mark of a failed erasure is itself written to a storage that
can fail: where it does, nothing remembers the erasure.
-/

namespace Apm.Takes

open Apm.Lib

set_option autoImplicit false

/-! ## The app -/

/-- A call that has returned or thrown, and the user who was signed in when it was made. -/
structure TakeReturn where
  caller : Option Nat
  call : TakeCall
  result : Except Thrown TakeResult

/-- The device, and the calls that have returned, the latest last. -/
structure TakeApp where
  device : Device (Option Nat) Unit
  returns : List TakeReturn

inductive AppEvent (ι : Type) where
  /-- a call, with the answers to its operations: where they run out the app is closed -/
  | call (call : TakeCall) (answers : List ι)
  | restart

variable {ι : Type} (failure : Failure ι) (inner : InnerStore ι (Option Nat) Unit)

def appStep (app : TakeApp) : AppEvent ι → Option TakeApp
  | .restart => some ⟨app.device.restart, app.returns⟩
  | .call call answers =>
    match (takeProgram failure inner.toVoiceTakeStore 0 call).feed answers app.device with
    | (some (result, _), d) => some ⟨d, app.returns ++ [⟨app.device.currentUserId, call, result⟩]⟩
    | (none, d) => some ⟨d.restart, app.returns⟩

/-- An erasure that was called while the user was signed in has failed, and none that
returned later has succeeded. -/
def Tainted (u : Nat) (returns : List TakeReturn) : Prop :=
  ∃ before e after, returns = before ++ ⟨some u, .eraseAll, .error e⟩ :: after ∧
    ∀ r ∈ after, r.call = .eraseAll → ∀ value, r.result ≠ .ok value

/-- No take was returned to a tainted user. -/
def Withheld (returns : List TakeReturn) : Prop :=
  ∀ before u skill caller takes after,
    returns = before ++ ⟨some u, .takesFor skill, .ok (.takes caller takes)⟩ :: after →
    Tainted u before → takes = none

/-! ## What an erasure needs -/

/-- The statements of `eraseAll` in its `try`. -/
def purge : OnDevice ι (Option Nat) Unit Unit := do
  Async.awaiting inner.eraseAll
  Async.awaiting (UserScopedVoiceTakeStore.clearPendingPurges failure)

/-- The answers to the operations of `_addPendingPurge`: the read, unless the set is cached,
and the write. -/
def markAnswers (d : Device (Option Nat) Unit) (answers : List ι) : List ι :=
  match d.pendingPurges with
  | some _ => (answers.drop 1).take 1
  | none => answers.take 1 ++ (answers.drop 2).take 1

/-- Where the erasure fails, the storage reads and writes the marks; and the app is not
closed between the deletion of the marks and the return of the call. -/
structure Remembers (d : Device (Option Nat) Unit) (answers : List ι) : Prop where
  marked : ∀ u e rest t, d.currentUserId = some u →
    (purge failure inner).feed answers d = (some (.error e, rest), t) →
    ∀ answer ∈ markAnswers d rest, failure answer = none
  returned : ∀ rest t, Async.feed (do
      Async.awaiting inner.eraseAll
      UserScopedVoiceTakeStore.clearPendingPurges failure) answers d = (some (.ok (), rest), t) →
    rest ≠ []

/-- An erasure of the step has what it needs. -/
def remembersStep (app : TakeApp) (event : AppEvent ι) (_ : TakeApp) : Prop :=
  ∀ answers, event = .call .eraseAll answers → Remembers failure inner app.device answers

/-! ## Marks -/

/-- The user is marked in the storage, and in memory once the marks have been read. -/
def Marked (u : Nat) (d : Device (Option Nat) Unit) : Prop :=
  u ∈ d.pendingPurgeStorage.getD [] ∧ ∀ cached, d.pendingPurges = some cached → u ∈ cached

variable {u : Nat} {d t : Device (Option Nat) Unit}

theorem Marked.congr (h : t.marks = d.marks) (hd : Marked u d) : Marked u t := by
  obtain ⟨hcache, hstorage⟩ := Prod.mk.inj h
  exact ⟨hstorage ▸ hd.1, fun cached hcached => hd.2 cached (hcache ▸ hcached)⟩

theorem Marked.restart (hd : Marked u d) : Marked u d.restart :=
  ⟨hd.1, fun cached h => by cases h⟩

theorem LeavesMarks.marked {α : Type} {p : OnDevice ι (Option Nat) Unit α} (hp : LeavesMarks p) :
    Async.Preserves (Marked u) (fun _ => True) p :=
  hp _ fun _ _ h hd => hd.congr h

namespace UserScopedVoiceTakeStore

theorem marked_pendingPurges : Async.Preserves (Marked u) (fun pending => u ∈ pending)
    (pendingPurges failure : OnDevice ι (Option Nat) Unit (List Nat)) := by
  refine .bind .get fun d hd => ?_
  cases hcache : d.pendingPurges with
  | some cached => exact .pure (hd.2 cached hcache)
  | none =>
    have hread : Async.Preserves (Marked u) (fun loaded => u ∈ loaded)
        (storage failure fun d => (d.pendingPurgeStorage.getD [], d) :
          OnDevice ι (Option Nat) Unit (List Nat)) := by
      refine .io fun answer s hs => ?_
      split
      · refine ⟨hs, ?_⟩
        rintro loaded ⟨⟩
        exact hs.1
      · exact ⟨hs, fun _ h => by cases h⟩
    refine .bind hread fun loaded hloaded => .bind .get fun d' hd' => ?_
    cases hcache' : d'.pendingPurges with
    | some recheck => exact .pure (hd'.2 recheck hcache')
    | none =>
      refine .bind (.modify fun s hs => ⟨hs.1, ?_⟩) fun _ _ => .pure hloaded
      rintro cached ⟨⟩
      exact hloaded

/-- Who is marked stays so when another user is. -/
theorem marked_addPendingPurge (v : Nat) : Async.Preserves (Marked u) (fun _ => True)
    (addPendingPurge failure v : OnDevice ι (Option Nat) Unit Unit) := by
  refine .bind (.awaiting (marked_pendingPurges failure)) fun current hcurrent => ?_
  have hupdated : u ∈ (if v ∈ current then current else current ++ [v]) := by
    split_ifs
    · exact hcurrent
    · exact List.mem_append_left _ hcurrent
  refine .bind (P := fun _ => True) (.io fun answer s hs => ?_) fun _ _ =>
    .modify fun s hs => ⟨hs.1, ?_⟩
  · split
    · exact ⟨⟨hupdated, hs.2⟩, fun _ _ => trivial⟩
    · exact ⟨hs, fun _ _ => trivial⟩
  · rintro cached ⟨⟩
    exact hupdated

/-- A marked user gets no take. -/
theorem takesFor_withheld (skill : DartString) (hu : d.currentUserId = some u) (hd : Marked u d) :
    Async.PreservesFrom (Marked u) (fun takes => takes = none)
      (takesFor failure inner.toVoiceTakeStore skill) d := by
  simp only [takesFor, requireCurrentUser, Async.get, Async.bind_eq, Async.bind,
    Async.PreservesFrom, hu, Async.pure_eq, id]
  refine Async.Preserves.bind (.awaiting (marked_pendingPurges failure)) (fun pending hpending => ?_)
    d hd
  exact .ite (fun _ => .pure rfl) fun hnot => absurd hpending hnot

theorem marked_requireCurrentUser : LeavesMarks
    (requireCurrentUser : OnDevice ι (Option Nat) Unit Nat) := by
  refine .bind .get fun d => ?_
  cases d.currentUserId with
  | none => exact .throw _
  | some userId => exact .pure userId

theorem marked_takesFor (skill : DartString) : Async.Preserves (Marked u) (fun _ => True)
    (takesFor failure inner.toVoiceTakeStore skill) :=
  .bind (marked_requireCurrentUser.marked) fun _ _ =>
    .bind (.awaiting (marked_pendingPurges failure)) fun _ _ =>
    .ite (fun _ => .pure trivial) fun _ => .awaiting (inner.takesFor_leaves _).marked

end UserScopedVoiceTakeStore

/-- No call but an erasure takes a mark away. -/
theorem marked_takeProgram {call : TakeCall} (hcall : call ≠ .eraseAll) :
    Async.Preserves (Marked u) (fun _ => True)
      (takeProgram failure inner.toVoiceTakeStore 0 call) := by
  cases call with
  | setCurrentUser userId => exact .bind (.modify fun _ hd => hd) fun _ _ => .pure trivial
  | saveTake skill bytes =>
    exact .bind LeavesMarks.get.marked fun _ _ => .bind
      (.bind UserScopedVoiceTakeStore.marked_requireCurrentUser.marked fun _ _ =>
        (inner.saveTake_leaves _ _).marked) fun _ _ => .pure trivial
  | takesFor skill =>
    exact .bind LeavesMarks.get.marked fun _ _ => .bind
      (UserScopedVoiceTakeStore.marked_takesFor failure inner skill) fun _ _ => .pure trivial
  | deleteSkill skill =>
    exact .bind (.bind UserScopedVoiceTakeStore.marked_requireCurrentUser.marked fun _ _ =>
      (inner.deleteSkill_leaves _).marked) fun _ _ => .pure trivial
  | eraseAll => exact absurd rfl hcall

/-! ## An erasure -/

namespace UserScopedVoiceTakeStore

/-- The marks are deleted only where the erasure has succeeded: then the app goes on to
return. -/
theorem purge_marks {answers : List ι} {ended : Async.Fed Thrown ι Unit}
    (hremembers : Remembers failure inner d answers)
    (hfeed : (purge failure inner).feed answers d = (ended, t))
    (hended : ∀ rest, ended ≠ some (.ok (), rest)) : t.marks = d.marks := by
  rw [purge, Async.bind_eq, Async.feed_bind] at hfeed
  have hreturned := hremembers.returned
  simp only [Async.bind_eq, Async.feed_bind] at hreturned
  have hinner := (((LeavesMarks.awaiting inner.eraseAll_leaves) (fun s => s.marks = d.marks)
    fun _ _ h hs => h.trans hs) d rfl).feed answers
  obtain ⟨erased, s, herased⟩ : ∃ erased s,
      (Async.awaiting inner.eraseAll).feed answers d = (erased, s) := ⟨_, _, rfl⟩
  rw [herased] at hfeed hreturned hinner
  rcases erased with _ | ⟨e | _, rest⟩
  · cases hfeed
    exact hinner.1
  · cases hfeed
    exact hinner.1
  · simp only [Async.followed, Async.feed_awaiting, clearPendingPurges, Async.bind_eq,
      Async.feed_bind] at hfeed hreturned
    cases rest with
    | nil =>
      cases hfeed
      exact hinner.1
    | cons answer rest =>
      rw [storage, Async.feed_io] at hfeed hreturned
      cases hfailure : failure answer with
      | some removed =>
        simp only [hfailure] at hfeed
        cases hfeed
        exact hinner.1
      | none =>
        simp only [hfailure, Async.feed_modify] at hfeed hreturned
        cases rest with
        | nil => exact absurd rfl (hreturned [] _ rfl)
        | cons hop rest =>
          cases hfeed
          exact absurd rfl (hended rest)

/-- The set of the marks is read, unless the app is closed. -/
theorem pendingPurges_feed {answers : List ι}
    (hok : ∀ answer ∈ markAnswers d answers, failure answer = none) :
    ((pendingPurges failure).feed answers d = (none, d)) ∨
      ∃ pending rest s, (pendingPurges failure).feed answers d = (some (.ok pending, rest), s) ∧
        ∀ hop write tail, rest = hop :: write :: tail → failure write = none := by
  rw [pendingPurges, Async.bind_eq, Async.feed_bind, Async.feed_get]
  simp only [Async.followed]
  cases hcache : d.pendingPurges with
  | some cached =>
    refine .inr ⟨cached, answers, d, Async.feed_ret cached, ?_⟩
    rintro hop write tail rfl
    exact hok write (by simp [markAnswers, hcache])
  | none =>
    simp only [Async.bind_eq, Async.feed_bind]
    cases answers with
    | nil => exact .inl rfl
    | cons read rest =>
      have hread : failure read = none := hok read (by simp [markAnswers, hcache])
      refine .inr ⟨d.pendingPurgeStorage.getD [], rest,
        { d with pendingPurges := some (d.pendingPurgeStorage.getD []) }, ?_, ?_⟩
      · rw [storage, Async.feed_io]
        simp only [hread, Async.followed, Async.feed_get, hcache, Async.feed_bind,
          Async.feed_modify, Async.pure_eq, Async.feed_ret]
      · rintro hop write tail rfl
        exact hok write (by simp [markAnswers, hcache])

/-- `_addPendingPurge` marks the user, unless the app is closed. -/
theorem addPendingPurge_feed {answers : List ι} (v : Nat)
    (hok : ∀ answer ∈ markAnswers d answers, failure answer = none) :
    ((addPendingPurge failure v).feed answers d).1 = none ∨
      ∃ rest s, (addPendingPurge failure v).feed answers d = (some (.ok (), rest), s) ∧
        Marked v s := by
  rw [addPendingPurge, Async.bind_eq, Async.feed_bind, Async.feed_awaiting]
  obtain hread | ⟨pending, rest, s, hread, hwrite⟩ := pendingPurges_feed failure hok
  · rw [hread]
    exact .inl rfl
  · rw [hread]
    rcases rest with _ | ⟨hop, _ | ⟨write, rest⟩⟩
    · exact .inl rfl
    · exact .inl rfl
    · obtain ⟨updated, hupdated⟩ : ∃ updated, updated = if v ∈ pending then pending
        else pending ++ [v] := ⟨_, rfl⟩
      have hv : v ∈ updated := by
        rw [hupdated]
        split_ifs with h
        · exact h
        · exact List.mem_append_right _ (List.mem_singleton_self v)
      refine .inr ⟨rest, { s with
        pendingPurgeStorage := some updated, pendingPurges := some updated }, ?_, hv, ?_⟩
      · simp only [Async.followed, Async.bind_eq, Async.feed_bind, ← hupdated]
        rw [storage, Async.feed_io]
        simp only [hwrite hop write rest rfl, Async.feed_modify]
      · rintro cached ⟨⟩
        exact hv

/-- An erasure that does not succeed leaves everyone marked who was, and one that fails marks
its user as well. -/
theorem eraseAll_feed {answers : List ι} {ended : Async.Fed Thrown ι Unit}
    (hremembers : Remembers failure inner d answers)
    (hfeed : (eraseAll failure inner.toVoiceTakeStore).feed answers d = (ended, t))
    (hended : ∀ rest, ended ≠ some (.ok (), rest)) :
    (∀ u, Marked u d → Marked u t) ∧
      ∀ u, d.currentUserId = some u → ended ≠ none → Marked u t := by
  rw [eraseAll, Async.bind_eq, Async.feed_bind, Async.feed_get] at hfeed
  replace hfeed := (Async.feed_handle (p := purge failure inner)).symm.trans hfeed
  obtain ⟨purged, s, hpurge⟩ : ∃ purged s, (purge failure inner).feed answers d = (purged, s) :=
    ⟨_, _, rfl⟩
  rw [hpurge] at hfeed
  rcases purged with _ | ⟨e | _, rest⟩
  · cases hfeed
    have hmarks := purge_marks failure inner hremembers hpurge fun _ h => by cases h
    exact ⟨fun u hu => hu.congr hmarks, fun _ _ h => absurd rfl h⟩
  · have hmarks := purge_marks failure inner hremembers hpurge fun _ h => by cases h
    have hcache : s.pendingPurges = d.pendingPurges := congrArg Prod.fst hmarks
    simp only [Async.rescued] at hfeed
    cases huser : d.currentUserId with
    | none =>
      simp only [huser, Async.throw_eq, Async.feed_raise] at hfeed
      cases hfeed
      exact ⟨fun u hu => hu.congr hmarks, fun _ h => by cases h⟩
    | some v =>
      have hok : ∀ answer ∈ markAnswers s rest, failure answer = none := by
        rw [show markAnswers s rest = markAnswers d rest by simp only [markAnswers, hcache]]
        exact hremembers.marked v e rest s huser hpurge
      simp only [huser, Async.throw_eq, Async.bind_eq, Async.feed_bind,
        Async.feed_awaiting] at hfeed
      have hkept : ∀ u, Marked u d → Marked u ((addPendingPurge failure v).feed rest s).2 :=
        fun u hu => ((marked_addPendingPurge failure v) s (hu.congr hmarks) |>.feed rest).1
      obtain hcut | ⟨rest', s', hmarked, hv⟩ := addPendingPurge_feed failure v hok
      · obtain ⟨s', hs'⟩ : ∃ s', (addPendingPurge failure v).feed rest s = (none, s') :=
          ⟨_, Prod.ext hcut rfl⟩
        rw [hs'] at hfeed hkept
        cases hfeed
        exact ⟨hkept, fun _ _ h => absurd rfl h⟩
      · rw [hmarked] at hfeed hkept
        have hu : ∀ u, some v = some u → Marked u s' := by
          rintro u ⟨⟩
          exact hv
        cases rest' with
        | nil =>
          cases hfeed
          exact ⟨hkept, fun _ _ h => absurd rfl h⟩
        | cons hop rest' =>
          simp only [Async.followed, Async.feed_raise] at hfeed
          cases hfeed
          exact ⟨hkept, fun u h _ => hu u h⟩
  · cases hfeed
    exact absurd rfl (hended rest)

end UserScopedVoiceTakeStore

/-! ## Runs of the app -/

theorem tainted_of_append {returns : List TakeReturn} {r : TakeReturn}
    (h : Tainted u (returns ++ [r])) :
    (∃ e, r = ⟨some u, .eraseAll, .error e⟩) ∨
      Tainted u returns ∧ (r.call = .eraseAll → ∀ value, r.result ≠ .ok value) := by
  obtain ⟨before, e, after, hreturns, hafter⟩ := h
  obtain rfl | ⟨after', last, rfl⟩ := after.eq_nil_or_concat
  · exact .inl ⟨e, List.singleton_inj.mp (List.append_inj' hreturns rfl).2⟩
  · rw [List.concat_eq_append, ← List.cons_append, ← List.append_assoc] at hreturns
    obtain ⟨hold, hlast⟩ := List.append_inj' hreturns rfl
    obtain rfl := List.singleton_inj.mp hlast
    rw [List.concat_eq_append] at hafter
    exact .inr ⟨⟨before, e, after', hold, fun x hx => hafter x (List.mem_append_left _ hx)⟩,
      hafter r (List.mem_append_right _ (List.mem_singleton_self r))⟩

theorem Withheld.append {returns : List TakeReturn} {r : TakeReturn} (h : Withheld returns)
    (hr : ∀ u skill caller takes, r = ⟨some u, .takesFor skill, .ok (.takes caller takes)⟩ →
      Tainted u returns → takes = none) : Withheld (returns ++ [r]) := by
  intro before u skill caller takes after hreturns htainted
  obtain rfl | ⟨after', last, rfl⟩ := after.eq_nil_or_concat
  · obtain ⟨rfl, hlast⟩ := List.append_inj' hreturns rfl
    exact hr u skill caller takes (List.singleton_inj.mp hlast) htainted
  · rw [List.concat_eq_append, ← List.cons_append, ← List.append_assoc] at hreturns
    exact h before u skill caller takes after' (List.append_inj' hreturns rfl).1 htainted

/-- Every tainted user is marked, and no tainted user got a take. -/
structure TaintsMarked (app : TakeApp) : Prop where
  marked : ∀ u, Tainted u app.returns → Marked u app.device
  withheld : Withheld app.returns

variable {failure inner}

theorem TaintsMarked.call {app : TakeApp} (h : TaintsMarked app) {call : TakeCall} {answers : List ι}
    {result : Except Thrown TakeResult} {rest : List ι}
    (hfeed : (takeProgram failure inner.toVoiceTakeStore 0 call).feed answers app.device =
      (some (result, rest), d)) (hcall : call ≠ .eraseAll) :
    TaintsMarked ⟨d, app.returns ++ [⟨app.device.currentUserId, call, result⟩]⟩ := by
  refine ⟨fun u htainted => ?_, h.withheld.append ?_⟩
  · obtain ⟨e, hr⟩ | ⟨hold, -⟩ := tainted_of_append htainted
    · exact absurd (congrArg TakeReturn.call hr) hcall
    · have hkept := (marked_takeProgram failure inner hcall _ (h.marked u hold)).feed answers
      rw [hfeed] at hkept
      exact hkept.1
  · intro u skill caller takes hr htainted
    obtain ⟨hu, rfl, rfl⟩ := TakeReturn.mk.inj hr
    have hnone := (UserScopedVoiceTakeStore.takesFor_withheld failure inner skill hu
      (h.marked u htainted)).feed answers
    simp only [takeProgram, Async.bind_eq, Async.feed_bind, Async.feed_get, Async.followed] at hfeed
    obtain ⟨got, s, hgot⟩ : ∃ got s, (UserScopedVoiceTakeStore.takesFor failure
      inner.toVoiceTakeStore skill).feed answers app.device = (got, s) := ⟨_, _, rfl⟩
    rw [hgot] at hfeed hnone
    rcases got with _ | ⟨e | found, left⟩
    · cases hfeed
    · cases hfeed
    · simp only [Async.pure_eq, Async.feed_ret] at hfeed
      cases hfeed
      exact hnone.2 _ _ rfl

theorem TaintsMarked.eraseAll {app : TakeApp} (h : TaintsMarked app) {answers : List ι}
    {result : Except Thrown TakeResult} {rest : List ι}
    (hremembers : Remembers failure inner app.device answers)
    (hfeed : (takeProgram failure inner.toVoiceTakeStore 0 .eraseAll).feed answers app.device =
      (some (result, rest), d)) :
    TaintsMarked ⟨d, app.returns ++ [⟨app.device.currentUserId, .eraseAll, result⟩]⟩ := by
  refine ⟨fun u htainted => ?_, h.withheld.append ?_⟩
  · simp only [takeProgram, Async.bind_eq, Async.feed_bind] at hfeed
    obtain ⟨ended, s, hended⟩ : ∃ ended s, (UserScopedVoiceTakeStore.eraseAll failure
      inner.toVoiceTakeStore).feed answers app.device = (ended, s) := ⟨_, _, rfl⟩
    rw [hended] at hfeed
    rcases ended with _ | ⟨e | _, left⟩
    · cases hfeed
    · cases hfeed
      obtain ⟨hkept, hmarked⟩ := UserScopedVoiceTakeStore.eraseAll_feed failure inner hremembers
        hended fun _ h => by cases h
      obtain ⟨e', hr⟩ | ⟨hold, -⟩ := tainted_of_append htainted
      · exact hmarked u (congrArg TakeReturn.caller hr) (Option.some_ne_none _)
      · exact hkept u (h.marked u hold)
    · simp only [Async.followed, Async.pure_eq, Async.feed_ret] at hfeed
      cases hfeed
      -- the taint has ended
      obtain ⟨e', hr⟩ | ⟨-, hnot⟩ := tainted_of_append htainted
      · cases congrArg TakeReturn.result hr
      · exact absurd rfl (hnot rfl .done)
  · intro u skill caller takes hr
    cases congrArg TakeReturn.call hr

/-- A call that was cut off leaves everyone marked who was. -/
theorem marked_of_cut {app : TakeApp} {call : TakeCall} {answers : List ι}
    (hremembers : call = .eraseAll → Remembers failure inner app.device answers)
    (hfeed : (takeProgram failure inner.toVoiceTakeStore 0 call).feed answers app.device = (none, d))
    (hu : Marked u app.device) : Marked u d := by
  by_cases hcall : call = .eraseAll
  · subst hcall
    simp only [takeProgram, Async.bind_eq, Async.feed_bind] at hfeed
    obtain ⟨ended, s, hended⟩ : ∃ ended s, (UserScopedVoiceTakeStore.eraseAll failure
      inner.toVoiceTakeStore).feed answers app.device = (ended, s) := ⟨_, _, rfl⟩
    rw [hended] at hfeed
    rcases ended with _ | ⟨e | _, left⟩
    · cases hfeed
      exact (UserScopedVoiceTakeStore.eraseAll_feed failure inner (hremembers rfl) hended
        fun _ h => by cases h).1 u hu
    · cases hfeed
    · simp only [Async.followed, Async.pure_eq, Async.feed_ret] at hfeed
      cases hfeed
  · have hkept := (marked_takeProgram failure inner hcall _ hu).feed answers
    rw [hfeed] at hkept
    exact hkept.1

theorem TaintsMarked.step {app app' : TakeApp} {event : AppEvent ι} (h : TaintsMarked app)
    (hremembers : remembersStep failure inner app event app')
    (hstep : appStep failure inner app event = some app') : TaintsMarked app' := by
  cases event with
  | restart =>
    cases hstep
    exact ⟨fun u htainted => (h.marked u htainted).restart, h.withheld⟩
  | call call answers =>
    obtain ⟨ended, d, hfeed⟩ : ∃ ended d, (takeProgram failure inner.toVoiceTakeStore 0 call).feed
      answers app.device = (ended, d) := ⟨_, _, rfl⟩
    have heraseAll : call = .eraseAll → Remembers failure inner app.device answers := by
      rintro rfl
      exact hremembers answers rfl
    simp only [appStep, hfeed] at hstep
    rcases ended with _ | ⟨result, rest⟩
    · cases hstep
      exact ⟨fun u htainted => (marked_of_cut heraseAll hfeed (h.marked u htainted)).restart,
        h.withheld⟩
    · cases hstep
      by_cases hcall : call = .eraseAll
      · subst hcall
        exact h.eraseAll (heraseAll rfl) hfeed
      · exact h.call hfeed hcall

/-- A device on which the app has been installed. -/
def TakeApp.fresh : TakeApp := ⟨Device.fresh (), []⟩

/-- **A failed erasure is remembered.** In every run of the app, over every store below,
whoever is signed in, whatever fails and wherever the app is closed, no take is returned to a
user whose erasure has failed, until an erasure succeeds: provided that each erasure can mark
its user where it fails, and is not cut off between the deletion of the marks and its return. -/
theorem takesFor_withheld_while_tainted (failure : Failure ι)
    (inner : InnerStore ι (Option Nat) Unit) {events : List (AppEvent ι)} {app : TakeApp}
    (hremembers : Along (appStep failure inner) (remembersStep failure inner) .fresh events)
    (hrun : run (appStep failure inner) .fresh events = some app) : Withheld app.returns := by
  have hfresh : TaintsMarked TakeApp.fresh := by
    refine ⟨fun u htainted => ?_, fun before u skill caller takes after hreturns => ?_⟩
    · obtain ⟨before, e, after, hreturns, -⟩ := htainted
      exact absurd hreturns (by simp [TakeApp.fresh])
    · exact absurd hreturns (by simp [TakeApp.fresh])
  have hstep : ∀ a event a', TaintsMarked a → remembersStep failure inner a event a' →
      appStep failure inner a event = some a' → TaintsMarked a' := fun _ _ _ h hg hs => h.step hg hs
  exact (run_invariant hstep hfresh hremembers hrun).withheld

/-- An answer that is `true` is a failure. -/
def failsOn : Failure Bool := fun fails => if fails then some [] else none

/-- User 7 saves two takes, the erasure fails, and user 7 asks for the takes before and after a
new start of the app. `lost` is the answer to the write of the mark. -/
def failedErasure (lost : Bool) : List (AppEvent Bool) :=
  [.call (.setCurrentUser (some 7)) [], .call (.saveTake [97] [1]) [false, false, false],
    .call (.saveTake [97] [2]) [false, false],
    .call .eraseAll [true, false, false, lost, false],
    .call (.takesFor [97]) [false, false, false, false], .restart,
    .call (.setCurrentUser (some 7)) [],
    .call (.takesFor [97]) [false, false, false, false]]

theorem takesFor_withheld_failed_erasure :
    ∃ app, run (appStep failsOn (kvInnerStore failsOn)) .fresh (failedErasure false) = some app ∧
      Withheld app.returns := by
  have hother : ∀ (app app' : TakeApp) (event : AppEvent Bool),
      (∀ answers, event ≠ .call .eraseAll answers) →
      remembersStep failsOn (kvInnerStore failsOn) app event app' :=
    fun _ _ _ hne answers h => absurd h (hne answers)
  have hremembers : Along (appStep failsOn (kvInnerStore failsOn))
      (remembersStep failsOn (kvInnerStore failsOn)) .fresh (failedErasure false) := by
    rw [failedErasure]
    iterate 3 rw [along_cons_of_step rfl]; refine ⟨hother _ _ _ (fun _ h => by cases h), ?_⟩
    rw [along_cons_of_step rfl]
    constructor
    · rintro answers ⟨⟩
      constructor
      · rintro u e rest t - hfeed
        cases hfeed
        decide
      · rintro rest t hfeed
        cases hfeed
    · iterate 4 rw [along_cons_of_step rfl]; refine ⟨hother _ _ _ (fun _ h => by cases h), ?_⟩
      exact along_nil _
  exact ⟨_, rfl, takesFor_withheld_while_tainted failsOn (kvInnerStore failsOn) hremembers rfl⟩

/-- The write of the mark fails as well, and both takes are returned. -/
theorem lost_mark_returns_takes :
    ∃ app, run (appStep failsOn (kvInnerStore failsOn)) .fresh (failedErasure true) = some app ∧
      ¬ Withheld app.returns := by
  refine ⟨_, rfl, fun h => ?_⟩
  have hnone := h [_, _, _, _] 7 [97] _ _ _ rfl
    ⟨[_, _, _], _, [], rfl, fun r hr => by cases hr⟩
  cases hnone

end Apm.Takes
