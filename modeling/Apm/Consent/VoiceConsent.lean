import Apm.Api.BodyLimit
import Apm.Lib.Calls
import Apm.Lib.History
import Apm.Lib.Run
import Apm.Lib.Table
import Apm.Lib.UnitOfWork

/-!
# Voice consent

A user's consents are one row, made with protective defaults on the first touch. A `PUT` names
the consents it changes; its flush writes those that differ from what it loaded, so that two
requests of one user may interleave between the load and the flush. The three endpoints that take
a recording read the row before they touch the body.
-/

namespace Apm.Consent

open Apm.Api Apm.Lib

set_option autoImplicit false

/-! ## The row -/

/-- `CONSENT_FIELDS`. -/
inductive ConsentField where
  | transcription
  | scoring
  | b2bShare
  | modelTraining
  deriving DecidableEq, Repr

namespace ConsentField

def all : List ConsentField := [.transcription, .scoring, .b2bShare, .modelTraining]

def name : ConsentField → String
  | .transcription => "transcription"
  | .scoring => "scoring"
  | .b2bShare => "b2b_share"
  | .modelTraining => "model_training"

/-- The `server_default` of the column. -/
def default : ConsentField → Bool
  | .transcription => true
  | .scoring => false
  | .b2bShare => false
  | .modelTraining => false

end ConsentField

/-- A row of `voice_consents`. -/
structure VoiceConsent where
  userId : Int
  transcription : Bool
  scoring : Bool
  b2bShare : Bool
  modelTraining : Bool
  deriving DecidableEq, Repr

namespace VoiceConsent

/-- The row that an insert of `user_id` alone makes. -/
def new (userId : Int) : VoiceConsent :=
  ⟨userId, ConsentField.transcription.default, ConsentField.scoring.default,
    ConsentField.b2bShare.default, ConsentField.modelTraining.default⟩

/-- `getattr`. -/
def flag (c : VoiceConsent) : ConsentField → Bool
  | .transcription => c.transcription
  | .scoring => c.scoring
  | .b2bShare => c.b2bShare
  | .modelTraining => c.modelTraining

/-- `setattr`. -/
def set (c : VoiceConsent) (f : ConsentField) (value : Bool) : VoiceConsent :=
  match f with
  | .transcription => { c with transcription := value }
  | .scoring => { c with scoring := value }
  | .b2bShare => { c with b2bShare := value }
  | .modelTraining => { c with modelTraining := value }

end VoiceConsent

/-- `voice_consents`, with its unique column. -/
abbrev Consents := Table VoiceConsent.userId

/-! ## The repository and the service -/

/-- `get_by_user_id`. -/
def getByUserId (consents : Consents) (userId : Int) : Option VoiceConsent := consents.get userId

/-- `INSERT ... ON CONFLICT DO NOTHING`, and its commit. -/
def touch (consents : Consents) (userId : Int) : Consents :=
  (consents.insert (.new userId)).getD consents

/-- The changes of a request body: `None` is an explicit null. -/
abbrev Changes := List (String × Option Bool)

/-- `bool(value)`. -/
def truthy (value : Option Bool) : Bool := value.getD false

structure UnknownField where
  field : String
  deriving DecidableEq, Repr

/-- The loop of `update`, on the row of the session. -/
def applyChanges : VoiceConsent → Changes → Except UnknownField VoiceConsent
  | consent, [] => .ok consent
  | consent, (field, value) :: rest =>
    match ConsentField.all.find? fun f => f.name = field with
    | none => .error ⟨field⟩
    | some f => applyChanges (consent.set f (truthy value)) rest

/-- The columns a flush writes: those whose value is not the one that was loaded. -/
def dirty (loaded mutated : VoiceConsent) : List (ConsentField × Bool) :=
  (ConsentField.all.filter fun f => mutated.flag f ≠ loaded.flag f).map fun f => (f, mutated.flag f)

/-- `UPDATE` of the columns that changed. -/
def flush (consents : Consents) (loaded mutated : VoiceConsent) : Consents :=
  consents.update (fun r => r.userId = loaded.userId)
    (fun r => { r with
      transcription := writeColumn loaded.transcription mutated.transcription r.transcription
      scoring := writeColumn loaded.scoring mutated.scoring r.scoring
      b2bShare := writeColumn loaded.b2bShare mutated.b2bShare r.b2bShare
      modelTraining := writeColumn loaded.modelTraining mutated.modelTraining r.modelTraining })
    fun _ => rfl

/-- `transcription_and_scoring`. -/
def transcriptionAndScoring (consents : Consents) (userId : Int) : Bool × Bool :=
  match getByUserId consents userId with
  | none => (true, false)
  | some consent => (consent.transcription, consent.scoring)

/-! ### What the statements do to one consent -/

variable {consents : Consents} {loaded mutated c : VoiceConsent} {changes : Changes}
  {f f' : ConsentField} {u u' : Int}

theorem flag_set {value : Bool} : (c.set f value).flag f' = if f' = f then value else c.flag f' := by
  cases f <;> cases f' <;> rfl

@[simp] theorem userId_set {value : Bool} : (c.set f value).userId = c.userId := by cases f <;> rfl

@[simp] theorem flag_new : (VoiceConsent.new u).flag f = f.default := by cases f <;> rfl

/-- A consent the changes leave different is one that they name. -/
theorem flag_applyChanges (h : applyChanges c changes = .ok mutated) :
    mutated.userId = c.userId ∧ ∀ f, mutated.flag f = c.flag f ∨
      ∃ value, (f.name, value) ∈ changes ∧ truthy value = mutated.flag f := by
  induction changes generalizing c with
  | nil =>
    obtain rfl := Except.ok.inj h
    exact ⟨rfl, fun _ => .inl rfl⟩
  | cons e rest ih =>
    obtain ⟨field, value⟩ := e
    rw [applyChanges] at h
    split at h
    · exact nomatch h
    · rename_i g hg
      have hname : g.name = field := by simpa using List.find?_some hg
      obtain ⟨huser, hflag⟩ := ih h
      refine ⟨huser.trans userId_set, fun f => ?_⟩
      rcases hflag f with hkept | ⟨later, hmem, hlater⟩
      · rw [hkept, flag_set]
        split
        · rename_i hf
          exact .inr ⟨value, by rw [hf, hname]; exact List.mem_cons_self, rfl⟩
        · exact .inl rfl
      · exact .inr ⟨later, List.mem_cons_of_mem _ hmem, hlater⟩

theorem get_touch : (touch consents u).get u' =
    if u = u' then some ((consents.get u).getD (.new u)) else consents.get u' := by
  rw [touch]
  cases h : consents.insert (.new u) with
  | some consents' =>
    have hfresh : consents.get u = none := Table.insert_fresh h
    rw [Option.getD_some, Table.get_insert h, hfresh, Option.getD_none]
    exact if_congr eq_comm rfl rfl
  | none =>
    have hmem : u ∈ consents.keys := by
      by_contra hnot
      have hsome : consents.insert (.new u) = some _ := dif_neg hnot
      exact nomatch h.symm.trans hsome
    obtain ⟨row, hrow⟩ := Table.mem_keys_iff.mp hmem
    rw [Option.getD_none, hrow, Option.getD_some]
    split
    · rename_i hu
      rw [← hu, hrow]
    · rfl

theorem get_flush : (flush consents loaded mutated).get u =
    if u = loaded.userId then (consents.get u).map fun r => { r with
      transcription := writeColumn loaded.transcription mutated.transcription r.transcription
      scoring := writeColumn loaded.scoring mutated.scoring r.scoring
      b2bShare := writeColumn loaded.b2bShare mutated.b2bShare r.b2bShare
      modelTraining := writeColumn loaded.modelTraining mutated.modelTraining r.modelTraining }
    else consents.get u := by
  rw [flush, Table.get_update]
  cases h : consents.get u with
  | none => split <;> rfl
  | some row =>
    have hkey : row.userId = u := Table.key_of_get h
    simp only [Option.map_some, decide_eq_true_iff, hkey]
    split <;> rfl

/-- The consent that a reader finds: without a row, the default. -/
def consentOf (consents : Consents) (u : Int) (f : ConsentField) : Bool :=
  ((consents.get u).getD (.new u)).flag f

theorem consentOf_touch : consentOf (touch consents u) u' f = consentOf consents u' f := by
  rw [consentOf, get_touch]
  split
  · rename_i h
    rw [h]
    rfl
  · rfl

/-- A consent after a flush: it is written unless its value is the one that was loaded. -/
theorem consentOf_flush (h : (consents.get loaded.userId).isSome) :
    consentOf (flush consents loaded mutated) u f =
      if u = loaded.userId then writeColumn (loaded.flag f) (mutated.flag f) (consentOf consents u f)
      else consentOf consents u f := by
  rw [consentOf, get_flush]
  split
  · rename_i hu
    obtain ⟨row, hrow⟩ := Option.isSome_iff_exists.mp h
    rw [consentOf, hu, hrow]
    cases f <;> rfl
  · rfl

theorem transcriptionAndScoring_eq : transcriptionAndScoring consents u =
    (consentOf consents u .transcription, consentOf consents u .scoring) := by
  rw [transcriptionAndScoring, getByUserId, consentOf, consentOf]
  cases consents.get u <;> rfl

theorem mem_dirty {value : Bool} : (f, value) ∈ dirty loaded mutated ↔
    mutated.flag f ≠ loaded.flag f ∧ value = mutated.flag f := by
  simp only [dirty, List.mem_map, List.mem_filter, decide_eq_true_iff, Prod.mk.injEq]
  constructor
  · rintro ⟨g, ⟨-, hg⟩, rfl, rfl⟩
    exact ⟨hg, rfl⟩
  · rintro ⟨hf, rfl⟩
    exact ⟨f, ⟨by cases f <;> decide, hf⟩, rfl, rfl⟩

/-- The columns that an update of `userId` writes. -/
def writes (userId : Int) (loaded mutated : VoiceConsent) : List ((Int × ConsentField) × Bool) :=
  (dirty loaded mutated).map fun e => ((userId, e.1), e.2)

theorem mem_writes {value : Bool} : ((u', f), value) ∈ writes u loaded mutated ↔
    u' = u ∧ mutated.flag f ≠ loaded.flag f ∧ value = mutated.flag f := by
  simp only [writes, List.mem_map, Prod.exists, Prod.mk.injEq, mem_dirty]
  constructor
  · rintro ⟨g, v, ⟨hg, rfl⟩, ⟨rfl, rfl⟩, rfl⟩
    exact ⟨rfl, hg, rfl⟩
  · rintro ⟨rfl, hf, rfl⟩
    exact ⟨f, _, ⟨hf, rfl⟩, ⟨rfl, rfl⟩, rfl⟩

theorem lastValue_writes : lastValue (writes u loaded mutated) (u', f) =
    if u' = u ∧ mutated.flag f ≠ loaded.flag f then some (mutated.flag f) else none := by
  split
  · rename_i h
    exact lastValue_eq_some_of_unique (mem_writes.mpr ⟨h.1, h.2, rfl⟩)
      fun v' hv' => (mem_writes.mp hv').2.2
  · rename_i h
    refine lastValue_eq_none_iff.mpr fun v hv => h ?_
    obtain ⟨hu, hf, -⟩ := mem_writes.mp hv
    exact ⟨hu, hf⟩

/-! ## The endpoints that take a recording -/

inductive Endpoint where
  | transcribe
  | shadowingAttempt
  | minimalPairsAttempt
  deriving DecidableEq, Repr

/-- `MAX_TARGET_TEXT_CHARS`. -/
def maxTargetTextChars : Nat := 300

/-- `MAX_WORD_CHARS`. -/
def maxWordChars : Nat := 50

/-- Whether a text field is there, not empty and not too long. -/
def goodField (maxChars : Nat) (upload : Upload) (name : String) : Bool :=
  match upload.get name with
  | none => false
  | some value => value ≠ "" && value.length ≤ maxChars

/-- The fields an endpoint requires beside the audio. -/
def Endpoint.goodFields (upload : Upload) : Endpoint → Bool
  | .transcribe => true
  | .shadowingAttempt => goodField maxTargetTextChars upload "target_text"
  | .minimalPairsAttempt =>
    goodField maxWordChars upload "target" && goodField maxWordChars upload "other"

/-- Whether an endpoint asks for the phonemes of the recording. -/
def Endpoint.scores (allowScore : Bool) : Endpoint → Bool
  | .shadowingAttempt => allowScore
  | _ => false

/-! ## The requests -/

/-- A request that takes a recording, as the server receives it. -/
structure Recording where
  endpoint : Endpoint
  contentLength : Option String
  messages : List Message
  deriving DecidableEq, Repr

inductive Request where
  | get (userId : Int)
  | put (userId : Int) (changes : Changes)
  | record (userId : Int) (recording : Recording)
  deriving DecidableEq, Repr

/-- What the deployment fixes: the multipart parser and the bounds. -/
structure Setup (σ : Type) where
  parser : MultiPartParser σ
  maxUploadBytes : Nat
  maxRequestBodyBytes : Nat
  /-- whether a pronunciation engine is configured -/
  pronunciation : Bool

inductive Phase where
  | arrived
  /-- the row is there -/
  | touched
  /-- the row as it was loaded, and with its changes -/
  | staged (loaded mutated : VoiceConsent)
  | committed
  /-- the rate limiter has let the recording pass -/
  | admitted
  /-- the consents have been read -/
  | consented (allowScore : Bool)
  | parsed (allowScore : Bool) (upload : Upload)
  | answered (consent : Option VoiceConsent)
  | failed
  deriving DecidableEq, Repr

/-- A request, and how many columns had been written when it came. -/
structure Arrival where
  request : Request
  began : Nat
  deriving DecidableEq, Repr

/-- What has been done with the recording of a request. -/
inductive Use where
  | body (i : Nat)
  | transcription (i : Nat) (audio : Bytes)
  | phonemes (i : Nat) (audio : Bytes)
  deriving DecidableEq, Repr

/-- The table, the requests, and two records: the columns written by committed updates, in their
order, and the uses of recordings. -/
structure World where
  consents : Consents
  calls : List (Call Arrival Phase)
  written : List ((Int × ConsentField) × Bool)
  uses : List Use

def World.init : World := ⟨Table.empty _, [], [], []⟩

def World.setPhase (w : World) (i : Nat) (phase : Phase) : World :=
  { w with calls := Call.setPhase w.calls i phase }

inductive Event where
  | arrive (request : Request)
  | limit (i : Nat)
  | touch (i : Nat)
  | select (i : Nat)
  | commit (i : Nat)
  | refresh (i : Nat)
  | readConsent (i : Nat)
  | parse (i : Nat)
  | score (i : Nat)
  /-- a refusal, an error or a cancellation, at any point -/
  | fail (i : Nat)
  deriving DecidableEq, Repr

variable {σ : Type} (S : Setup σ)

/-- What the multipart parser makes of a request behind the middleware. -/
def parseRecording (r : Recording) : Next σ (Except UploadError Upload) :=
  (limited S.maxRequestBodyBytes (parseBoundedMultipart S.parser "audio" S.maxUploadBytes) 0
    (startBoundedMultipart S.parser "audio" S.maxUploadBytes r.contentLength) r.messages).next

def step (w : World) : Event → Option World
  | .arrive request => some { w with calls := w.calls ++ [⟨⟨request, w.written.length⟩, .arrived⟩] }
  | .limit i =>
    match w.calls[i]? with
    | some ⟨⟨.record _ _, _⟩, .arrived⟩ => some (w.setPhase i .admitted)
    | _ => none
  | .touch i =>
    match w.calls[i]? with
    | some ⟨⟨.get userId, _⟩, .arrived⟩ =>
      some { w.setPhase i .touched with consents := touch w.consents userId }
    | some ⟨⟨.put userId _, _⟩, .arrived⟩ =>
      some { w.setPhase i .touched with consents := touch w.consents userId }
    | _ => none
  | .select i =>
    match w.calls[i]? with
    | some ⟨⟨.get userId, _⟩, .touched⟩ =>
      -- `assert row is not None`
      match getByUserId w.consents userId with
      | none => some (w.setPhase i .failed)
      | some row => some (w.setPhase i (.answered (some row)))
    | some ⟨⟨.put userId changes, _⟩, .touched⟩ =>
      match getByUserId w.consents userId with
      | none => some (w.setPhase i .failed)
      | some row =>
        match applyChanges row changes with
        | .error _ => some (w.setPhase i .failed)
        | .ok mutated => some (w.setPhase i (.staged row mutated))
    | _ => none
  | .commit i =>
    match w.calls[i]? with
    | some ⟨⟨.put userId _, _⟩, .staged loaded mutated⟩ =>
      -- an update that finds no row fails
      match getByUserId w.consents loaded.userId with
      | none => some (w.setPhase i .failed)
      | some _ =>
        some { w.setPhase i .committed with
          consents := flush w.consents loaded mutated
          written := w.written ++ writes userId loaded mutated }
    | _ => none
  | .refresh i =>
    match w.calls[i]? with
    | some ⟨⟨.put userId _, _⟩, .committed⟩ =>
      some (w.setPhase i (.answered (getByUserId w.consents userId)))
    | _ => none
  | .readConsent i =>
    match w.calls[i]? with
    | some ⟨⟨.record userId r, _⟩, .admitted⟩ =>
      match transcriptionAndScoring w.consents userId with
      | (false, _) => some (w.setPhase i .failed)
      | (true, scoring) => some (w.setPhase i (.consented (r.endpoint.scores scoring)))
    | _ => none
  | .parse i =>
    match w.calls[i]? with
    | some ⟨⟨.record _ r, _⟩, .consented allowScore⟩ =>
      let w := { w with uses := w.uses ++ [.body i] }
      match parseRecording S r with
      -- the client has sent no further message yet
      | .receive _ => some w
      | .done (.error _) => some (w.setPhase i .failed)
      | .done (.ok upload) =>
        if r.endpoint.goodFields upload then some (w.setPhase i (.parsed allowScore upload))
        else some (w.setPhase i .failed)
    | _ => none
  | .score i =>
    match w.calls[i]? with
    | some ⟨⟨.record _ _, _⟩, .parsed allowScore upload⟩ =>
      -- silence is answered without a provider
      if upload.data = [] then some (w.setPhase i (.answered none))
      else some { w.setPhase i (.answered none) with
        uses := w.uses ++ .transcription i upload.data ::
          if allowScore && S.pronunciation then [.phonemes i upload.data] else [] }
    | _ => none
  | .fail i => w.calls[i]?.map fun _ => w.setPhase i .failed

/-! ## What every run keeps -/

/-- The consent a history of writes leaves. -/
def said (written : List ((Int × ConsentField) × Bool)) (u : Int) (f : ConsentField) : Bool :=
  (lastValue written (u, f)).getD f.default

/-- Since the request came there was a moment at which its user's consent stood. -/
def Allowed (written : List ((Int × ConsentField) × Bool)) (a : Arrival) (allowScore : Bool) : Prop :=
  ∃ u r k, a.request = .record u r ∧ a.began ≤ k ∧ k ≤ written.length ∧
    said (written.take k) u .transcription = true ∧
    (allowScore = true →
      r.endpoint = .shadowingAttempt ∧ said (written.take k) u .scoring = true)

def PhaseOk (written : List ((Int × ConsentField) × Bool)) (a : Arrival) : Phase → Prop
  | .staged loaded mutated =>
    ∃ u changes, a.request = .put u changes ∧ loaded.userId = u ∧
      applyChanges loaded changes = .ok mutated
  | .consented allowScore => Allowed written a allowScore
  | .parsed allowScore upload =>
    Allowed written a allowScore ∧ upload.data.length ≤ S.maxUploadBytes
  | _ => True

namespace Use

def call : Use → Nat
  | .body i => i
  | .transcription i _ => i
  | .phonemes i _ => i

def audio : Use → Option Bytes
  | .body _ => none
  | .transcription _ audio => some audio
  | .phonemes _ audio => some audio

/-- Whether the use needs the consent to be scored. -/
def scores : Use → Bool
  | .phonemes .. => true
  | _ => false

end Use

def UseOk (args : List Arrival) (written : List ((Int × ConsentField) × Bool)) (use : Use) : Prop :=
  ∃ a, args[use.call]? = some a ∧ Allowed written a use.scores ∧
    ∀ audio, use.audio = some audio → audio ≠ [] ∧ audio.length ≤ S.maxUploadBytes

/-- A write was named by an update of its user. -/
def Named (args : List Arrival) (e : (Int × ConsentField) × Bool) : Prop :=
  ∃ changes began value, ⟨.put e.1.1 changes, began⟩ ∈ args ∧ (e.1.2.name, value) ∈ changes ∧
    truthy value = e.2

structure Inv (w : World) : Prop where
  current : ∀ u f, consentOf w.consents u f = said w.written u f
  named : ∀ e ∈ w.written, Named (w.calls.map Call.arg) e
  began : ∀ a ∈ w.calls.map Call.arg, a.began ≤ w.written.length
  phases : ∀ c ∈ w.calls, PhaseOk S w.written c.arg c.phase
  uses : ∀ use ∈ w.uses, UseOk S (w.calls.map Call.arg) w.written use

variable {S} {w w' : World} {written more : List ((Int × ConsentField) × Bool)} {a : Arrival}
  {allowScore : Bool} {i : Nat}

theorem Allowed.append (h : Allowed written a allowScore) : Allowed (written ++ more) a allowScore := by
  obtain ⟨u, r, k, hr, hbegan, hk, hsaid⟩ := h
  refine ⟨u, r, k, hr, hbegan, ?_, ?_⟩
  · rw [List.length_append]
    omega
  · rwa [List.take_append_of_le_length hk]

theorem PhaseOk.append {phase : Phase} (h : PhaseOk S written a phase) :
    PhaseOk S (written ++ more) a phase := by
  cases phase with
  | staged loaded mutated => exact h
  | consented allowScore => exact Allowed.append h
  | parsed allowScore upload => exact ⟨Allowed.append h.1, h.2⟩
  | _ => trivial

theorem UseOk.append {args : List Arrival} {use : Use} (h : UseOk S args written use) :
    UseOk S args (written ++ more) use := by
  obtain ⟨a, ha, hallowed, haudio⟩ := h
  exact ⟨a, ha, hallowed.append, haudio⟩

theorem UseOk.later {args later : List Arrival} {use : Use} (h : UseOk S args written use) :
    UseOk S (args ++ later) written use := by
  obtain ⟨a, ha, hused⟩ := h
  have hin := (List.getElem?_eq_some_iff.mp ha).1
  exact ⟨a, (List.getElem?_append_left hin).trans ha, hused⟩

/-- What may be scored may be heard. -/
theorem Allowed.weaken (h : Allowed written a allowScore) : Allowed written a false := by
  obtain ⟨u, r, k, hr, hbegan, hk, hsaid, -⟩ := h
  exact ⟨u, r, k, hr, hbegan, hk, hsaid, nofun⟩

/-- A request moves to where it is in order; the row may have been touched. -/
theorem inv_setPhase {phase : Phase} {consents : Consents} (hw : Inv S w)
    (hconsents : ∀ u f, consentOf consents u f = consentOf w.consents u f)
    (hi : ∀ c, w.calls[i]? = some c → PhaseOk S w.written c.arg phase) :
    Inv S { w.setPhase i phase with consents := consents } := by
  have hargs : (w.setPhase i phase).calls.map Call.arg = w.calls.map Call.arg := Call.map_arg_setPhase
  exact ⟨fun u f => (hconsents u f).trans (hw.current u f), hargs ▸ hw.named, hargs ▸ hw.began,
    Call.forall_setPhase hw.phases hi, hargs ▸ hw.uses⟩

theorem inv_failed (hw : Inv S w) : Inv S (w.setPhase i .failed) :=
  inv_setPhase hw (fun _ _ => rfl) fun _ _ => trivial

/-- The recording of a request is used where it is in order. -/
theorem inv_use {used : List Use} (hw : Inv S w)
    (hused : ∀ use ∈ used, UseOk S (w.calls.map Call.arg) w.written use) :
    Inv S { w with uses := w.uses ++ used } := by
  refine ⟨hw.current, hw.named, hw.began, hw.phases, fun use huse => ?_⟩
  rcases List.mem_append.mp huse with h | h
  · exact hw.uses use h
  · exact hused use h

theorem arg_of_call {c : Call Arrival Phase} (h : w.calls[i]? = some c) :
    (w.calls.map Call.arg)[i]? = some c.arg := by
  rw [List.getElem?_map, h]
  rfl

/-- A committed update writes what its changes name, of the row they belong to. -/
theorem inv_commit {u : Int} {changes : Changes} {began : Nat} {loaded mutated : VoiceConsent}
    (hw : Inv S w) (hcall : w.calls[i]? = some ⟨⟨.put u changes, began⟩, .staged loaded mutated⟩)
    (hrow : (w.consents.get loaded.userId).isSome) :
    Inv S { w.setPhase i .committed with
      consents := flush w.consents loaded mutated
      written := w.written ++ writes u loaded mutated } := by
  obtain ⟨u', changes', hrequest, hloaded, hchanges⟩ := hw.phases _ (List.mem_of_getElem? hcall)
  obtain ⟨rfl, rfl⟩ := Request.put.inj hrequest
  have hargs : (w.setPhase i .committed).calls.map Call.arg = w.calls.map Call.arg :=
    Call.map_arg_setPhase
  refine ⟨fun u' f => ?_, hargs ▸ fun e he => ?_, hargs ▸ fun a ha => ?_, ?_,
    hargs ▸ fun use huse => (hw.uses use huse).append⟩
  · dsimp only
    rw [consentOf_flush hrow, said, lastValue_append, lastValue_writes, hloaded, hw.current, said,
      writeColumn]
    by_cases hu : u' = u
    · by_cases hf : mutated.flag f = loaded.flag f
      · rw [if_pos hu, if_pos hf, if_neg fun h => h.2 hf, Option.none_or]
      · rw [if_pos hu, if_neg hf, if_pos ⟨hu, hf⟩, Option.some_or, Option.getD_some]
    · rw [if_neg hu, if_neg fun h => hu h.1, Option.none_or]
  · rcases List.mem_append.mp he with he | he
    · exact hw.named e he
    · obtain ⟨⟨u', f⟩, value⟩ := e
      obtain ⟨rfl, hf, rfl⟩ := mem_writes.mp he
      obtain ⟨value, hmem, htruthy⟩ := ((flag_applyChanges hchanges).2 f).resolve_left hf
      exact ⟨changes, began, value, List.mem_of_getElem? (arg_of_call hcall), hmem, htruthy⟩
  · have hbegan := hw.began a ha
    rw [List.length_append]
    omega
  · exact Call.forall_setPhase (fun c hc => (hw.phases c hc).append) fun _ _ => trivial

/-- What the gate has read stands at this moment. -/
theorem allowed_of_read {u : Int} {r : Recording} {began : Nat} {scoring : Bool} (hw : Inv S w)
    (hcall : w.calls[i]? = some ⟨⟨.record u r, began⟩, .admitted⟩)
    (hread : transcriptionAndScoring w.consents u = (true, scoring)) :
    Allowed w.written ⟨.record u r, began⟩ (r.endpoint.scores scoring) := by
  rw [transcriptionAndScoring_eq, hw.current, hw.current] at hread
  obtain ⟨htranscription, hscoring⟩ := Prod.mk.inj hread
  have hbegan := hw.began _ (List.mem_of_getElem? (arg_of_call hcall))
  refine ⟨u, r, w.written.length, rfl, hbegan, Nat.le_refl _, ?_, fun hscores => ?_⟩
  · rw [List.take_length]
    exact htranscription
  · rw [List.take_length, hscoring]
    cases hr : r.endpoint with
    | shadowingAttempt => exact ⟨rfl, by rwa [hr] at hscores⟩
    | transcribe => rw [hr] at hscores; exact nomatch hscores
    | minimalPairsAttempt => rw [hr] at hscores; exact nomatch hscores

theorem inv_parse {u : Int} {r : Recording} {began : Nat} {allowScore : Bool} {upload : Upload}
    (hw : Inv S w) (hcall : w.calls[i]? = some ⟨⟨.record u r, began⟩, .consented allowScore⟩)
    (hparsed : parseRecording S r = .done (.ok upload)) :
    Inv S (w.setPhase i (.parsed allowScore upload)) := by
  refine inv_setPhase hw (fun _ _ => rfl) fun c hc => ?_
  obtain rfl := Option.some.inj (hcall.symm.trans hc)
  exact ⟨hw.phases _ (List.mem_of_getElem? hcall),
    length_of_parseBoundedMultipart (fun _ => length_of_startBoundedMultipart) hparsed⟩

theorem inv_step {e : Event} (hw : Inv S w) (h : step S w e = some w') : Inv S w' := by
  cases e with
  | arrive request =>
    obtain rfl := Option.some.inj h
    refine ⟨hw.current, List.map_append ▸ fun e he => ?_, List.map_append ▸ fun a ha => ?_,
      Call.forall_begin hw.phases trivial, List.map_append ▸ fun use huse => ?_⟩
    · obtain ⟨changes, began, value, hmem, hnamed⟩ := hw.named e he
      exact ⟨changes, began, value, List.mem_append_left _ hmem, hnamed⟩
    · rcases List.mem_append.mp ha with ha | ha
      · exact hw.began a ha
      · have hbegan : a.began = w.written.length := by rw [List.mem_singleton.mp ha]
        exact Nat.le_of_eq hbegan
    · exact (hw.uses use huse).later
  | limit i =>
    simp only [step] at h
    split at h
    · obtain rfl := Option.some.inj h
      exact inv_setPhase hw (fun _ _ => rfl) fun _ _ => trivial
    · cases h
  | touch i =>
    simp only [step] at h
    split at h
    · obtain rfl := Option.some.inj h
      exact inv_setPhase hw (fun _ _ => consentOf_touch) fun _ _ => trivial
    · obtain rfl := Option.some.inj h
      exact inv_setPhase hw (fun _ _ => consentOf_touch) fun _ _ => trivial
    · cases h
  | select i =>
    simp only [step] at h
    split at h
    · split at h
      all_goals obtain rfl := Option.some.inj h
      · exact inv_failed hw
      · exact inv_setPhase hw (fun _ _ => rfl) fun _ _ => trivial
    · rename_i u changes began hcall
      split at h
      · obtain rfl := Option.some.inj h
        exact inv_failed hw
      · rename_i row hrow
        split at h
        · obtain rfl := Option.some.inj h
          exact inv_failed hw
        · rename_i mutated hmutated
          obtain rfl := Option.some.inj h
          refine inv_setPhase hw (fun _ _ => rfl) fun c hc => ⟨u, changes, ?_⟩
          obtain rfl := Option.some.inj (hcall.symm.trans hc)
          exact ⟨rfl, Table.key_of_get hrow, hmutated⟩
    · cases h
  | commit i =>
    simp only [step] at h
    split at h
    · rename_i hcall
      split at h
      · obtain rfl := Option.some.inj h
        exact inv_failed hw
      · rename_i hrow
        obtain rfl := Option.some.inj h
        exact inv_commit hw hcall (Option.isSome_iff_exists.mpr ⟨_, hrow⟩)
    · cases h
  | refresh i =>
    simp only [step] at h
    split at h
    · obtain rfl := Option.some.inj h
      exact inv_setPhase hw (fun _ _ => rfl) fun _ _ => trivial
    · cases h
  | readConsent i =>
    simp only [step] at h
    split at h
    · rename_i u r began hcall
      split at h
      · obtain rfl := Option.some.inj h
        exact inv_failed hw
      · rename_i scoring hread
        obtain rfl := Option.some.inj h
        refine inv_setPhase hw (fun _ _ => rfl) fun c hc => ?_
        obtain rfl := Option.some.inj (hcall.symm.trans hc)
        exact allowed_of_read hw hcall hread
    · cases h
  | parse i =>
    simp only [step] at h
    split at h
    · rename_i u r began allowScore hcall
      have hallowed := hw.phases _ (List.mem_of_getElem? hcall)
      have hbody : Inv S { w with uses := w.uses ++ [.body i] } := by
        refine inv_use hw fun use huse => ?_
        rw [List.mem_singleton.mp huse]
        exact ⟨_, arg_of_call hcall, hallowed.weaken, nofun⟩
      split at h
      · obtain rfl := Option.some.inj h
        exact hbody
      · obtain rfl := Option.some.inj h
        exact inv_failed hbody
      · rename_i upload hparsed
        split at h
        all_goals obtain rfl := Option.some.inj h
        · exact inv_parse hbody hcall hparsed
        · exact inv_failed hbody
    · cases h
  | score i =>
    simp only [step] at h
    split at h
    · rename_i u r began allowScore upload hcall
      obtain ⟨hallowed, hlength⟩ := hw.phases _ (List.mem_of_getElem? hcall)
      split at h
      · obtain rfl := Option.some.inj h
        exact inv_setPhase hw (fun _ _ => rfl) fun _ _ => trivial
      · rename_i hsome
        obtain rfl := Option.some.inj h
        have hused : Inv S { w with uses := w.uses ++ .transcription i upload.data ::
            if allowScore && S.pronunciation then [.phonemes i upload.data] else [] } := by
          refine inv_use hw fun use huse => ?_
          have haudio : ∀ audio, some upload.data = some audio →
              audio ≠ [] ∧ audio.length ≤ S.maxUploadBytes := by
            intro audio haudio
            obtain rfl := Option.some.inj haudio
            exact ⟨hsome, hlength⟩
          rcases List.mem_cons.mp huse with rfl | huse
          · exact ⟨_, arg_of_call hcall, hallowed.weaken, haudio⟩
          · split at huse
            · rename_i hscored
              rw [List.mem_singleton.mp huse]
              rw [(Bool.and_eq_true_iff.mp hscored).1] at hallowed
              exact ⟨_, arg_of_call hcall, hallowed, haudio⟩
            · exact absurd huse List.not_mem_nil
        exact inv_setPhase hused (fun _ _ => rfl) fun _ _ => trivial
    · cases h
  | fail i =>
    obtain ⟨-, -, rfl⟩ := Option.map_eq_some_iff.mp h
    exact inv_failed hw

theorem inv_init : Inv S .init :=
  ⟨fun _ _ => flag_new, List.forall_mem_nil _, List.forall_mem_nil _, List.forall_mem_nil _,
    List.forall_mem_nil _⟩

theorem inv_of_run {events : List Event} (hrun : run (step S) .init events = some w) : Inv S w :=
  run_preserves (fun _ _ _ => inv_step) inv_init hrun

/-- A body that comes in one message is the recording. -/
def oneMessage : Setup Unit where
  parser.start := .receive ()
  parser.app
    | _, .ok (.request body false) => .done (.ok [("target_text", .text "thin"), ("audio", .upload body)])
    | _, .error _ => .done (.error .payloadTooLarge)
    | _, _ => .done (.error .clientDisconnect)
  maxUploadBytes := 4
  maxRequestBodyBytes := 8
  pronunciation := true

/-- A user grants the scoring, then sends a recording to shadow. -/
def grantThenShadow : List Event :=
  [.arrive (.put 7 [("scoring", some true)]), .touch 0, .select 0, .commit 0, .refresh 0,
    .arrive (.record 7 ⟨.shadowingAttempt, some "3", [.request [1, 2, 3] false]⟩), .limit 1,
    .readConsent 1, .parse 1, .score 1]

/-- **A consent is what the last update that changed it was told.** In every interleaving of any
requests a user's consent is the value that the last committed update to change it wrote, and the
default when none has; and what an update has written is what a body of that user named. -/
theorem consent_last_written {events : List Event} (hrun : run (step S) .init events = some w)
    (u : Int) (f : ConsentField) :
    consentOf w.consents u f = (lastValue w.written (u, f)).getD f.default ∧
      ∀ v, ((u, f), v) ∈ w.written → ∃ changes began value,
        ⟨.put u changes, began⟩ ∈ w.calls.map Call.arg ∧ (f.name, value) ∈ changes ∧
          truthy value = v :=
  ⟨(inv_of_run hrun).current u f, fun _ hv => (inv_of_run hrun).named _ hv⟩

theorem consent_last_written_granted :
    ∃ w, run (step oneMessage) .init grantThenShadow = some w ∧
      consentOf w.consents 7 .scoring = (lastValue w.written (7, .scoring)).getD false ∧
      lastValue w.written (7, .scoring) = some true := by
  have hcheck : (run (step oneMessage) .init grantThenShadow).map
      (fun w => decide (lastValue w.written (7, .scoring) = some true)) = some true := by decide
  obtain ⟨w, hrun, hw⟩ := exists_run_of_check _ _ _ _ hcheck
  exact ⟨w, hrun, (consent_last_written hrun 7 .scoring).1, of_decide_eq_true hw⟩

/-- **A recording is used under a consent that stood.** In every interleaving of any requests,
whatever is done with a recording is done for a request that has found its user's consent after it
came: at some moment since then the last update to change `transcription` had not revoked it, and
for the phonemes, which only shadowing asks for, the last update to change `scoring` had granted
it. What is sent on is neither empty nor over the bound. -/
theorem recording_used_with_consent {events : List Event}
    (hrun : run (step S) .init events = some w) (use : Use) (huse : use ∈ w.uses) :
    ∃ u r began k, (w.calls.map Call.arg)[use.call]? = some ⟨.record u r, began⟩ ∧
      began ≤ k ∧ k ≤ w.written.length ∧
      lastValue (w.written.take k) (u, .transcription) ≠ some false ∧
      (use.scores = true → r.endpoint = .shadowingAttempt ∧
        lastValue (w.written.take k) (u, .scoring) = some true) ∧
      ∀ audio, use.audio = some audio → audio ≠ [] ∧ audio.length ≤ S.maxUploadBytes := by
  obtain ⟨⟨request, began⟩, harg, ⟨u, r, k, hr, hbegan, hk, htranscription, hscoring⟩, haudio⟩ :=
    (inv_of_run hrun).uses use huse
  dsimp only at hr hbegan
  subst hr
  refine ⟨u, r, began, k, harg, hbegan, hk, fun h => ?_, fun hscores => ?_, haudio⟩
  · rw [said, h] at htranscription
    exact nomatch htranscription
  · obtain ⟨hendpoint, hsaid⟩ := hscoring hscores
    refine ⟨hendpoint, ?_⟩
    rw [said] at hsaid
    cases h : lastValue (w.written.take k) (u, .scoring) with
    | none => rw [h] at hsaid; exact nomatch hsaid
    | some v => rw [h] at hsaid; exact congrArg some hsaid

theorem recording_used_with_consent_granted :
    ∃ w, run (step oneMessage) .init grantThenShadow = some w ∧
      Use.phonemes 1 [1, 2, 3] ∈ w.uses ∧
      ∃ u k, k ≤ w.written.length ∧ lastValue (w.written.take k) (u, .scoring) = some true := by
  have hcheck : (run (step oneMessage) .init grantThenShadow).map
      (fun w => decide (Use.phonemes 1 [1, 2, 3] ∈ w.uses)) = some true := by decide
  obtain ⟨w, hrun, hw⟩ := exists_run_of_check _ _ _ _ hcheck
  have huse := of_decide_eq_true hw
  obtain ⟨u, r, began, k, -, -, hk, -, hscoring, -⟩ := recording_used_with_consent hrun _ huse
  exact ⟨w, hrun, huse, u, k, hk, (hscoring rfl).2⟩

end Apm.Consent
