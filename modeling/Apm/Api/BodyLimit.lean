import Mathlib.Data.List.Basic

/-!
# The ceiling on a request body

`BodySizeLimitMiddleware` stands between the server and the application. It refuses a request
whose declared length is over the ceiling, and counts the bytes of the messages it passes on. The
application is any consumer of messages: it may stop early, and it may catch what `receive`
raises and go on. An endpoint that takes an upload checks its own, lower bound again.
-/

namespace Apm.Api

set_option autoImplicit false

abbrev Bytes := List UInt8

/-! ## The declared length -/

/-- The characters of Latin-1 that `str.isdigit` accepts. -/
def isDigitChar (c : Char) : Bool := '0' ≤ c && c ≤ '9' || c ∈ ['²', '³', '¹']

def isdigit (s : String) : Bool := !s.toList.isEmpty && s.toList.all isDigitChar

/-- The most digits `int` reads from a string. -/
def intMaxStrDigits : Nat := 4300

structure ValueError where
  deriving DecidableEq, Repr

/-- `int` of a string of digits. A superscript is no digit to it. -/
def intOf (s : String) : Except ValueError Nat :=
  if s.toList.all (fun c => '0' ≤ c && c ≤ '9') && s.toList.length ≤ intMaxStrDigits then
    .ok (s.toList.foldl (fun n c => 10 * n + (c.toNat - '0'.toNat)) 0)
  else .error ⟨⟩

/-- `declared is not None and declared.isdigit() and int(declared) > max`. -/
def declaredOver (max : Nat) : Option String → Except ValueError Bool
  | none => .ok false
  | some declared => if isdigit declared then (intOf declared).map (max < ·) else .ok false

/-! ## What the application receives -/

inductive Message where
  | request (body : Bytes) (moreBody : Bool)
  | disconnect
  deriving DecidableEq, Repr

structure PayloadTooLargeError where
  deriving DecidableEq, Repr

def Message.size : Message → Nat
  | .request body _ => body.length
  | .disconnect => 0

def size : List Message → Nat
  | [] => 0
  | message :: messages => message.size + size messages

/-- The application calls `receive`, or it has ended. -/
inductive Next (σ ρ : Type) where
  | receive (s : σ)
  | done (r : ρ)
  deriving DecidableEq, Repr

/-- What an application does with a message, or with what `receive` raised. -/
abbrev App (σ ρ : Type) := σ → Except PayloadTooLargeError Message → Next σ ρ

/-- What an application has come to, and the messages it was handed. -/
structure Served (σ ρ : Type) where
  next : Next σ ρ
  handed : List Message
  deriving DecidableEq, Repr

variable {σ ρ : Type}

def Served.hand (m : Message) (s : Served σ ρ) : Served σ ρ := { s with handed := m :: s.handed }

@[simp] theorem Served.hand_handed (m : Message) (s : Served σ ρ) :
    (s.hand m).handed = m :: s.handed := rfl

@[simp] theorem Served.hand_next (m : Message) (s : Served σ ρ) : (s.hand m).next = s.next := rfl

/-- The application on its own: it waits where the messages run out. -/
def serve (app : App σ ρ) : Next σ ρ → List Message → Served σ ρ
  | .done r, _ => ⟨.done r, []⟩
  | .receive s, [] => ⟨.receive s, []⟩
  | .receive s, m :: rest => (serve app (app s (.ok m)) rest).hand m

/-- `counting_receive`: what is raised counts as well. -/
def countingReceive (max seen : Nat) (m : Message) : Except PayloadTooLargeError Message × Nat :=
  match m with
  | .request body _ =>
    if max < seen + body.length then (.error ⟨⟩, seen + body.length)
    else (.ok m, seen + body.length)
  | .disconnect => (.ok m, seen)

/-- The application behind the count. -/
def limited (max : Nat) (app : App σ ρ) : Nat → Next σ ρ → List Message → Served σ ρ
  | _, .done r, _ => ⟨.done r, []⟩
  | _, .receive s, [] => ⟨.receive s, []⟩
  | seen, .receive s, m :: rest =>
    match countingReceive max seen m with
    | (.ok m, seen) => (limited max app seen (app s (.ok m)) rest).hand m
    | (.error e, seen) => limited max app seen (app s (.error e)) rest

/-- The middleware. -/
inductive Answer (σ ρ : Type) where
  | sent413
  | raised (e : ValueError)
  | app (served : Served σ ρ)
  deriving DecidableEq, Repr

def bodySizeLimitMiddleware (max : Nat) (app : App σ ρ) (scopeType : String)
    (contentLength : Option String) (start : Next σ ρ) (messages : List Message) : Answer σ ρ :=
  if scopeType ≠ "http" then .app (serve app start messages)
  else
    match declaredOver max contentLength with
    | .error e => .raised e
    | .ok true => .sent413
    | .ok false => .app (limited max app 0 start messages)

def Answer.handed : Answer σ ρ → List Message
  | .app served => served.handed
  | _ => []

/-! ## The count -/

variable {max seen : Nat} {app : App σ ρ} {start : Next σ ρ} {messages : List Message} {m : Message}

@[simp] theorem size_nil : size [] = 0 := rfl

@[simp] theorem size_cons : size (m :: messages) = m.size + size messages := rfl

/-- A message passes when it fits, and it counts whether it passes or not. -/
theorem countingReceive_eq : countingReceive max seen m =
    (if max < seen + m.size ∧ m ≠ .disconnect then .error ⟨⟩ else .ok m, seen + m.size) := by
  cases m with
  | request body moreBody =>
    rw [countingReceive, Message.size]
    split
    · rename_i h
      rw [if_pos ⟨h, nofun⟩]
    · rename_i h
      rw [if_neg fun hc => h hc.1]
  | disconnect => rw [if_neg fun hc => hc.2 rfl]; rfl

/-- What is handed on fits in what the ceiling leaves. Once it is passed, only disconnects are. -/
theorem size_limited_le :
    size (limited max app seen start messages).handed ≤ max - seen := by
  induction messages generalizing seen start with
  | nil => cases start <;> exact Nat.zero_le _
  | cons m rest ih =>
    cases start with
    | done r => exact Nat.zero_le _
    | receive s =>
      rw [limited, countingReceive_eq]
      by_cases hover : max < seen + m.size ∧ m ≠ .disconnect
      · rw [if_pos hover]
        have hrest : size (limited max app (seen + m.size) (app s (.error ⟨⟩)) rest).handed ≤
            max - (seen + m.size) := ih
        dsimp only
        omega
      · rw [if_neg hover]
        have hrest : size (limited max app (seen + m.size) (app s (.ok m)) rest).handed ≤
            max - (seen + m.size) := ih
        have hm : seen + m.size ≤ max ∨ m.size = 0 := by
          rcases Decidable.not_and_iff_not_or_not.mp hover with h | h
          · exact .inl (Nat.not_lt.mp h)
          · exact .inr (by rw [not_not.mp h, Message.size])
        dsimp only
        rw [Served.hand_handed, size_cons]
        omega

/-- An application that takes no more than the ceiling leaves does not notice the count. -/
theorem limited_eq_serve (h : seen + size (serve app start messages).handed ≤ max) :
    limited max app seen start messages = serve app start messages := by
  induction messages generalizing seen start with
  | nil => cases start <;> rfl
  | cons m rest ih =>
    cases start with
    | done r => rfl
    | receive s =>
      rw [serve, Served.hand_handed, size_cons] at h
      rw [limited, countingReceive_eq, if_neg fun hc => by omega, serve]
      dsimp only
      rw [ih (by omega)]

/-- One that would take more, and lets through what `receive` raises, ends with it. What it was
handed until then is what it would have been handed. -/
theorem limited_of_over {r : ρ} (hr : ∀ s e, app s (.error e) = .done r)
    (hseen : seen ≤ max) (h : max < seen + size (serve app start messages).handed) :
    (limited max app seen start messages).next = .done r ∧
      (limited max app seen start messages).handed <+: (serve app start messages).handed := by
  induction messages generalizing seen start with
  | nil => cases start <;> exact absurd hseen (Nat.not_le.mpr h)
  | cons m rest ih =>
    cases start with
    | done r' => exact absurd hseen (Nat.not_le.mpr h)
    | receive s =>
      rw [serve, Served.hand_handed, size_cons] at h
      rw [limited, countingReceive_eq, serve]
      by_cases hover : max < seen + m.size ∧ m ≠ .disconnect
      · rw [if_pos hover]
        dsimp only
        rw [hr]
        cases rest <;> exact ⟨rfl, List.nil_prefix⟩
      · have hfits : seen + m.size ≤ max := by
          rcases Decidable.not_and_iff_not_or_not.mp hover with h | h
          · exact Nat.not_lt.mp h
          · rw [not_not.mp h, Message.size]
            exact hseen
        rw [if_neg hover]
        have hrest : max < seen + m.size + size (serve app (app s (.ok m)) rest).handed := by omega
        obtain ⟨hnext, hhanded⟩ := ih hfits hrest
        exact ⟨hnext, List.cons_prefix_cons.mpr ⟨rfl, hhanded⟩⟩

variable {contentLength : Option String}

/-- **The middleware keeps every application below the ceiling and leaves the others alone.**
Whatever an application does with its messages, it is not handed more than the ceiling. Its run
is the one it has without the middleware exactly when the declared length is not over the ceiling
and neither is what it takes. If it would take more and lets through what `receive` raises, it is
handed what fits and ends with `PayloadTooLargeError`. -/
theorem body_bounded_or_unchanged :
    let answer := bodySizeLimitMiddleware max app "http" contentLength start messages
    let alone := serve app start messages
    size answer.handed ≤ max ∧
      (answer = .app alone ↔ declaredOver max contentLength = .ok false ∧ size alone.handed ≤ max) ∧
      (∀ r, (∀ s e, app s (.error e) = .done r) →
        declaredOver max contentLength = .ok false → max < size alone.handed →
        ∃ handed, answer = .app ⟨.done r, handed⟩ ∧ handed <+: alone.handed) := by
  intro answer alone
  have hlimited : size (limited max app 0 start messages).handed ≤ max := size_limited_le
  have hanswer : answer = match declaredOver max contentLength with
      | .error e => .raised e
      | .ok true => .sent413
      | .ok false => .app (limited max app 0 start messages) := if_neg (not_not.mpr rfl)
  rcases hdeclared : declaredOver max contentLength with e | isOver
  · rw [hdeclared] at hanswer
    rw [hanswer]
    exact ⟨Nat.zero_le _, ⟨nofun, fun h => nomatch h.1⟩, fun _ _ => nofun⟩
  · cases isOver with
    | true =>
      rw [hdeclared] at hanswer
      rw [hanswer]
      exact ⟨Nat.zero_le _, ⟨nofun, fun h => nomatch h.1⟩, fun _ _ => nofun⟩
    | false =>
      rw [hdeclared] at hanswer
      rw [hanswer]
      refine ⟨hlimited, ⟨fun h => ⟨rfl, ?_⟩, fun h => ?_⟩, fun r hr _ hover => ?_⟩
      · rw [← (Answer.app.injEq ..).mp h]
        exact hlimited
      · rw [limited_eq_serve (by rw [Nat.zero_add]; exact h.2)]
      · obtain ⟨hnext, hhanded⟩ := limited_of_over hr (Nat.zero_le max)
          (by rw [Nat.zero_add]; exact hover)
        refine ⟨_, ?_, hhanded⟩
        rw [← hnext]

/-- `await request.body()`: the body, or nothing when the client has gone or the body is refused. -/
def bodyApp : App Bytes (Option Bytes)
  | _, .error _ => .done none
  | read, .ok (.request body moreBody) =>
    if moreBody then .receive (read ++ body) else .done (some (read ++ body))
  | _, .ok .disconnect => .done none

/-- Two chunks of two bytes under a ceiling of three. -/
theorem body_bounded_or_unchanged_twoChunks :
    let messages := [Message.request [1, 2] true, .request [3, 4] false]
    (serve bodyApp (.receive []) messages).next = .done (some [1, 2, 3, 4]) ∧
      ∃ handed, bodySizeLimitMiddleware 3 bodyApp "http" none (.receive []) messages =
        .app ⟨.done none, handed⟩ ∧ handed <+: messages :=
  ⟨rfl, body_bounded_or_unchanged.2.2 none (fun _ _ => rfl) rfl (by decide)⟩

/-! ## Uploads -/

/-- A value of a parsed form. -/
inductive FormValue where
  | text (value : String)
  | upload (data : Bytes)
  deriving DecidableEq, Repr

/-- The items of a form, in their order. -/
abbrev Form := List (String × FormValue)

/-- `form.get`: of several items of one name, the last. -/
def Form.get (form : Form) (name : String) : Option FormValue :=
  (form.reverse.find? fun item => item.1 = name).map Prod.snd

inductive ParseError where
  | multiPartException
  | payloadTooLarge
  | clientDisconnect
  deriving DecidableEq, Repr

/-- The multipart parser, which reads the request until it has the form. -/
structure MultiPartParser (σ : Type) where
  start : Next σ (Except ParseError Form)
  app : App σ (Except ParseError Form)

inductive UploadError where
  | tooLarge
  | malformed
  | missing (audioField : String)
  | payloadTooLarge
  | clientDisconnect
  | valueError
  deriving DecidableEq, Repr

/-- The bytes of the audio part, and the other text fields. -/
structure Upload where
  data : Bytes
  fields : List (String × String)
  deriving DecidableEq, Repr

/-- `fields.get`. -/
def Upload.get (upload : Upload) (name : String) : Option String :=
  (upload.fields.reverse.find? fun item => item.1 = name).map Prod.snd

/-- `parse_bounded_multipart`, from the parsed form on. -/
def boundedForm (audioField : String) (maxBytes : Nat) :
    Except ParseError Form → Except UploadError Upload
  | .error .multiPartException => .error .malformed
  | .error .payloadTooLarge => .error .payloadTooLarge
  | .error .clientDisconnect => .error .clientDisconnect
  | .ok form =>
    match form.get audioField with
    | some (.upload data) =>
      if maxBytes < data.length then .error .tooLarge
      else .ok ⟨data, form.filterMap fun item =>
        match item.2 with
        | .text value => if item.1 = audioField then none else some (item.1, value)
        | .upload _ => none⟩
    | _ => .error (.missing audioField)

def Next.map {ρ' : Type} (f : ρ → ρ') : Next σ ρ → Next σ ρ'
  | .receive s => .receive s
  | .done r => .done (f r)

variable (P : MultiPartParser σ) (audioField : String) (maxBytes : Nat)

/-- `parse_bounded_multipart`, as an application: it has ended before it has received anything
when the declared length is over the bound. -/
def parseBoundedMultipart : App σ (Except UploadError Upload) :=
  fun s received => (P.app s received).map (boundedForm audioField maxBytes)

def startBoundedMultipart (contentLength : Option String) :
    Next σ (Except UploadError Upload) :=
  match declaredOver maxBytes contentLength with
  | .error _ => .done (.error .valueError)
  | .ok true => .done (.error .tooLarge)
  | .ok false => P.start.map (boundedForm audioField maxBytes)

variable {P audioField maxBytes}

theorem length_of_boundedForm {parsed : Except ParseError Form} {upload : Upload}
    (h : boundedForm audioField maxBytes parsed = .ok upload) : upload.data.length ≤ maxBytes := by
  match parsed with
  | .error .multiPartException => exact nomatch h
  | .error .payloadTooLarge => exact nomatch h
  | .error .clientDisconnect => exact nomatch h
  | .ok form =>
    rw [boundedForm] at h
    split at h
    · split at h
      · exact nomatch h
      · rename_i hfits
        rw [← Except.ok.inj h]
        exact Nat.not_lt.mp hfits
    · exact nomatch h

theorem map_boundedForm {next : Next σ (Except ParseError Form)} {upload : Upload}
    (h : next.map (boundedForm audioField maxBytes) = .done (.ok upload)) :
    upload.data.length ≤ maxBytes := by
  cases next with
  | receive s => exact nomatch h
  | done parsed => exact length_of_boundedForm (Next.done.inj h)

/-- What an endpoint gets of an upload is within its bound, whatever the parser does. -/
theorem length_of_parseBoundedMultipart {seen : Nat} {start : Next σ (Except UploadError Upload)}
    {upload : Upload}
    (hstart : ∀ upload, start = .done (.ok upload) → upload.data.length ≤ maxBytes)
    (h : (limited max (parseBoundedMultipart P audioField maxBytes) seen start messages).next =
      .done (.ok upload)) : upload.data.length ≤ maxBytes := by
  induction messages generalizing seen start with
  | nil => cases start <;> exact hstart upload h
  | cons m rest ih =>
    cases start with
    | done r => exact hstart upload h
    | receive s =>
      rw [limited] at h
      split at h
      · exact ih (fun _ => map_boundedForm) h
      · exact ih (fun _ => map_boundedForm) h

theorem length_of_startBoundedMultipart {contentLength : Option String} {upload : Upload}
    (h : startBoundedMultipart P audioField maxBytes contentLength = .done (.ok upload)) :
    upload.data.length ≤ maxBytes := by
  rw [startBoundedMultipart] at h
  split at h
  · exact nomatch h
  · exact nomatch h
  · exact map_boundedForm h

end Apm.Api
