import Apm.Debriefs.Service
import Apm.Lib.Json
import Mathlib.Data.List.DropRight
import Mathlib.Data.List.Infix

/-!
# The debrief analyzer

`analyze` asks the LLM about what the learner has said lately and reads its reply: the JSON
object in it, field by field, each field coerced by a rule of its own. What the LLM returns is
an argument; the prompt only goes to the LLM. Texts are lists of code points here, since an
escape of the reply may leave half of a surrogate pair.
-/

namespace Apm.Debriefs.Analyzer

open Apm.Lib
open Apm.Lib.Json (Text Value Display LoadError text str nesting loads)

set_option autoImplicit false

/-- An exception of `analyze`. -/
inductive Raised where
  /-- `DebriefAnalysisError` -/
  | analysis (message : String)
  | typeError
  | valueError
  | recursionError
  deriving DecidableEq, Repr

/-- The Python that runs the analyzer. -/
structure Interpreter extends Display where
  /-- the containers that `json.loads` goes into before `RecursionError` -/
  scanDepth : Nat

/-! ## Texts -/

/-- `str.isspace` of one code point. -/
def isSpacePoint (c : Nat) : Bool := isSpace (Char.ofNat c)

/-- `str.strip` -/
def stripText (s : Text) : Text := (s.dropWhile isSpacePoint).rdropWhile isSpacePoint

/-- `str.lower` as far as `_NON_WORD` can see: besides the ASCII letters only the dotted capital I
and the Kelvin sign have a letter of the class in lower case. -/
def lowerPoint (c : Nat) : Text :=
  if c = 0x130 then [0x69, 0x307]
  else if c = 0x212a then [0x6b]
  else if 0x41 ≤ c ∧ c ≤ 0x5a then [c + 0x20]
  else [c]

/-- `[a-z0-9]` -/
def isWordPoint (c : Nat) : Bool := (0x61 ≤ c && c ≤ 0x7a) || (0x30 ≤ c && c ≤ 0x39)

/-- `_NON_WORD.sub(" ", s)`; `inRun` where the run has its blank already. -/
def subNonWord (inRun : Bool) : Text → Text
  | [] => []
  | c :: rest =>
    if isWordPoint c then c :: subNonWord false rest
    else if inRun then subNonWord true rest
    else 0x20 :: subNonWord true rest

/-! ## The error taxonomy -/

/-- `CANONICAL_ERROR_TYPES` -/
def canonicalErrorTypes : List Text :=
  ["grammar", "verb_tense", "verb_form", "subject_verb_agreement", "word_order", "article",
    "preposition", "pronoun", "plural", "spelling", "punctuation", "capitalization", "vocabulary",
    "word_choice", "fluency", "other"].map text

/-- `_ALIASES` -/
def aliases : List (Text × Text) :=
  [("agreement", "subject_verb_agreement"), ("subject verb agreement", "subject_verb_agreement"),
    ("subject-verb agreement", "subject_verb_agreement"), ("sva", "subject_verb_agreement"),
    ("tense", "verb_tense"), ("verb tense", "verb_tense"), ("past tense", "verb_tense"),
    ("verb", "verb_form"), ("verb form", "verb_form"), ("word order", "word_order"),
    ("syntax", "word_order"), ("articles", "article"), ("determiner", "article"),
    ("prepositions", "preposition"), ("pronouns", "pronoun"), ("singular plural", "plural"),
    ("singular/plural", "plural"), ("capital i", "capitalization"),
    ("capitalisation", "capitalization"), ("vocab", "vocabulary"), ("lexical", "vocabulary"),
    ("word choice", "word_choice"), ("wrong word", "word_choice")].map
    fun entry => (text entry.1, text entry.2)

def normalizeErrorType (value : Text) : Text :=
  let normalized := stripText (subNonWord false (value.flatMap lowerPoint))
  let normalized :=
    (aliases.lookup normalized).getD (normalized.map fun c => if c = 0x20 then 0x5f else c)
  if normalized ∈ canonicalErrorTypes then normalized else text "other"

theorem normalizeErrorType_mem (value : Text) : normalizeErrorType value ∈ canonicalErrorTypes := by
  unfold normalizeErrorType
  simp only
  split_ifs with h
  · exact h
  · decide

/-! ## The result -/

structure DebriefError where
  original : Text
  correction : Text
  rule : Text
  errorType : Text
  explanation : Text
  examples : List Text
  alternatives : List Text
  deriving DecidableEq, Repr

structure VocabularyWord where
  word : Text
  phonetic : Text
  translation : Text
  exampleSentence : Text
  deriving DecidableEq, Repr

structure DebriefResult where
  cefrEstimate : Text
  summary : Text
  errors : List DebriefError
  words : List VocabularyWord
  deriving DecidableEq, Repr

/-! ## Parsing -/

/-- `_extract_json_object`: from the first opening brace to the last closing one. -/
def extractJsonObject (reply : Text) : Except Raised Text :=
  match reply.findIdx? (· = 0x7b), reply.reverse.findIdx? (· = 0x7d) with
  | some start, some behind =>
    let stop := reply.length - 1 - behind
    if stop < start then .error (.analysis "No JSON object found in LLM output")
    else .ok ((reply.take (stop + 1)).drop start)
  | _, _ => .error (.analysis "No JSON object found in LLM output")

/-- `parse_debrief_json` behind `json.loads`: only a decoding error is caught. -/
def loadedObject : Except LoadError Value → Except Raised (List (Text × Value))
  | .ok (.dict entries) => .ok entries
  | .ok _ => .error (.analysis "Debrief LLM output is not a JSON object")
  | .error (.decode message) => .error (.analysis s!"Invalid JSON from debrief LLM: {message}")
  | .error .digits => .error .valueError
  | .error .recursion => .error .recursionError

def parseDebriefJson (py : Interpreter) (reply : Text) : Except Raised (List (Text × Value)) := do
  loadedObject (loads py.scanDepth (← extractJsonObject reply))

/-- `str` goes through with the value. -/
def Printable (py : Interpreter) : Value → Prop
  | .str _ => True
  | v => nesting v ≤ py.depth

instance (py : Interpreter) : DecidablePred (Printable py) := fun v => by
  cases v <;> simp only [Printable] <;> infer_instance

def toStr (py : Interpreter) (v : Value) : Except Raised Text :=
  if Printable py v then .ok (str py.toDisplay v) else .error .recursionError

/-- `_str_list` -/
def strList (py : Interpreter) (value : Value) (cap : Nat) : Except Raised (List Text) :=
  match value with
  | .list items => do
    let texts ← items.mapM (toStr py)
    .ok (((texts.map stripText).filter (· ≠ [])).take cap)
  | _ => .ok []

/-- `_dict_list` -/
def dictList (value : Value) : List (List (Text × Value)) :=
  match value with
  | .list items => items.filterMap fun item =>
    match item with
    | .dict entries => some entries
    | _ => none
  | _ => []

/-! ## `analyze` -/

/-- An utterance of the transcript. -/
structure Turn where
  role : Option String
  content : Option Text

structure Settings where
  maxErrors : Nat
  /-- zero for no bound -/
  maxLearnerTurns : Nat

/-- `style_for_intensity(intensity).max_errors` -/
def styleMaxErrors (intensity : String) : Nat := if intensity = "detailed" then 5 else 1

/-- The `max_errors` of one analysis. -/
def Settings.errorCap (cfg : Settings) (intensity : Option String) : Nat :=
  (intensity.map styleMaxErrors).getD cfg.maxErrors

def learnerText (cfg : Settings) (turns : List Turn) : Text :=
  let learnerTurns := (turns.filter (·.role = some "user")).map fun t => t.content.getD []
  let learnerTurns :=
    if 0 < cfg.maxLearnerTurns then learnerTurns.drop (learnerTurns.length - cfg.maxLearnerTurns)
    else learnerTurns
  [0xa].intercalate learnerTurns

/-- `VALID_CEFR` -/
def validCefr : List Text := cefrLevels.map text

/-- Membership in a set hashes the value, which a list or a dict cannot be. -/
def readCefr (value : Value) (fallbackCefr : Text) : Except Raised Text :=
  match value with
  | .list _ | .dict _ => .error .typeError
  | .str s => .ok (if s ∈ validCefr then s else fallbackCefr)
  | _ => .ok fallbackCefr

def readError (py : Interpreter) (learnerText : Text) (item : List (Text × Value)) :
    Except Raised (Option DebriefError) := do
  let original ← toStr py (Json.get item "original" (.str []))
  if original ≠ [] ∧ original <:+: learnerText then
    let correction ← toStr py (Json.get item "correction" (.str []))
    let rule ← toStr py (Json.get item "rule" (.str []))
    let errorType ← toStr py (Json.get item "error_type" (.str []))
    let explanation ← toStr py (Json.get item "explanation" (.str []))
    let examples ← strList py (Json.get item "examples" .null) 2
    let alternatives ← strList py (Json.get item "alternatives" .null) 2
    .ok (some ⟨original, correction, rule, normalizeErrorType errorType, explanation, examples,
      alternatives⟩)
  else .ok none

def readWord (py : Interpreter) (item : List (Text × Value)) :
    Except Raised (Option VocabularyWord) := do
  let word ← toStr py (Json.get item "word" (.str []))
  if stripText word = [] then .ok none
  else
    let phonetic ← toStr py (Json.get item "phonetic" (.str []))
    let translation ← toStr py (Json.get item "translation" (.str []))
    let exampleSentence ← toStr py (Json.get item "example" (.str []))
    .ok (some ⟨stripText word, stripText phonetic, stripText translation, stripText exampleSentence⟩)

/-- `analyze`, where the LLM returns `reply`. -/
def analyze (py : Interpreter) (cfg : Settings) (turns : List Turn) (fallbackCefr : Text)
    (intensity : Option String) (reply : Text) : Except Raised DebriefResult := do
  let learnerText := learnerText cfg turns
  let data ← parseDebriefJson py reply
  let cefr ← readCefr (Json.get data "cefr_estimate" (.str [])) fallbackCefr
  let errors ← ((dictList (Json.get data "errors" .null)).take (cfg.errorCap intensity)).mapM
    (readError py learnerText)
  let words ← ((dictList (Json.get data "words" .null)).take 3).mapM (readWord py)
  let summary ← toStr py (Json.get data "summary" (.str []))
  .ok ⟨cefr, summary, errors.reduceOption, words.reduceOption⟩

theorem extractJsonObject_error {reply : Text} {e : Raised} (h : extractJsonObject reply = .error e) :
    ∃ message, e = .analysis message := by
  unfold extractJsonObject at h
  split at h
  · simp only at h
    split_ifs at h
    exact ⟨_, (Except.error.inj h).symm⟩
  · exact ⟨_, (Except.error.inj h).symm⟩

/-! ## What a reply makes of the analysis -/

/-- The program turns the values into texts, and returns `a` unless one does not go through. -/
def Reads {α : Type} (py : Interpreter) (vs : List Value) (x : Except Raised α) (a : α) : Prop :=
  x = if ∀ v ∈ vs, Printable py v then .ok a else .error .recursionError

namespace Reads

variable {α β : Type} {py : Interpreter} {vs ws : List Value} {x : Except Raised α} {a : α}
  {f : α → Except Raised β} {b : β}

theorem ok (py : Interpreter) (a : α) : Reads py [] (.ok a) a :=
  (if_pos fun _ hv => absurd hv List.not_mem_nil).symm

theorem bind (hx : Reads py vs x a) (hf : Reads py ws (f a) b) : Reads py (vs ++ ws) (x >>= f) b := by
  unfold Reads at *
  rw [hx]
  by_cases hvs : ∀ v ∈ vs, Printable py v
  · rw [if_pos hvs]
    show f a = _
    rw [hf]
    refine if_congr ?_ rfl rfl
    rw [List.forall_mem_append]
    exact ⟨fun hws => ⟨hvs, hws⟩, fun h => h.2⟩
  · rw [if_neg hvs, if_neg fun h => hvs (List.forall_mem_append.mp h).1]
    rfl

/-- The last program only builds from the value. -/
theorem map (hx : Reads py vs x a) (g : α → β) : Reads py vs (x >>= fun a => .ok (g a)) (g a) := by
  have hbind := hx.bind (f := fun a => .ok (g a)) (ok py (g a))
  rwa [List.append_nil] at hbind

theorem toStr (py : Interpreter) (v : Value) : Reads py [v] (toStr py v) (str py.toDisplay v) := by
  unfold Reads Analyzer.toStr
  exact if_congr (by rw [List.forall_mem_singleton]) rfl rfl

theorem toStr_bind {v : Value} {f : Text → Except Raised β}
    (hf : Reads py ws (f (str py.toDisplay v)) b) :
    Reads py (v :: ws) (Analyzer.toStr py v >>= f) b :=
  (toStr py v).bind hf

theorem mapM {g : α → Except Raised β} {value : α → β} {values : α → List Value}
    (h : ∀ a, Reads py (values a) (g a) (value a)) (as : List α) :
    Reads py (as.flatMap values) (as.mapM g) (as.map value) := by
  induction as with
  | nil => exact ok py []
  | cons a as ih =>
    rw [List.mapM_cons, List.flatMap_cons, List.map_cons]
    exact (h a).bind (ih.map _)

end Reads

def listItems : Value → List Value
  | .list items => items
  | _ => []

/-- The texts of a list field. -/
def textsOf (py : Interpreter) (value : Value) (cap : Nat) : List Text :=
  ((((listItems value).map (str py.toDisplay)).map stripText).filter (· ≠ [])).take cap

theorem reads_strList (py : Interpreter) (value : Value) (cap : Nat) :
    Reads py (listItems value) (strList py value cap) (textsOf py value cap) := by
  unfold strList textsOf listItems
  split
  · rename_i items
    have hitems := Reads.mapM (Reads.toStr py) items
    rw [List.flatMap_singleton'] at hitems
    exact hitems.map _
  · rw [List.map_nil, List.map_nil, List.filter_nil, List.take_nil]
    exact Reads.ok py []

/-- A text field of an item. -/
def fieldOf (py : Interpreter) (item : List (Text × Value)) (key : String) : Text :=
  str py.toDisplay (Json.get item key (.str []))

/-- The error of an item, unless its original is not the learner's. -/
def errorOf (py : Interpreter) (learnerText : Text) (item : List (Text × Value)) :
    Option DebriefError :=
  if fieldOf py item "original" ≠ [] ∧ fieldOf py item "original" <:+: learnerText then
    some {
      original := fieldOf py item "original"
      correction := fieldOf py item "correction"
      rule := fieldOf py item "rule"
      errorType := normalizeErrorType (fieldOf py item "error_type")
      explanation := fieldOf py item "explanation"
      examples := textsOf py (Json.get item "examples" .null) 2
      alternatives := textsOf py (Json.get item "alternatives" .null) 2 }
  else none

/-- The values of the item that are turned into texts. -/
def errorValues (py : Interpreter) (learnerText : Text) (item : List (Text × Value)) : List Value :=
  Json.get item "original" (.str []) ::
    if fieldOf py item "original" ≠ [] ∧ fieldOf py item "original" <:+: learnerText then
      [Json.get item "correction" (.str []), Json.get item "rule" (.str []),
        Json.get item "error_type" (.str []), Json.get item "explanation" (.str [])] ++
        (listItems (Json.get item "examples" .null) ++ listItems (Json.get item "alternatives" .null))
    else []

def wordOf (py : Interpreter) (item : List (Text × Value)) : Option VocabularyWord :=
  if stripText (fieldOf py item "word") = [] then none
  else some {
    word := stripText (fieldOf py item "word")
    phonetic := stripText (fieldOf py item "phonetic")
    translation := stripText (fieldOf py item "translation")
    exampleSentence := stripText (fieldOf py item "example") }

def wordValues (py : Interpreter) (item : List (Text × Value)) : List Value :=
  Json.get item "word" (.str []) ::
    if stripText (fieldOf py item "word") = [] then []
    else [Json.get item "phonetic" (.str []), Json.get item "translation" (.str []),
      Json.get item "example" (.str [])]

theorem reads_readError (py : Interpreter) (learnerText : Text) (item : List (Text × Value)) :
    Reads py (errorValues py learnerText item) (readError py learnerText item)
      (errorOf py learnerText item) := by
  refine Reads.toStr_bind ?_
  by_cases h : fieldOf py item "original" ≠ [] ∧ fieldOf py item "original" <:+: learnerText
  · rw [errorOf, if_pos h, if_pos h]
    refine (congrArg (Reads py _ · _) (if_pos h)).mpr ?_
    iterate 4 refine Reads.toStr_bind ?_
    exact (reads_strList py _ 2).bind ((reads_strList py _ 2).map _)
  · rw [errorOf, if_neg h, if_neg h]
    exact (congrArg (Reads py _ · _) (if_neg h)).mpr (Reads.ok py none)

theorem reads_readWord (py : Interpreter) (item : List (Text × Value)) :
    Reads py (wordValues py item) (readWord py item) (wordOf py item) := by
  refine Reads.toStr_bind ?_
  by_cases h : stripText (fieldOf py item "word") = []
  · rw [wordOf, if_pos h, if_pos h]
    exact (congrArg (Reads py _ · _) (if_pos h)).mpr (Reads.ok py none)
  · rw [wordOf, if_neg h, if_neg h]
    refine (congrArg (Reads py _ · _) (if_neg h)).mpr ?_
    iterate 2 refine Reads.toStr_bind ?_
    exact (Reads.toStr py _).map _

/-- The errors that are looked at. -/
def errorItems (cap : Nat) (data : List (Text × Value)) : List (List (Text × Value)) :=
  (dictList (Json.get data "errors" .null)).take cap

def wordItems (data : List (Text × Value)) : List (List (Text × Value)) :=
  (dictList (Json.get data "words" .null)).take 3

/-- What comes of the fields of a reply. -/
def resultOf (py : Interpreter) (cap : Nat) (learnerText cefr : Text) (data : List (Text × Value)) :
    DebriefResult where
  cefrEstimate := cefr
  summary := fieldOf py data "summary"
  errors := (errorItems cap data).filterMap (errorOf py learnerText)
  words := (wordItems data).filterMap (wordOf py)

/-- The values of a reply that are turned into texts. -/
def replyValues (py : Interpreter) (cap : Nat) (learnerText : Text) (data : List (Text × Value)) :
    List Value :=
  (errorItems cap data).flatMap (errorValues py learnerText) ++
    ((wordItems data).flatMap (wordValues py) ++ [Json.get data "summary" (.str [])])

theorem reduceOption_map_eq_filterMap {α β : Type} (f : α → Option β) (xs : List α) :
    (xs.map f).reduceOption = xs.filterMap f := List.filterMap_map

theorem analyze_eq (py : Interpreter) (cfg : Settings) (turns : List Turn) (fallbackCefr : Text)
    (intensity : Option String) (reply : Text) :
    analyze py cfg turns fallbackCefr intensity reply = (do
      let data ← parseDebriefJson py reply
      let cefr ← readCefr (Json.get data "cefr_estimate" (.str [])) fallbackCefr
      if ∀ v ∈ replyValues py (cfg.errorCap intensity) (learnerText cfg turns) data, Printable py v
      then .ok (resultOf py (cfg.errorCap intensity) (learnerText cfg turns) cefr data)
      else .error .recursionError) := by
  unfold analyze
  refine bind_congr fun data => bind_congr fun cefr => ?_
  have herrors := Reads.mapM (reads_readError py (learnerText cfg turns))
    (errorItems (cfg.errorCap intensity) data)
  have hwords := Reads.mapM (reads_readWord py) (wordItems data)
  have hresult : resultOf py (cfg.errorCap intensity) (learnerText cfg turns) cefr data =
      ⟨cefr, fieldOf py data "summary",
        ((errorItems (cfg.errorCap intensity) data).map
          (errorOf py (learnerText cfg turns))).reduceOption,
        ((wordItems data).map (wordOf py)).reduceOption⟩ := by
    rw [reduceOption_map_eq_filterMap, reduceOption_map_eq_filterMap, resultOf]
  rw [hresult]
  exact herrors.bind (hwords.bind ((Reads.toStr py _).map _))

/-! ## What the analysis promises -/

structure WellFormed (cap : Nat) (learnerText fallbackCefr : Text) (r : DebriefResult) : Prop where
  cefr : r.cefrEstimate ∈ validCefr ∨ r.cefrEstimate = fallbackCefr
  errors_le : r.errors.length ≤ cap
  errors : ∀ e ∈ r.errors, e.original ≠ [] ∧ e.original <:+: learnerText ∧
    e.errorType ∈ canonicalErrorTypes ∧ e.examples.length ≤ 2 ∧ e.alternatives.length ≤ 2
  words_le : r.words.length ≤ 3
  words : ∀ w ∈ r.words, w.word ≠ []

/-- A well-formed result, or `DebriefAnalysisError`. -/
def Robust (cap : Nat) (learnerText fallbackCefr : Text) : Except Raised DebriefResult → Prop
  | .ok r => WellFormed cap learnerText fallbackCefr r
  | .error (.analysis _) => True
  | .error _ => False

/-- The value has a hash. -/
def Hashable : Value → Prop
  | .list _ | .dict _ => False
  | _ => True

/-- The interpreter gets through the reply: its JSON has no integer of too many digits and is not
nested too deep for `json.loads`, the estimate has a hash, and no field is nested too deep for
`str`. -/
def GoesThrough (py : Interpreter) (cap : Nat) (learnerText reply : Text) : Prop :=
  ∀ object, extractJsonObject reply = .ok object →
    loads py.scanDepth object ≠ .error .digits ∧ loads py.scanDepth object ≠ .error .recursion ∧
      ∀ data, loads py.scanDepth object = .ok (.dict data) →
        Hashable (Json.get data "cefr_estimate" (.str [])) ∧
          ∀ v ∈ replyValues py cap learnerText data, Printable py v

theorem textsOf_length (py : Interpreter) (value : Value) (cap : Nat) :
    (textsOf py value cap).length ≤ cap := List.length_take_le _ _

theorem wellFormed_resultOf (py : Interpreter) (cap : Nat) (learnerText fallbackCefr cefr : Text)
    (data : List (Text × Value)) (hcefr : cefr ∈ validCefr ∨ cefr = fallbackCefr) :
    WellFormed cap learnerText fallbackCefr (resultOf py cap learnerText cefr data) where
  cefr := hcefr
  errors_le := (List.length_filterMap_le _ _).trans (List.length_take_le _ _)
  errors := by
    intro e he
    obtain ⟨item, -, hitem⟩ := List.mem_filterMap.mp he
    unfold errorOf at hitem
    split_ifs at hitem with h
    obtain rfl := Option.some.inj hitem
    exact ⟨h.1, h.2, normalizeErrorType_mem _, textsOf_length py _ 2, textsOf_length py _ 2⟩
  words_le := (List.length_filterMap_le _ _).trans (List.length_take_le _ _)
  words := by
    intro w hw
    obtain ⟨item, -, hitem⟩ := List.mem_filterMap.mp hw
    unfold wordOf at hitem
    split_ifs at hitem with h
    obtain rfl := Option.some.inj hitem
    exact h

theorem readCefr_ok {value : Value} {fallbackCefr cefr : Text}
    (h : readCefr value fallbackCefr = .ok cefr) : cefr ∈ validCefr ∨ cefr = fallbackCefr := by
  unfold readCefr at h
  split at h
  · cases h
  · cases h
  · obtain rfl := Except.ok.inj h
    split_ifs with hvalid
    · exact .inl hvalid
    · exact .inr rfl
  · exact .inr (Except.ok.inj h).symm

/-- The analysis of the fields keeps its promise where it goes through. -/
theorem robust_fields_iff (py : Interpreter) (cap : Nat) (learnerText fallbackCefr : Text)
    (data : List (Text × Value)) :
    Robust cap learnerText fallbackCefr (do
      let cefr ← readCefr (Json.get data "cefr_estimate" (.str [])) fallbackCefr
      if ∀ v ∈ replyValues py cap learnerText data, Printable py v
      then .ok (resultOf py cap learnerText cefr data)
      else .error .recursionError) ↔
    Hashable (Json.get data "cefr_estimate" (.str [])) ∧
      ∀ v ∈ replyValues py cap learnerText data, Printable py v := by
  generalize hvalue : Json.get data "cefr_estimate" (.str []) = value
  have hread : Hashable value →
      (Robust cap learnerText fallbackCefr (do
        let cefr ← readCefr value fallbackCefr
        if ∀ v ∈ replyValues py cap learnerText data, Printable py v
        then .ok (resultOf py cap learnerText cefr data)
        else .error .recursionError) ↔
      ∀ v ∈ replyValues py cap learnerText data, Printable py v) := by
    intro hhashable
    obtain ⟨cefr, hcefr⟩ : ∃ cefr, readCefr value fallbackCefr = .ok cefr := by
      cases value <;> first | exact ⟨_, rfl⟩ | exact hhashable.elim
    rw [hcefr]
    show Robust cap learnerText fallbackCefr (if _ then _ else _) ↔ _
    split_ifs with hprintable
    · exact ⟨fun _ => hprintable, fun _ => wellFormed_resultOf py _ _ _ _ data (readCefr_ok hcefr)⟩
    · exact ⟨fun h => h.elim, fun h => hprintable h⟩
  by_cases hhashable : Hashable value
  · rw [hread hhashable]
    exact ⟨fun h => ⟨hhashable, h⟩, fun h => h.2⟩
  · cases value <;> first | exact (hhashable trivial).elim | exact ⟨fun h => h.elim, fun h => h.1.elim⟩

/-- **The analysis is robust wherever the interpreter gets through the reply.** For every reply
and every transcript it returns a well-formed result or raises `DebriefAnalysisError` exactly
then. -/
theorem analyze_robust_iff (py : Interpreter) (cfg : Settings) (turns : List Turn)
    (fallbackCefr : Text) (intensity : Option String) (reply : Text) :
    Robust (cfg.errorCap intensity) (learnerText cfg turns) fallbackCefr
        (analyze py cfg turns fallbackCefr intensity reply) ↔
      GoesThrough py (cfg.errorCap intensity) (learnerText cfg turns) reply := by
  rw [analyze_eq, parseDebriefJson]
  unfold GoesThrough
  cases hobject : extractJsonObject reply with
  | error e =>
    obtain ⟨message, rfl⟩ := extractJsonObject_error hobject
    exact ⟨fun _ object h => (by cases h), fun _ => trivial⟩
  | ok object =>
    simp only [Except.ok.injEq, forall_eq']
    change Robust _ _ _ (loadedObject (loads py.scanDepth object) >>= _) ↔ _
    cases loads py.scanDepth object with
    | error e =>
      cases e with
      | decode message =>
        exact ⟨fun _ => ⟨by simp, by simp, fun data h => by cases h⟩, fun _ => trivial⟩
      | digits => exact ⟨fun h => h.elim, fun h => absurd rfl h.1⟩
      | recursion => exact ⟨fun h => h.elim, fun h => absurd rfl h.2.1⟩
    | ok value =>
      cases value with
      | dict data =>
        refine (robust_fields_iff py _ _ fallbackCefr data).trans ⟨fun h => ?_, fun h => ?_⟩
        · refine ⟨by simp, by simp, fun data' hdata => ?_⟩
          cases hdata
          exact h
        · exact h.2.2 data rfl
      | _ => exact ⟨fun _ => ⟨by simp, by simp, fun data h => by cases h⟩, fun _ => trivial⟩

/-- A CPython whose stack holds a thousand containers. -/
def cpython : Interpreter where
  floatStr := id
  isPrintable := fun c => c < 0x7f
  depth := 1000
  scanDepth := 1000

/-- An estimate in a list escapes as a `TypeError`. -/
theorem analyze_listed_estimate :
    ¬ Robust 5 (text "I goed home") (text "A1")
      (analyze cpython ⟨5, 60⟩ [⟨some "user", some (text "I goed home")⟩] (text "A1") none
        (text "\x7b\"cefr_estimate\": [\"B1\"], \"summary\": \"ok\", \"errors\": []\x7d")) := by
  have hraised : analyze cpython ⟨5, 60⟩ [⟨some "user", some (text "I goed home")⟩] (text "A1") none
      (text "\x7b\"cefr_estimate\": [\"B1\"], \"summary\": \"ok\", \"errors\": []\x7d") =
        .error .typeError := by
    decide +kernel
  rw [hraised]
  exact id

end Apm.Debriefs.Analyzer
