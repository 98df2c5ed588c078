import Apm.Debriefs.Service
import Apm.Lib.Drain
import Apm.Lib.Lines
import Mathlib.Data.String.Basic
import Mathlib.Data.List.DropRight

/-!
# Sentences of a streamed reply

`stream_complete` of the OpenAI-compatible provider appends each delta to a buffer and takes
every complete sentence out of it. A sentence ends at terminal punctuation with its closing
quotes and brackets, once white space follows: nothing that arrives later moves such an end.
-/

namespace Apm.Llm

set_option autoImplicit false

open Apm.Debriefs (isSpace strip)
open Apm.Lib

/-! ## `_SENTENCE_END` -/

/-- `[.!?]` -/
def isTerminal (c : Char) : Bool := c = '.' || c = '!' || c = '?'

/-- `["')\]]` -/
def isCloser (c : Char) : Bool := c.toNat = 0x22 || c.toNat = 0x27 || c = ')' || c = ']'

/-- The length of a match at the start of the text. Both runs are as long as they can be: a
shorter one is followed by a character of its own run, which is no white space. -/
def matchLength (text : List Char) : Option Nat :=
  let run := text.takeWhile isTerminal
  let closers := (text.dropWhile isTerminal).takeWhile isCloser
  match run, (text.dropWhile isTerminal).dropWhile isCloser with
  | _ :: _, c :: _ => if isSpace c then some (run.length + closers.length) else none
  | _, _ => none

/-- The first position where there is a match, and the length of the match. -/
def firstMatch : List Char → Option (Nat × Nat)
  | [] => none
  | c :: text =>
    match matchLength (c :: text) with
    | some length => some (0, length)
    | none => (firstMatch text).map fun found => (found.1 + 1, found.2)

/-- `_SENTENCE_END.search(buffer, search_from)`: the start and the end of the match. -/
def searchSentenceEnd (buffer : List Char) (searchFrom : Nat) : Option (Nat × Nat) :=
  (firstMatch (buffer.drop searchFrom)).map fun found =>
    (searchFrom + found.1, searchFrom + found.1 + found.2)

/-! ## Abbreviations -/

/-- `_ABBREVIATIONS` -/
def abbreviations : List String :=
  ["mr", "mrs", "ms", "dr", "prof", "st", "sr", "jr", "vs", "etc", "e.g", "i.e", "a.m", "p.m",
    "u.s", "u.k"]

/-- `[A-Za-z]` -/
def isLetter (c : Char) : Bool := ('A' ≤ c && c ≤ 'Z') || ('a' ≤ c && c ≤ 'z')

/-- `_TRAILING_WORD.search(text)`: the letters and dots at the end, from the first letter on.
The pattern's end is that of the text, or before a line feed that ends it. -/
def trailingWord (text : List Char) : Option (List Char) :=
  let text := if text.getLast? = some '\n' then text.dropLast else text
  match (text.rtakeWhile fun c => isLetter c || c = '.').dropWhile fun c => !isLetter c with
  | [] => none
  | word => some word

/-- `_ends_with_abbreviation` -/
def endsWithAbbreviation (textBeforePeriod : List Char) : Bool :=
  match trailingWord textBeforePeriod with
  | none => false
  | some group =>
    let word := trim (· = '.') (group.map Char.toLower)
    if word = [] then false else word.length = 1 || abbreviations.contains (String.ofList word)

/-! ## The buffer -/

/-- The match is a lone period after an abbreviation. -/
def isAbbreviation (buffer : List Char) (start final : Nat) : Bool :=
  ((buffer.take final).drop start).rdropWhile isCloser = ['.'] &&
    endsWithAbbreviation (buffer.take start)

theorem isTerminal_not_space {c : Char} (h : isTerminal c = true) : isSpace c = false := by
  simp only [isTerminal, Bool.or_eq_true, decide_eq_true_eq] at h
  obtain (rfl | rfl) | rfl := h <;> decide

theorem isCloser_not_space {c : Char} (h : isCloser c = true) : isSpace c = false := by
  simp only [isCloser, Bool.or_eq_true, decide_eq_true_eq] at h
  obtain ((hc | hc) | rfl) | rfl := h
  · simp [isSpace, hc]
  · simp [isSpace, hc]
  · decide
  · decide

/-- A match is two runs before white space. -/
theorem matchLength_some {text : List Char} {length : Nat} (h : matchLength text = some length) :
    ∃ c rest, (text.dropWhile isTerminal).dropWhile isCloser = c :: rest ∧ isSpace c = true ∧
      0 < length ∧ length = (text.takeWhile isTerminal).length +
        ((text.dropWhile isTerminal).takeWhile isCloser).length := by
  rw [matchLength] at h
  split at h
  next a run c rest hrun hrest =>
    split_ifs at h with hspace
    simp only [Option.some_inj] at h
    exact ⟨c, rest, hrest, hspace, by rw [← h, hrun, List.length_cons]; omega, h.symm⟩
  next => exact absurd h (by simp)

theorem runs_append (text : List Char) : text = text.takeWhile isTerminal ++
    ((text.dropWhile isTerminal).takeWhile isCloser ++
      (text.dropWhile isTerminal).dropWhile isCloser) := by
  rw [List.takeWhile_append_dropWhile, List.takeWhile_append_dropWhile]

theorem matchLength_lt {text : List Char} {length : Nat} (h : matchLength text = some length) :
    0 < length ∧ length < text.length := by
  obtain ⟨c, rest, hrest, -, hpos, hlength⟩ := matchLength_some h
  have hruns := congrArg List.length (runs_append text)
  rw [hrest, List.length_append, List.length_append, List.length_cons] at hruns
  omega

theorem firstMatch_lt {text : List Char} {skipped length : Nat}
    (h : firstMatch text = some (skipped, length)) :
    0 < length ∧ skipped + length < text.length := by
  induction text generalizing skipped with
  | nil => cases h
  | cons c text ih =>
    rw [firstMatch] at h
    split at h
    next found hfound =>
      simp only [Option.some_inj, Prod.mk.injEq] at h
      obtain ⟨rfl, rfl⟩ := h
      have := matchLength_lt hfound
      omega
    next =>
      obtain ⟨⟨skipped', length'⟩, hfound, heq⟩ := Option.map_eq_some_iff.mp h
      simp only [Prod.mk.injEq] at heq
      obtain ⟨rfl, rfl⟩ := heq
      have := ih hfound
      rw [List.length_cons]
      omega

theorem searchSentenceEnd_lt {buffer : List Char} {searchFrom start final : Nat}
    (h : searchSentenceEnd buffer searchFrom = some (start, final)) :
    searchFrom ≤ start ∧ start < final ∧ final < buffer.length := by
  obtain ⟨⟨skipped, length⟩, hfound, heq⟩ := Option.map_eq_some_iff.mp h
  simp only [Prod.mk.injEq] at heq
  obtain ⟨rfl, rfl⟩ := heq
  have := firstMatch_lt hfound
  rw [List.length_drop] at this
  omega

/-- The loop over the sentences that the buffer holds: those it yields, and what is left. -/
def takeSentences (buffer : List Char) (searchFrom : Nat) : List String × List Char :=
  match _h : searchSentenceEnd buffer searchFrom with
  | none => ([], buffer)
  | some (start, final) =>
    if isAbbreviation buffer start final then takeSentences buffer final
    else
      let sentence := strip (String.ofList (buffer.take final))
      let later := takeSentences (buffer.drop final) 0
      (if sentence = "" then later.1 else sentence :: later.1, later.2)
termination_by (buffer.length, buffer.length - searchFrom)
decreasing_by
  · have := searchSentenceEnd_lt _h
    exact Prod.Lex.right _ (by omega)
  · have := searchSentenceEnd_lt _h
    exact Prod.Lex.left _ _ (by rw [List.length_drop]; omega)

/-- How the stream of the client ends. -/
inductive StreamEnd
  | done
  | failed

def receive (state : List String × List Char) (delta : Option String) :
    List String × List Char :=
  match delta with
  | none => state
  | some delta =>
    if delta = "" then state
    else
      let taken := takeSentences (state.2 ++ delta.toList) 0
      (state.1 ++ taken.1, taken.2)

/-- The sentences that are yielded, and whether `LlmProviderError` is raised behind them. -/
def streamComplete (deltas : List (Option String)) (last : StreamEnd) : List String × Bool :=
  let received := deltas.foldl receive ([], [])
  match last with
  | .failed => (received.1, true)
  | .done =>
    let tail := strip (String.ofList received.2)
    (if tail = "" then received.1 else received.1 ++ [tail], false)

/-! ## What arrives later does not move a match -/

theorem takeWhile_append_stable {p : Char → Bool} {text more : List Char}
    (h : text.dropWhile p ≠ []) : (text ++ more).takeWhile p = text.takeWhile p := by
  rw [List.takeWhile_append, if_neg]
  intro hlen
  have hsplit := congrArg List.length (List.takeWhile_append_dropWhile (p := p) (l := text))
  rw [List.length_append] at hsplit
  exact h (List.eq_nil_of_length_eq_zero (by omega))

theorem dropWhile_append_stable {p : Char → Bool} {text more : List Char}
    (h : text.dropWhile p ≠ []) : (text ++ more).dropWhile p = text.dropWhile p ++ more := by
  rw [List.dropWhile_append, if_neg (by simpa using h)]

/-- A run that does not reach the end of the text stays as it is. -/
theorem matchLength_append {text : List Char} (more : List Char)
    (h : (text.dropWhile isTerminal).dropWhile isCloser ≠ []) :
    matchLength (text ++ more) = matchLength text := by
  have hdrop : text.dropWhile isTerminal ≠ [] := by
    intro hnil
    rw [hnil] at h
    exact h rfl
  obtain ⟨c, rest, hrest⟩ := List.exists_cons_of_ne_nil h
  rw [matchLength, matchLength, takeWhile_append_stable hdrop, dropWhile_append_stable hdrop,
    takeWhile_append_stable h, dropWhile_append_stable h, hrest]
  cases text.takeWhile isTerminal <;> rfl

theorem exists_space_of_firstMatch {text : List Char} {found : Nat × Nat}
    (h : firstMatch text = some found) : ∃ c ∈ text, isSpace c = true := by
  induction text generalizing found with
  | nil => cases h
  | cons c text ih =>
    rw [firstMatch] at h
    split at h
    next length hlength =>
      obtain ⟨d, rest, hrest, hspace, -, -⟩ := matchLength_some hlength
      refine ⟨d, ?_, hspace⟩
      rw [runs_append (c :: text), hrest]
      simp
    next =>
      obtain ⟨found', hfound, -⟩ := Option.map_eq_some_iff.mp h
      obtain ⟨d, hd, hspace⟩ := ih hfound
      exact ⟨d, List.mem_cons_of_mem c hd, hspace⟩

/-- Where the text goes on to a match, a position without one stays without one. -/
theorem matchLength_append_none {c : Char} {text : List Char} {found : Nat × Nat}
    (more : List Char) (h : matchLength (c :: text) = none) (hfound : firstMatch text = some found) :
    matchLength (c :: text ++ more) = none := by
  by_cases hrest : ((c :: text).dropWhile isTerminal).dropWhile isCloser = []
  · by_cases hc : isTerminal c = true
    · -- the runs reach the end of the text, so there is no white space for a later match
      obtain ⟨d, hd, hspace⟩ := exists_space_of_firstMatch hfound
      have hmem : d ∈ c :: text := List.mem_cons_of_mem c hd
      rw [runs_append (c :: text), hrest, List.append_nil] at hmem
      obtain hmem | hmem := List.mem_append.mp hmem
      · rw [isTerminal_not_space (List.mem_takeWhile_imp hmem)] at hspace
        cases hspace
      · rw [isCloser_not_space (List.mem_takeWhile_imp hmem)] at hspace
        cases hspace
    · rw [matchLength, List.cons_append, List.takeWhile_cons_of_neg hc]
  · rw [matchLength_append more hrest, h]

theorem firstMatch_append {text : List Char} {found : Nat × Nat} (more : List Char)
    (h : firstMatch text = some found) : firstMatch (text ++ more) = some found := by
  induction text generalizing found with
  | nil => cases h
  | cons c text ih =>
    rw [firstMatch] at h
    rw [List.cons_append, firstMatch, ← List.cons_append]
    split at h
    next length hlength =>
      obtain ⟨d, rest, hrest, -⟩ := matchLength_some hlength
      rw [matchLength_append more (by rw [hrest]; exact List.cons_ne_nil _ _), hlength]
      exact h
    next hnone =>
      obtain ⟨found', hfound, heq⟩ := Option.map_eq_some_iff.mp h
      rw [matchLength_append_none more hnone hfound, ih hfound]
      exact congrArg some heq

theorem searchSentenceEnd_append {buffer : List Char} {searchFrom : Nat} {found : Nat × Nat}
    (more : List Char) (h : searchSentenceEnd buffer searchFrom = some found) :
    searchSentenceEnd (buffer ++ more) searchFrom = some found := by
  have hlt := searchSentenceEnd_lt h
  rw [searchSentenceEnd, List.drop_append_of_le_length (by omega)]
  obtain ⟨inner, hinner, heq⟩ := Option.map_eq_some_iff.mp h
  rw [firstMatch_append more hinner]
  exact congrArg some heq

theorem isAbbreviation_append {buffer : List Char} {start final : Nat} (more : List Char)
    (hstart : start ≤ final) (hfinal : final ≤ buffer.length) :
    isAbbreviation (buffer ++ more) start final = isAbbreviation buffer start final := by
  rw [isAbbreviation, isAbbreviation, List.take_append_of_le_length hfinal,
    List.take_append_of_le_length (hstart.trans hfinal)]

/-! ## One round of the loop -/

variable {buffer : List Char} {searchFrom start final : Nat}

theorem takeSentences_none (h : searchSentenceEnd buffer searchFrom = none) :
    takeSentences buffer searchFrom = ([], buffer) := by
  rw [takeSentences]
  split
  next => rfl
  next hsome => rw [h] at hsome; cases hsome

theorem takeSentences_some (h : searchSentenceEnd buffer searchFrom = some (start, final)) :
    takeSentences buffer searchFrom =
      if isAbbreviation buffer start final then takeSentences buffer final
      else
        let sentence := strip (String.ofList (buffer.take final))
        let later := takeSentences (buffer.drop final) 0
        (if sentence = "" then later.1 else sentence :: later.1, later.2) := by
  rw [takeSentences]
  split
  next hnone => rw [h] at hnone; cases hnone
  next hsome =>
    rw [h] at hsome
    cases hsome
    rfl

/-- What is taken before a piece arrives is what would have been taken first, from the position
where the search stands on. -/
theorem takeSentences_append (more : List Char)
    (hfrom : ∀ more, takeSentences (buffer ++ more) 0 = takeSentences (buffer ++ more) searchFrom) :
    takeSentences (buffer ++ more) searchFrom =
      ((takeSentences buffer searchFrom).1 ++
          (takeSentences ((takeSentences buffer searchFrom).2 ++ more) 0).1,
        (takeSentences ((takeSentences buffer searchFrom).2 ++ more) 0).2) := by
  induction buffer, searchFrom using takeSentences.induct with
  | case1 buffer searchFrom hnone =>
    rw [takeSentences_none hnone, hfrom more, List.nil_append]
  | case2 buffer searchFrom start final hsome habbreviation ih =>
    have hlt := searchSentenceEnd_lt hsome
    have hskip : ∀ more, takeSentences (buffer ++ more) searchFrom =
        takeSentences (buffer ++ more) final := by
      intro more
      rw [takeSentences_some (searchSentenceEnd_append more hsome),
        isAbbreviation_append more (by omega) (by omega), if_pos habbreviation]
    have hhere : takeSentences buffer searchFrom = takeSentences buffer final := by
      rw [takeSentences_some hsome, if_pos habbreviation]
    rw [hskip more, hhere]
    exact ih fun more => (hfrom more).trans (hskip more)
  | case3 buffer searchFrom start final hsome habbreviation ih =>
    have hlt := searchSentenceEnd_lt hsome
    rw [takeSentences_some (searchSentenceEnd_append more hsome),
      isAbbreviation_append more (by omega) (by omega), if_neg habbreviation,
      takeSentences_some hsome, if_neg habbreviation, List.take_append_of_le_length (by omega),
      List.drop_append_of_le_length (by omega), ih fun _ => rfl]
    dsimp only
    split_ifs <;> rfl

theorem drainsEarly_takeSentences : DrainsEarly fun buffer => takeSentences buffer 0 :=
  fun _ piece => takeSentences_append piece fun _ => rfl

/-! ## The sentences of a whole text -/

/-- The text of a stream of deltas. -/
def textOf (deltas : List (Option String)) : List Char :=
  (deltas.map fun delta => (delta.getD "").toList).flatten

/-- A delta is fed to the buffer; one without text changes nothing. -/
theorem receive_takeSentences (text : List Char) (delta : Option String) :
    receive (takeSentences text 0) delta =
      takeSentences (text ++ (delta.getD "").toList) 0 := by
  have hfeed : takeSentences (text ++ (delta.getD "").toList) 0 =
      feed (fun buffer => takeSentences buffer 0) (takeSentences text 0) (delta.getD "").toList :=
    drainsEarly_takeSentences text (delta.getD "").toList
  have hrest : feed (fun buffer => takeSentences buffer 0) (takeSentences text 0) [] =
      takeSentences text 0 := by
    rw [drainsEarly_takeSentences.feed_drained, List.append_nil]
  rw [hfeed]
  cases delta with
  | none => exact hrest.symm
  | some delta =>
    by_cases hempty : delta = ""
    · rw [receive, if_pos hempty, hempty]
      exact hrest.symm
    · rw [receive, if_neg hempty]
      rfl

theorem foldl_receive (deltas : List (Option String)) :
    deltas.foldl receive ([], []) = takeSentences (textOf deltas) 0 := by
  have hempty : takeSentences [] 0 = ([], []) := takeSentences_none rfl
  have hfold : deltas.foldl receive (takeSentences [] 0) =
      takeSentences ([] ++ textOf deltas) 0 :=
    foldl_drained receive_takeSentences [] deltas
  rwa [hempty, List.nil_append] at hfold

/-- The sentences of a text, the last one without its end. -/
def sentencesOf (text : List Char) : List String :=
  let taken := takeSentences text 0
  let tail := strip (String.ofList taken.2)
  if tail = "" then taken.1 else taken.1 ++ [tail]

theorem streamComplete_done (deltas : List (Option String)) :
    streamComplete deltas .done = (sentencesOf (textOf deltas), false) := by
  rw [streamComplete, foldl_receive]
  rfl

/-- A sentence has characters, and no white space at its ends. -/
def IsTrimmed (sentence : String) : Prop := sentence ≠ "" ∧ strip sentence = sentence

theorem isTrimmed_strip {text : String} (h : strip text ≠ "") : IsTrimmed (strip text) := by
  refine ⟨h, ?_⟩
  have hstrip (s : String) : strip s = String.ofList (trim isSpace s.toList) := rfl
  rw [hstrip, hstrip, String.toList_ofList, trim_trim]

theorem isTrimmed_of_mem_takeSentences {sentence : String}
    (h : sentence ∈ (takeSentences buffer searchFrom).1) : IsTrimmed sentence := by
  induction buffer, searchFrom using takeSentences.induct with
  | case1 buffer searchFrom hnone =>
    rw [takeSentences_none hnone] at h
    cases h
  | case2 buffer searchFrom start final hsome habbreviation ih =>
    rw [takeSentences_some hsome, if_pos habbreviation] at h
    exact ih h
  | case3 buffer searchFrom start final hsome habbreviation ih =>
    rw [takeSentences_some hsome, if_neg habbreviation] at h
    dsimp only at h
    split_ifs at h with hempty
    · exact ih h
    · obtain rfl | h := List.mem_cons.mp h
      · exact isTrimmed_strip hempty
      · exact ih h

/-- The characters of a text that are no white space. -/
def squeeze (text : List Char) : List Char := text.filter fun c => !isSpace c

theorem squeeze_append (text more : List Char) :
    squeeze (text ++ more) = squeeze text ++ squeeze more := List.filter_append ..

theorem squeeze_strip (text : List Char) :
    squeeze (strip (String.ofList text)).toList = squeeze text := by
  have hstrip : strip (String.ofList text) = String.ofList (trim isSpace text) := by
    rw [strip, String.toList_ofList]
    rfl
  rw [hstrip, String.toList_ofList]
  exact filter_trim

theorem squeeze_of_strip_empty {text : List Char} (h : strip (String.ofList text) = "") :
    squeeze text = [] := by
  rw [← squeeze_strip, h]
  rfl

/-- All the text of some sentences. -/
def joined (sentences : List String) : List Char := (sentences.map String.toList).flatten

theorem squeeze_takeSentences (buffer : List Char) (searchFrom : Nat) :
    squeeze (joined (takeSentences buffer searchFrom).1) ++
      squeeze (takeSentences buffer searchFrom).2 = squeeze buffer := by
  induction buffer, searchFrom using takeSentences.induct with
  | case1 buffer searchFrom hnone =>
    rw [takeSentences_none hnone]
    rfl
  | case2 buffer searchFrom start final hsome habbreviation ih =>
    rw [takeSentences_some hsome, if_pos habbreviation]
    exact ih
  | case3 buffer searchFrom start final hsome habbreviation ih =>
    rw [takeSentences_some hsome, if_neg habbreviation]
    conv_rhs => rw [← List.take_append_drop final buffer, squeeze_append, ← ih]
    dsimp only
    split_ifs with hempty
    · rw [squeeze_of_strip_empty hempty, List.nil_append]
    · have hjoined (sentence : String) (later : List String) :
          joined (sentence :: later) = sentence.toList ++ joined later := rfl
      rw [hjoined, squeeze_append, squeeze_strip, List.append_assoc]

/-- The sentences of a stream do not depend on how its text is cut into deltas, each of them has
characters and is trimmed, and together they have all the text but its white space. -/
theorem streamComplete_cut (deltas deltas' : List (Option String))
    (h : textOf deltas = textOf deltas') :
    streamComplete deltas .done = streamComplete deltas' .done ∧
      (streamComplete deltas .done).2 = false ∧
      (∀ sentence ∈ (streamComplete deltas .done).1, IsTrimmed sentence) ∧
      squeeze (joined (streamComplete deltas .done).1) = squeeze (textOf deltas) := by
  refine ⟨by rw [streamComplete_done, streamComplete_done, h], by rw [streamComplete_done],
    fun sentence hmem => ?_, ?_⟩
  · rw [streamComplete_done] at hmem
    dsimp only [sentencesOf] at hmem
    split_ifs at hmem with hempty
    · exact isTrimmed_of_mem_takeSentences hmem
    · obtain hmem | hmem := List.mem_append.mp hmem
      · exact isTrimmed_of_mem_takeSentences hmem
      · rw [List.mem_singleton.mp hmem]
        exact isTrimmed_strip hempty
  · rw [streamComplete_done, ← squeeze_takeSentences (textOf deltas) 0]
    dsimp only [sentencesOf]
    split_ifs with hempty
    · rw [squeeze_of_strip_empty hempty, List.append_nil]
    · have hjoined (sentences : List String) (tail : String) :
          joined (sentences ++ [tail]) = joined sentences ++ tail.toList := by simp [joined]
      rw [hjoined, squeeze_append, squeeze_strip]

/-- A cut within the punctuation, and a delta without text. -/
theorem streamComplete_cut_punctuation :
    streamComplete [some "Oh?", none, some "! Mr", some ". ", some "", some "X"] .done =
      streamComplete [some "Oh?! Mr. X"] .done :=
  (streamComplete_cut _ _ (by decide)).1

end Apm.Llm
