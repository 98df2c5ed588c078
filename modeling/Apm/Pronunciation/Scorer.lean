import Apm.Debriefs.Service
import Apm.Lib.Fields
import Apm.Lib.Stock
import Mathlib.Data.Rat.Floor

/-!
# Word scores from a verbose transcript

`score_words` finds for each word of the target the first transcribed word that is left of its
normal form. A transcribed word without a probability scores as presence: one or zero.
-/

namespace Apm.Pronunciation

set_option autoImplicit false

open Apm.Debriefs (isSpace)
open Apm.Lib

/-- A text is a list of characters. -/
abbrev Text := List Char

structure TranscriptWord where
  word : Text
  probability : Option ℚ

structure VerboseTranscript where
  text : Text
  words : List TranscriptWord

structure WordScore where
  word : Text
  score : Option ℚ
  confidence : Option ℚ
deriving DecidableEq

/-! ## Words of a text -/

/-- `[a-z0-9']` -/
def isWordChar (c : Char) : Bool :=
  ('a' ≤ c && c ≤ 'z') || ('0' ≤ c && c ≤ '9') || c.toNat = 0x27

/-- `_WORD.findall` -/
def findWords (text : Text) : List Text := fields (fun c => !isWordChar c) text

/-- `str.lower` as far as `_WORD` can see: besides the ASCII letters only the dotted capital I
and the Kelvin sign have a letter of the class in lower case. -/
def lowerChar (c : Char) : Text :=
  if c.toNat = 0x130 then ['i', Char.ofNat 0x307]
  else if c.toNat = 0x212a then ['k']
  else [c.toLower]

def lower (text : Text) : Text := text.flatMap lowerChar

/-- `str.split` without arguments. -/
def split (text : Text) : List Text := fields isSpace text

/-- `_normalize` -/
def normalize (word : Text) : Text := (findWords (lower word)).flatten

/-! ## `score_words` -/

/-- `_PRESENCE_CONFIDENCE` -/
def presenceConfidence : ℚ := 7 / 10

/-- `round(x, 3)`: the nearest thousandth, the even one of two. -/
def round3 (x : ℚ) : ℚ :=
  let below := ⌊1000 * x⌋
  let part := 1000 * x - below
  if part < 1 / 2 ∨ (part = 1 / 2 ∧ below % 2 = 0) then below / 1000 else (below + 1) / 1000

/-- `heard`: the probabilities of the transcribed words, by normal form. -/
abbrev Heard := Text → List (Option ℚ)

/-- `heard.setdefault(key, []).append(tw.probability)` -/
def hear (heard : Heard) (tw : TranscriptWord) : Heard :=
  let key := normalize tw.word
  if key = [] then heard else Function.update heard key (heard key ++ [tw.probability])

def scoreOf (raw : Text) : Option ℚ → WordScore
  | some probability => ⟨raw, some (round3 (max 0 (min 1 probability))), some presenceConfidence⟩
  | none => ⟨raw, some 1, some presenceConfidence⟩

/-- The loop over the words of the target. -/
def scoreLoop : Heard → List Text → List WordScore
  | _, [] => []
  | heard, raw :: rest =>
    let key := normalize raw
    if key = [] then scoreLoop heard rest
    else
      match heard key with
      | [] => ⟨raw, some 0, some presenceConfidence⟩ :: scoreLoop heard rest
      | probability :: probs =>
        scoreOf raw probability :: scoreLoop (Function.update heard key probs) rest

/-- `score_words` -/
def scoreWords (target : Text) (verbose : VerboseTranscript) : List WordScore :=
  if verbose.words = [] then
    ((split target).filter fun raw => normalize raw ≠ []).map fun raw => ⟨raw, none, none⟩
  else scoreLoop (verbose.words.foldl hear fun _ => []) (split target)

/-! ## Presence as a stock of words -/

/-- The words with a normal form. -/
def wordsOf (raws : List Text) : List Text := raws.filter fun raw => normalize raw ≠ []

/-- The normal forms of the words. -/
def keysOf (raws : List Text) : List Text := (wordsOf raws).map normalize

/-- A word that is there scores one, else zero. -/
def presence (raw : Text) (present : Bool) : WordScore :=
  ⟨raw, some (if present then 1 else 0), some presenceConfidence⟩

theorem wordsOf_cons_of_nil {raw : Text} (raws : List Text) (h : normalize raw = []) :
    wordsOf (raw :: raws) = wordsOf raws :=
  List.filter_cons_of_neg (by simp [h])

theorem wordsOf_cons {raw : Text} (raws : List Text) (h : normalize raw ≠ []) :
    wordsOf (raw :: raws) = raw :: wordsOf raws :=
  List.filter_cons_of_pos (by simp [h])

theorem keysOf_cons {raw : Text} (raws : List Text) (h : normalize raw ≠ []) :
    keysOf (raw :: raws) = normalize raw :: keysOf raws := by
  rw [keysOf, wordsOf_cons raws h, List.map_cons, keysOf]

/-- `probs.pop(0)` takes one from the stock. -/
theorem length_pop {heard : Heard} {key : Text} {p : Option ℚ} {probs : List (Option ℚ)}
    (h : heard key = p :: probs) : (fun other => (Function.update heard key probs other).length) =
      take (fun other => (heard other).length) key := by
  funext other
  by_cases hne : other = key
  · subst hne
    rw [take_self, Function.update_self, h, List.length_cons, Nat.add_sub_cancel]
  · rw [take_of_ne _ hne, Function.update_of_ne hne]

/-- Without probabilities the score of a word is its presence. -/
theorem scoreLoop_presence (heard : Heard) (hnone : ∀ key, ∀ p ∈ heard key, p = none)
    (raws : List Text) : scoreLoop heard raws = List.zipWith presence (wordsOf raws)
      (serve (fun key => (heard key).length) (keysOf raws)) := by
  induction raws generalizing heard with
  | nil => rfl
  | cons raw raws ih =>
    rw [scoreLoop]
    split_ifs with hkey
    · rw [ih heard hnone, keysOf, keysOf, wordsOf_cons_of_nil raws hkey]
    rw [wordsOf_cons raws hkey, keysOf_cons raws hkey, serve, List.zipWith_cons_cons]
    cases hheard : heard (normalize raw) with
    | nil =>
      have htake : take (fun key => (heard key).length) (normalize raw) =
          fun key => (heard key).length := take_of_eq_zero (by rw [hheard]; rfl)
      rw [htake, ← ih heard hnone]
      simp [presence]
    | cons p probs =>
      have hrest : ∀ key, ∀ q ∈ Function.update heard (normalize raw) probs key, q = none := by
        intro key q hq
        by_cases hne : key = normalize raw
        · subst hne
          rw [Function.update_self] at hq
          exact hnone (normalize raw) q (by rw [hheard]; exact List.mem_cons_of_mem _ hq)
        · rw [Function.update_of_ne hne] at hq
          exact hnone key q hq
      have hp : p = none := hnone (normalize raw) p (by rw [hheard]; exact List.mem_cons_self)
      show scoreOf raw p :: scoreLoop (Function.update heard (normalize raw) probs) raws = _
      rw [ih _ hrest, length_pop hheard, hp]
      simp [presence, scoreOf]

/-! ## The stock of a transcript -/

theorem keysOf_cons_append (raw : Text) (raws : List Text) :
    keysOf (raw :: raws) = keysOf [raw] ++ keysOf raws := by
  rw [keysOf, wordsOf, List.filter_cons]
  by_cases h : normalize raw = [] <;> simp [keysOf, wordsOf, h]

theorem length_hear (heard : Heard) (tw : TranscriptWord) (key : Text) :
    (hear heard tw key).length = (heard key).length + (keysOf [tw.word]).count key := by
  rw [hear]
  by_cases hkey : normalize tw.word = []
  · simp [hkey, keysOf, wordsOf]
  rw [if_neg hkey, keysOf_cons _ hkey]
  by_cases hsame : key = normalize tw.word
  · subst hsame
    simp [keysOf, wordsOf]
  · rw [Function.update_of_ne hsame, List.count_cons_of_ne (Ne.symm hsame)]
    simp [keysOf, wordsOf]

theorem length_heard (heard : Heard) (words : List TranscriptWord) (key : Text) :
    (words.foldl hear heard key).length =
      (heard key).length + (keysOf (words.map (·.word))).count key := by
  induction words generalizing heard with
  | nil => rfl
  | cons tw words ih =>
    rw [List.foldl_cons, ih, length_hear, List.map_cons, keysOf_cons_append _ (words.map _),
      List.count_append, Nat.add_assoc]

theorem heard_none {words : List TranscriptWord} (hwords : ∀ tw ∈ words, tw.probability = none)
    {heard : Heard} (hnone : ∀ key, ∀ p ∈ heard key, p = none) :
    ∀ key, ∀ p ∈ words.foldl hear heard key, p = none := by
  induction words generalizing heard with
  | nil => exact hnone
  | cons tw words ih =>
    rw [List.forall_mem_cons] at hwords
    refine ih hwords.2 fun key p hp => ?_
    rw [hear] at hp
    split_ifs at hp with hkey
    · exact hnone key p hp
    by_cases hsame : key = normalize tw.word
    · subst hsame
      rw [Function.update_self, List.mem_append, List.mem_singleton] at hp
      exact hp.elim (hnone _ p) fun heq => heq.trans hwords.1
    · rw [Function.update_of_ne hsame] at hp
      exact hnone key p hp

/-- A transcript without probabilities. -/
def unscored (text : Text) (words : List Text) : VerboseTranscript :=
  ⟨text, words.map fun word => ⟨word, none⟩⟩

/-- Each word of the target is there while a transcribed word of its normal form is left. -/
theorem scoreWords_presence (target text : Text) {words : List Text} (h : words ≠ []) :
    scoreWords target (unscored text words) = List.zipWith presence (wordsOf (split target))
      (serve (fun key => (keysOf words).count key) (keysOf (split target))) := by
  have hnonempty : (unscored text words).words ≠ [] := by simpa [unscored] using h
  have hnone : ∀ key, ∀ p ∈ (unscored text words).words.foldl hear (fun _ => []) key, p = none :=
    heard_none (by simp [unscored]) (by simp)
  have hstock : (fun key => ((unscored text words).words.foldl hear (fun _ => []) key).length) =
      fun key => (keysOf words).count key := by
    funext key
    rw [length_heard]
    simp [unscored, Function.comp_def]
  rw [scoreWords, if_neg hnonempty, scoreLoop_presence _ hnone, hstock]

end Apm.Pronunciation
