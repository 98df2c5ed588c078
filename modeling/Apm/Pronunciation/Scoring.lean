import Apm.Pronunciation.Alignment
import Apm.Pronunciation.Scorer

/-!
# Goodness of pronunciation

`score` turns a target text into phonemes, keeps those the acoustic model knows, aligns them to
the frames of the recording and compares each one with its best competitor on its frames. Every
phoneme that is known gets a score, in the order of the text, and a phoneme that no frame was
aligned to gets zero. The phonemizer, the acoustic model and `math.exp` are parameters; `math.exp`
raises where its value is no float.
-/

namespace Apm.Pronunciation

set_option autoImplicit false

open Apm.Debriefs (isSpace)
open Apm.Lib

/-! ## The phonemes of a text -/

/-- `split_phonemes` -/
def splitPhonemes (phonemized : Text) : List Text :=
  fields (fun c => c = '\n' || c = '|' || c = ' ') phonemized

structure PhonemizeError where
deriving DecidableEq, Repr

/-- `phonemize_text`, over the backend. -/
def phonemizeText (backend : Text → Option Text) (text : Text) : Except PhonemizeError (List Text) :=
  if text.all isSpace then .ok []
  else
    match backend text with
    | some phonemized => .ok (splitPhonemes phonemized)
    | none => .error ⟨⟩

/-! ## The acoustic model -/

/-- The vocabulary in the order of the ids, and the log-probabilities of each frame over it. -/
structure PhonemeAcousticModel (Samples : Type) where
  alphabet : List Text
  nodup : alphabet.Nodup
  blankId : Nat
  blank_lt : blankId < alphabet.length
  emissionLogProbs : Samples → List (List ℚ)
  width : ∀ samples, ∀ row ∈ emissionLogProbs samples, row.length = alphabet.length

namespace PhonemeAcousticModel

variable {Samples : Type} (M : PhonemeAcousticModel Samples)

def phonemeToId (phoneme : Text) : Option Nat :=
  if phoneme ∈ M.alphabet then some (M.alphabet.idxOf phoneme) else none

def idToPhoneme (id : Nat) : Option Text := M.alphabet[id]?

end PhonemeAcousticModel

/-! ## The scores -/

structure PhonemeScore where
  phoneme : Text
  score : ℚ
  start : Int
  stop : Int
deriving DecidableEq

/-- The loop of `_gop_at`: the blank and the target do not compete. -/
def bestCompetitor (row : List ℚ) (targetId blank : Nat) : WithBot ℚ :=
  row.zipIdx.foldl (fun best entry =>
    if entry.2 = targetId ∨ entry.2 = blank then best
    else if best < entry.1 then (entry.1 : WithBot ℚ) else best) ⊥

/-- `_gop_at` -/
def gopAt (row : List ℚ) (targetId blank : Nat) : Option ℚ :=
  row[targetId]?.map fun targetLp =>
    match bestCompetitor row targetId blank with
    | none => 0
    | some competitorLp => targetLp - competitorLp

inductive ScoreError where
  | phonemize
  | indexError
  | overflowError
deriving DecidableEq, Repr

variable (exp : ℚ → Option ℚ)

/-- `_gop_to_score` -/
def gopToScore (gop : ℚ) : Except ScoreError ℚ :=
  match exp (-(gop + 3) * (3 / 2)) with
  | some value => .ok (1 / (1 + value))
  | none => .error .overflowError

/-- The score of one target over its span. -/
def scoreSpan (logProbs : List (List ℚ)) (idToPhoneme : Nat → Option Text) (blank targetId : Nat)
    (span : Int × Int) : Except ScoreError PhonemeScore :=
  let phoneme := (idToPhoneme targetId).getD ['?']
  if span.2 < span.1 then .ok ⟨phoneme, 0, span.1, span.2⟩
  else
    let frames := List.range' span.1.toNat (span.2 + 1 - span.1).toNat
    match frames.mapM fun f => logProbs[f]?.bind fun row => gopAt row targetId blank with
    | none => .error .indexError
    | some gops => do
      let score ← gopToScore exp (gops.sum / gops.length)
      .ok ⟨phoneme, round3 score, span.1, span.2⟩

/-- `gop_scores` -/
def gopScores (logProbs : List (List ℚ)) (targetIds : List Nat) (idToPhoneme : Nat → Option Text)
    (blank : Nat) : Except ScoreError (List PhonemeScore) :=
  match forcedAlign logProbs targetIds blank with
  | none => .error .indexError
  | some spans =>
    (targetIds.zip spans).mapM fun entry =>
      scoreSpan exp logProbs idToPhoneme blank entry.1 entry.2

/-- `ScoringService.score` -/
def score {Samples : Type} (M : PhonemeAcousticModel Samples) (backend : Text → Option Text)
    (samples : Samples) (targetText : Text) : Except ScoreError (List PhonemeScore) :=
  match phonemizeText backend targetText with
  | .error _ => .error .phonemize
  | .ok expected =>
    let targetIds := expected.filterMap M.phonemeToId
    if targetIds = [] then .ok []
    else gopScores exp (M.emissionLogProbs samples) targetIds M.idToPhoneme M.blankId

/-! ## One score a phoneme -/

variable {exp}

section span

variable {logProbs : List (List ℚ)} {idToPhoneme : Nat → Option Text} {blank targetId : Nat}
  {span : Int × Int}

end span

variable {Samples : Type} (M : PhonemeAcousticModel Samples)

end Apm.Pronunciation
