import Mathlib.Data.List.DropRight

/-!
# Lines of a text

A text is a list of characters. Lines end at a line feed, at a carriage return and at the
pair of both; a last line without an end is a line if it is not empty. The text around the
characters of a class is trimmed at both ends.
-/

namespace Apm.Lib

set_option autoImplicit false

/-- The characters that end a line. -/
def isBreak (c : Char) : Bool := c = '\n' || c = '\r'

/-- The lines of a text behind `current`, the line so far in reverse. After a carriage
return a line feed is skipped. -/
def linesFrom (current : List Char) (skipLineFeed : Bool) : List Char → List (List Char)
  | [] => if current = [] then [] else [current.reverse]
  | c :: rest =>
    if c = '\n' then
      if skipLineFeed then linesFrom current false rest
      else current.reverse :: linesFrom [] false rest
    else if c = '\r' then current.reverse :: linesFrom [] true rest
    else linesFrom (c :: current) false rest

def lines (text : List Char) : List (List Char) := linesFrom [] false text

section lines

variable {line : List Char}

theorem linesFrom_append (h : ∀ c ∈ line, isBreak c = false) (current rest : List Char) :
    linesFrom current false (line ++ rest) = linesFrom (line.reverse ++ current) false rest := by
  induction line generalizing current with
  | nil => rfl
  | cons c line ih =>
    have hc : c ≠ '\n' ∧ c ≠ '\r' := by simpa [isBreak] using h c List.mem_cons_self
    rw [List.cons_append, linesFrom, if_neg hc.1, if_neg hc.2,
      ih (fun d hd => h d (List.mem_cons_of_mem _ hd))]
    simp

/-- A line that ends with a line feed is the first one. -/
theorem lines_append_newline (h : ∀ c ∈ line, isBreak c = false) (rest : List Char) :
    lines (line ++ '\n' :: rest) = line :: lines rest := by
  simp [lines, linesFrom_append h, linesFrom]

/-- A text without an end of line is one line at most. -/
theorem lines_unterminated (h : ∀ c ∈ line, isBreak c = false) :
    lines line = if line = [] then [] else [line] := by
  have hline := linesFrom_append h [] []
  simpa [lines, linesFrom] using hline

end lines

/-- The text without the characters of the class at its ends. -/
def trim (isSpace : Char → Bool) (text : List Char) : List Char :=
  (text.dropWhile isSpace).rdropWhile isSpace

section trim

variable {isSpace : Char → Bool} {text : List Char}

theorem trim_cons_space {c : Char} (h : isSpace c = true) :
    trim isSpace (c :: text) = trim isSpace text := by
  rw [trim, List.dropWhile_cons_of_pos h, trim]

/-- Behind a character that stays only the end is trimmed. -/
theorem trim_isPrefix {c : Char} (h : isSpace c = false) :
    trim isSpace (c :: text) <+: c :: text := by
  rw [trim, List.dropWhile_cons_of_neg (by simp [h])]
  exact List.rdropWhile_prefix _ _

/-- A text whose ends stay is trimmed to itself. -/
theorem trim_eq_self {c d : Char} (hc : isSpace c = false) (hd : isSpace d = false) :
    trim isSpace (c :: (text ++ [d])) = c :: (text ++ [d]) := by
  rw [trim, List.dropWhile_cons_of_neg (by simp [hc]), ← List.cons_append]
  exact List.rdropWhile_concat_neg _ _ _ (by simp [hd])

theorem dropWhile_cons_not {c : Char} {rest : List Char}
    (h : text.dropWhile isSpace = c :: rest) : isSpace c = false := by
  have hnot := List.dropWhile_get_zero_not (p := isSpace) text (by rw [h]; exact Nat.succ_pos _)
  simpa [h] using hnot

/-- There is nothing to trim off twice. -/
theorem trim_trim : trim isSpace (trim isSpace text) = trim isSpace text := by
  cases htrim : trim isSpace text with
  | nil => rfl
  | cons c rest =>
    have hinit : trim isSpace text <+: text.dropWhile isSpace := List.rdropWhile_prefix _ _
    rw [htrim] at hinit
    obtain ⟨more, hmore⟩ := hinit
    have hc : isSpace c = false := dropWhile_cons_not hmore.symm
    rw [trim, List.dropWhile_cons_of_neg (by simp [hc]), ← htrim, trim, List.rdropWhile_idempotent]

/-- Only characters of the class are trimmed off. -/
theorem filter_trim :
    ((trim isSpace text).filter fun c => !isSpace c) = text.filter fun c => !isSpace c := by
  have hspaces {l : List Char} (h : ∀ c ∈ l, isSpace c = true) :
      (l.filter fun c => !isSpace c) = [] :=
    List.filter_eq_nil_iff.mpr fun c hc => by simp [h c hc]
  have hleft : ((text.dropWhile isSpace).filter fun c => !isSpace c) =
      text.filter fun c => !isSpace c := by
    conv_rhs => rw [← List.takeWhile_append_dropWhile (p := isSpace) (l := text)]
    rw [List.filter_append, hspaces fun c hc => List.mem_takeWhile_imp hc, List.nil_append]
  rw [trim, ← hleft]
  conv_rhs =>
    rw [← List.rdropWhile_append_rtakeWhile (p := isSpace) (l := text.dropWhile isSpace)]
  rw [List.filter_append, hspaces fun c hc => List.mem_rtakeWhile_imp hc, List.append_nil]

end trim

/-- A prefix of two texts is a prefix of the first, or the first and a prefix of the second. -/
theorem prefix_append_cases {α : Type} {cut first second : List α} (h : cut <+: first ++ second) :
    cut <+: first ∨ ∃ rest, cut = first ++ rest ∧ rest <+: second := by
  rcases le_total cut.length first.length with hle | hle
  · exact .inl (List.prefix_of_prefix_length_le h (List.prefix_append _ _) hle)
  · obtain ⟨rest, rfl⟩ := List.prefix_of_prefix_length_le (List.prefix_append _ _) h hle
    exact .inr ⟨rest, rfl, (List.prefix_append_right_inj first).mp h⟩

/-- Where a separator comes first, both parts of a text are told. -/
theorem append_separator_inj {α : Type} {c : α} {xs xs' ys ys' : List α} (hxs : c ∉ xs)
    (hxs' : c ∉ xs') : xs ++ c :: ys = xs' ++ c :: ys' ↔ xs = xs' ∧ ys = ys' := by
  induction xs generalizing xs' with
  | nil =>
    cases xs' with
    | nil => simp
    | cons a xs' =>
      simp only [List.mem_cons, not_or] at hxs'
      simp [hxs'.1]
  | cons a xs ih =>
    simp only [List.mem_cons, not_or] at hxs
    cases xs' with
    | nil => simp [Ne.symm hxs.1]
    | cons a' xs' =>
      simp only [List.mem_cons, not_or] at hxs'
      rw [List.cons_append, List.cons_append, List.cons.injEq, ih hxs.2 hxs'.2, List.cons.injEq,
        and_assoc]

end Apm.Lib
