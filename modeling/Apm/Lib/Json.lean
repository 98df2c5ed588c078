import Mathlib.Data.List.Basic
import Mathlib.Tactic.Common

/-!
# JSON as Python reads it

`loads` reads a text as `json.loads` does: tokens from the left, and a stack of the containers
that are open. It fails with a decoding error, with the error of an integer of too many digits,
or with the error of containers nested deeper than the interpreter's stack; what comes first in
the text decides. A text is a list of code points, as an escape may leave half of a surrogate
pair. The column and line of a decoding error are left out of its message.
-/

namespace Apm.Lib.Json

set_option autoImplicit false

abbrev Text := List Nat

/-- The code points of a literal. -/
def text (s : String) : Text := s.toList.map Char.toNat

inductive Value where
  | null
  | bool (b : Bool)
  | int (n : Int)
  /-- by its literal -/
  | float (literal : Text)
  | str (s : Text)
  | list (items : List Value)
  | dict (entries : List (Text × Value))

inductive LoadError where
  /-- `JSONDecodeError` -/
  | decode (message : String)
  /-- `ValueError`: an integer with more digits than `int` converts -/
  | digits
  /-- `RecursionError` -/
  | recursion
  deriving DecidableEq, Repr

inductive Token where
  | scalar (v : Value)
  | str (s : Text)
  | openList
  | closeList
  | openDict
  | closeDict
  | comma
  | colon
  /-- a string that cannot be read -/
  | badStr (e : LoadError)
  | bad (e : LoadError)

/-! ## Strings -/

def quote : Nat := 0x22
def backslash : Nat := 0x5c

def hexDigit (c : Nat) : Option Nat :=
  if 0x30 ≤ c ∧ c ≤ 0x39 then some (c - 0x30)
  else if 0x61 ≤ c ∧ c ≤ 0x66 then some (c - 0x57)
  else if 0x41 ≤ c ∧ c ≤ 0x46 then some (c - 0x37)
  else none

def hex4 (a b c d : Nat) : Option Nat := do
  return (((← hexDigit a) * 16 + (← hexDigit b)) * 16 + (← hexDigit c)) * 16 + (← hexDigit d)

def isHighSurrogate (n : Nat) : Bool := 0xd800 ≤ n && n ≤ 0xdbff
def isLowSurrogate (n : Nat) : Bool := 0xdc00 ≤ n && n ≤ 0xdfff

def joinSurrogates (high low : Nat) : Nat := 0x10000 + (high - 0xd800) * 0x400 + (low - 0xdc00)

/-- The escapes of one character. -/
def escaped (c : Nat) : Option Nat :=
  if c = quote ∨ c = backslash ∨ c = 0x2f then some c
  else if c = 0x62 then some 0x8
  else if c = 0x66 then some 0xc
  else if c = 0x6e then some 0xa
  else if c = 0x72 then some 0xd
  else if c = 0x74 then some 0x9
  else none

def invalidUnicodeEscape : LoadError := .decode "Invalid \\uXXXX escape"

def unterminated : LoadError := .decode "Unterminated string starting at"

/-- One more character of the string that is read. -/
def prepend (c : Nat) (read : Except LoadError Text × Text) : Except LoadError Text × Text :=
  (read.1.map (c :: ·), read.2)

/-- Behind the code point of half a surrogate pair: the other half, if it is there. -/
def scanLowSurrogate (high : Nat) (s : Text) : Except LoadError Nat × Text :=
  match s with
  | 0x5c :: 0x75 :: a :: b :: c :: d :: e :: rest =>
    match hex4 a b c d with
    | none => (.error invalidUnicodeEscape, e :: rest)
    | some low => if isLowSurrogate low then (.ok (joinSurrogates high low), e :: rest) else (.ok high, s)
  | _ => (.ok high, s)

/-- What follows `\\u`. -/
def scanUnicode (s : Text) : Except LoadError Nat × Text :=
  match s with
  | a :: b :: c :: d :: e :: rest =>
    match hex4 a b c d with
    | none => (.error invalidUnicodeEscape, e :: rest)
    | some n => if isHighSurrogate n then scanLowSurrogate n (e :: rest) else (.ok n, e :: rest)
  | _ => (.error invalidUnicodeEscape, s)

/-- What follows a backslash. -/
def scanEscape (s : Text) : Except LoadError Nat × Text :=
  match s with
  | [] => (.error unterminated, [])
  | e :: rest =>
    if e = 0x75 then scanUnicode rest
    else
      match escaped e with
      | some c => (.ok c, rest)
      | none => (.error (.decode "Invalid \\escape"), rest)

theorem length_scanLowSurrogate (high : Nat) (s : Text) :
    (scanLowSurrogate high s).2.length ≤ s.length := by
  unfold scanLowSurrogate
  split
  · split
    · simp only [List.length_cons]
      omega
    · split_ifs <;> simp only [List.length_cons] <;> omega
  · exact Nat.le_refl _

theorem length_scanUnicode (s : Text) : (scanUnicode s).2.length ≤ s.length := by
  unfold scanUnicode
  split
  · rename_i a b c d e rest
    have hlow := fun high => length_scanLowSurrogate high (e :: rest)
    simp only [List.length_cons] at hlow
    split
    · simp only [List.length_cons]
      omega
    · rename_i n hn
      split_ifs
      · exact Nat.le_trans (hlow n) (by simp only [List.length_cons]; omega)
      · simp only [List.length_cons]
        omega
  · exact Nat.le_refl _

theorem length_scanEscape (s : Text) : (scanEscape s).2.length ≤ s.length := by
  unfold scanEscape
  split
  · exact Nat.le_refl _
  · rename_i e rest
    split_ifs
    · exact Nat.le_succ_of_le (length_scanUnicode rest)
    · split <;> exact Nat.le_succ _

/-- What follows the opening quote: the string, and the text after its closing quote. -/
def scanString : Text → Except LoadError Text × Text
  | [] => (.error unterminated, [])
  | c :: rest =>
    if c = quote then (.ok [], rest)
    else if c = backslash then
      match h : scanEscape rest with
      | (.ok c, rest') =>
        have : rest'.length ≤ rest.length := by simpa only [h] using length_scanEscape rest
        prepend c (scanString rest')
      | (.error e, rest') => (.error e, rest')
    else if c ≤ 0x1f then (.error (.decode "Invalid control character at"), rest)
    else prepend c (scanString rest)
termination_by s => s.length

theorem length_scanString (s : Text) : (scanString s).2.length ≤ s.length := by
  fun_induction scanString s with
  | case1 => exact Nat.le_refl _
  | case2 rest => exact Nat.le_succ _
  | case3 rest c rest' h hlength _ ih => exact Nat.le_succ_of_le (Nat.le_trans ih hlength)
  | case4 rest e rest' h =>
    have hlength := length_scanEscape rest
    rw [h] at hlength
    exact Nat.le_succ_of_le hlength
  | case5 c rest => exact Nat.le_succ _
  | case6 c rest _ _ _ ih => exact Nat.le_succ_of_le ih

/-! ## Numbers and names -/

def isDigit (c : Nat) : Bool := 0x30 ≤ c && c ≤ 0x39

/-- `sys.int_info.default_max_str_digits` -/
def intMaxStrDigits : Nat := 4300

def natOfDigits (digits : Text) : Nat := digits.foldl (fun n c => 10 * n + (c - 0x30)) 0

/-- The digits before a fraction: a zero alone, or all that follow another digit. -/
def scanWhole (c : Nat) (rest : Text) : Text × Text :=
  if c = 0x30 then ([c], rest) else (c :: rest.takeWhile isDigit, rest.dropWhile isDigit)

/-- A fraction, if the point has a digit behind it. -/
def scanFraction (s : Text) : Text × Text :=
  match s with
  | 0x2e :: d :: rest =>
    if isDigit d then (0x2e :: d :: rest.takeWhile isDigit, rest.dropWhile isDigit) else ([], s)
  | _ => ([], s)

def scanSign (s : Text) : Text × Text :=
  match s with
  | c :: rest => if c = 0x2b ∨ c = 0x2d then ([c], rest) else ([], s)
  | [] => ([], [])

/-- An exponent, if it has a digit. -/
def scanExponent (s : Text) : Text × Text :=
  match s with
  | c :: rest =>
    if c = 0x65 ∨ c = 0x45 then
      match scanSign rest with
      | (sign, d :: rest) =>
        if isDigit d then (c :: sign ++ d :: rest.takeWhile isDigit, rest.dropWhile isDigit)
        else ([], s)
      | (_, []) => ([], s)
    else ([], s)
  | [] => ([], [])

/-- The number that begins with the digit `c`, behind its sign. -/
def scanNumber (negative : Bool) (c : Nat) (rest : Text) : Token × Text :=
  let (whole, rest) := scanWhole c rest
  let (fraction, rest) := scanFraction rest
  let (exponent, rest) := scanExponent rest
  if fraction.isEmpty && exponent.isEmpty then
    if intMaxStrDigits < whole.length then (.bad .digits, rest)
    else (.scalar (.int (if negative then -natOfDigits whole else natOfDigits whole)), rest)
  else (.scalar (.float ((if negative then [0x2d] else []) ++ whole ++ fraction ++ exponent)), rest)

/-- The names that stand for a value. -/
def names : List (Text × Value) :=
  [(text "null", .null), (text "true", .bool true), (text "false", .bool false),
    (text "NaN", .float (text "NaN")), (text "Infinity", .float (text "Infinity")),
    (text "-Infinity", .float (text "-Infinity"))]

def scanName (s : Text) : Option (Token × Text) :=
  (names.find? fun name => name.1.isPrefixOf s).map fun name => (.scalar name.2, s.drop name.1.length)

theorem length_scanWhole (c : Nat) (rest : Text) : (scanWhole c rest).2.length ≤ rest.length := by
  unfold scanWhole
  split_ifs
  · exact Nat.le_refl _
  · exact (List.dropWhile_suffix _).length_le

theorem length_scanFraction (s : Text) : (scanFraction s).2.length ≤ s.length := by
  unfold scanFraction
  split
  · rename_i d rest
    split_ifs
    · exact Nat.le_trans (List.dropWhile_suffix _).length_le (by simp only [List.length_cons]; omega)
    · exact Nat.le_refl _
  · exact Nat.le_refl _

theorem length_scanSign (s : Text) : (scanSign s).2.length ≤ s.length := by
  unfold scanSign
  split
  · split_ifs
    · exact Nat.le_succ _
    · exact Nat.le_refl _
  · exact Nat.le_refl _

theorem length_scanExponent (s : Text) : (scanExponent s).2.length ≤ s.length := by
  unfold scanExponent
  split
  · rename_i c rest
    split_ifs
    · have hsign := length_scanSign rest
      split
      · rename_i sign d more hmore
        rw [hmore, List.length_cons] at hsign
        split_ifs
        · have hdrop := (List.dropWhile_suffix (l := more) isDigit).length_le
          simp only [List.length_cons]
          omega
        · exact Nat.le_refl _
      · exact Nat.le_refl _
    · exact Nat.le_refl _
  · exact Nat.le_refl _

theorem length_scanNumber (negative : Bool) (c : Nat) (rest : Text) :
    (scanNumber negative c rest).2.length ≤ rest.length := by
  have hwhole := length_scanWhole c rest
  have hfraction := length_scanFraction (scanWhole c rest).2
  have hexponent := length_scanExponent (scanFraction (scanWhole c rest).2).2
  unfold scanNumber
  simp only
  split_ifs <;> exact Nat.le_trans hexponent (Nat.le_trans hfraction hwhole)

/-! ## Tokens -/

/-- `_WHITESPACE` -/
def isBlank (c : Nat) : Bool := c = 0x20 || c = 0x9 || c = 0xa || c = 0xd

def expectingValue : LoadError := .decode "Expecting value"

def scanSigned (c : Nat) (rest : Text) : Token × Text :=
  if isDigit c then scanNumber false c rest
  else
    match rest with
    | d :: rest => if c = 0x2d ∧ isDigit d then scanNumber true d rest else (.bad expectingValue, rest)
    | [] => (.bad expectingValue, [])

/-- The token that begins with `c`, and the text after it. -/
def scanToken (c : Nat) (rest : Text) : Token × Text :=
  if c = quote then
    match scanString rest with
    | (.ok s, rest) => (.str s, rest)
    | (.error e, rest) => (.badStr e, rest)
  else if c = 0x5b then (.openList, rest)
  else if c = 0x5d then (.closeList, rest)
  else if c = 0x7b then (.openDict, rest)
  else if c = 0x7d then (.closeDict, rest)
  else if c = 0x2c then (.comma, rest)
  else if c = 0x3a then (.colon, rest)
  else
    match scanName (c :: rest) with
    | some read => read
    | none => scanSigned c rest

theorem length_scanName {s : Text} {read : Token × Text} (h : scanName s = some read) :
    read.2.length + 1 ≤ s.length ∨ s = [] := by
  rw [scanName, Option.map_eq_some_iff] at h
  obtain ⟨name, hfound, rfl⟩ := h
  have hname : 1 ≤ name.1.length := by
    have hall : ∀ name ∈ names, 1 ≤ name.1.length := by decide
    exact hall name (List.mem_of_find?_eq_some hfound)
  cases s with
  | nil => exact .inr rfl
  | cons c rest =>
    simp only [List.length_drop, List.length_cons]
    omega

theorem length_scanSigned (c : Nat) (rest : Text) : (scanSigned c rest).2.length ≤ rest.length := by
  unfold scanSigned
  split_ifs
  · exact length_scanNumber false c rest
  · split
    · rename_i d rest
      split_ifs
      · exact Nat.le_succ_of_le (length_scanNumber true d rest)
      · exact Nat.le_succ _
    · exact Nat.le_refl _

theorem length_scanToken (c : Nat) (rest : Text) : (scanToken c rest).2.length ≤ rest.length := by
  unfold scanToken
  split_ifs
  · have hstring := length_scanString rest
    split <;> rename_i h <;> rw [h] at hstring <;> exact hstring
  iterate 6 exact Nat.le_refl _
  split
  · rename_i read hname
    obtain hread | hnil := length_scanName hname
    · exact Nat.le_of_succ_le_succ hread
    · cases hnil
  · exact length_scanSigned c rest

/-- The tokens of a text; what stands behind a bad one does not matter. -/
def tokens (s : Text) : List Token :=
  match h : s.dropWhile isBlank with
  | [] => []
  | c :: rest =>
    have : (scanToken c rest).2.length < s.length := by
      have hblank := (List.dropWhile_suffix (l := s) isBlank).length_le
      rw [h, List.length_cons] at hblank
      exact Nat.lt_of_le_of_lt (length_scanToken c rest) hblank
    (scanToken c rest).1 :: tokens (scanToken c rest).2
termination_by s.length

/-! ## Values -/

/-- A container that is open, with what it holds so far. -/
inductive Frame where
  /-- the latest item first -/
  | list (items : List Value)
  /-- and the key that waits for its value -/
  | dict (entries : List (Text × Value)) (key : Text)

inductive Expect where
  | value
  /-- the first item of a list, or its end -/
  | item
  /-- a key, or the end of a dict that is empty -/
  | key (entries : List (Text × Value)) (empty : Bool)
  | colon (entries : List (Text × Value)) (key : Text)
  /-- what follows a value -/
  | delimiter (v : Value)

/-- `entries[key] = v` -/
def setEntry (entries : List (Text × Value)) (key : Text) (v : Value) : List (Text × Value) :=
  if entries.any fun entry => entry.1 = key then
    entries.map fun entry => if entry.1 = key then (key, v) else entry
  else entries ++ [(key, v)]

/-- A value begins inside the open containers, of which there may be `depth`. -/
def beginValue (depth : Nat) (opened : List Frame) : Token → Except LoadError (Expect × List Frame)
  | .scalar v => .ok (.delimiter v, opened)
  | .str s => .ok (.delimiter (.str s), opened)
  | .openList => if opened.length < depth then .ok (.item, opened) else .error .recursion
  | .openDict => if opened.length < depth then .ok (.key [] true, opened) else .error .recursion
  | .badStr e | .bad e => .error e
  | .closeList | .closeDict | .comma | .colon => .error expectingValue

def expectingName : LoadError := .decode "Expecting property name enclosed in double quotes"

def step (depth : Nat) : Expect × List Frame → Token → Except LoadError (Expect × List Frame)
  | (.value, opened), t => beginValue depth opened t
  | (.item, opened), .closeList => .ok (.delimiter (.list []), opened)
  | (.item, opened), t => beginValue depth (.list [] :: opened) t
  | (.key _ true, opened), .closeDict => .ok (.delimiter (.dict []), opened)
  | (.key entries _, opened), .str key => .ok (.colon entries key, opened)
  | (.key _ _, _), .badStr e => .error e
  | (.key _ _, _), _ => .error expectingName
  | (.colon entries key, opened), .colon => .ok (.value, .dict entries key :: opened)
  | (.colon _ _, _), _ => .error (.decode "Expecting ':' delimiter")
  | (.delimiter v, .list items :: opened), .comma => .ok (.value, .list (v :: items) :: opened)
  | (.delimiter v, .list items :: opened), .closeList =>
    .ok (.delimiter (.list (v :: items).reverse), opened)
  | (.delimiter v, .dict entries key :: opened), .comma =>
    .ok (.key (setEntry entries key v) false, opened)
  | (.delimiter v, .dict entries key :: opened), .closeDict =>
    .ok (.delimiter (.dict (setEntry entries key v)), opened)
  | (.delimiter _, _ :: _), _ => .error (.decode "Expecting ',' delimiter")
  | (.delimiter _, []), _ => .error (.decode "Extra data")

/-- The end of the text. -/
def finish : Expect × List Frame → Except LoadError Value
  | (.delimiter v, []) => .ok v
  | (.delimiter _, _ :: _) => .error (.decode "Expecting ',' delimiter")
  | (.value, _) | (.item, _) => .error expectingValue
  | (.key _ _, _) => .error expectingName
  | (.colon _ _, _) => .error (.decode "Expecting ':' delimiter")

/-- `json.loads`, where `depth` containers may be nested. -/
def loads (depth : Nat) (s : Text) : Except LoadError Value := do
  finish (← (tokens s).foldlM (step depth) (.value, []))

/-! ## The text of a value -/

/-- What the interpreter makes of a value beyond its structure. -/
structure Display where
  /-- `str` of the float with this literal -/
  floatStr : Text → Text
  /-- `str.isprintable` of one character -/
  isPrintable : Nat → Bool
  /-- the containers that `repr` goes into before `RecursionError` -/
  depth : Nat

def hexChar (n : Nat) : Nat := if n < 10 then 0x30 + n else 0x57 + n

/-- `n` in `width` hexadecimal digits. -/
def hexText : Nat → Nat → Text
  | 0, _ => []
  | width + 1, n => hexText width (n / 16) ++ [hexChar (n % 16)]

def reprChar (d : Display) (mark c : Nat) : Text :=
  if c = mark ∨ c = backslash then [backslash, c]
  else if c = 0x9 then text "\\t"
  else if c = 0xa then text "\\n"
  else if c = 0xd then text "\\r"
  else if c < 0x20 ∨ c = 0x7f then text "\\x" ++ hexText 2 c
  else if c < 0x7f ∨ d.isPrintable c then [c]
  else if c ≤ 0xff then text "\\x" ++ hexText 2 c
  else if c ≤ 0xffff then text "\\u" ++ hexText 4 c
  else text "\\U" ++ hexText 8 c

/-- `repr` of a string: between single quotes, unless it has them and no double ones. -/
def reprStr (d : Display) (s : Text) : Text :=
  let mark := if 0x27 ∈ s ∧ quote ∉ s then quote else 0x27
  mark :: s.flatMap (reprChar d mark) ++ [mark]

mutual

/-- `repr` -/
def repr (d : Display) : Value → Text
  | .null => text "None"
  | .bool b => text (if b then "True" else "False")
  | .int n => text (toString n)
  | .float literal => d.floatStr literal
  | .str s => reprStr d s
  | .list items => text "[" ++ reprItems d [] items ++ text "]"
  | .dict entries => text "\x7b" ++ reprEntries d [] entries ++ text "\x7d"

/-- The items behind a separator, which the first one goes without. -/
def reprItems (d : Display) (separator : Text) : List Value → Text
  | [] => []
  | v :: items => separator ++ repr d v ++ reprItems d (text ", ") items

def reprEntries (d : Display) (separator : Text) : List (Text × Value) → Text
  | [] => []
  | (key, v) :: entries =>
    separator ++ reprStr d key ++ text ": " ++ repr d v ++ reprEntries d (text ", ") entries

end

mutual

/-- How deep containers are nested in a value. -/
def nesting : Value → Nat
  | .list items => nestingItems items + 1
  | .dict entries => nestingEntries entries + 1
  | _ => 0

def nestingItems : List Value → Nat
  | [] => 0
  | v :: items => max (nesting v) (nestingItems items)

def nestingEntries : List (Text × Value) → Nat
  | [] => 0
  | (_, v) :: entries => max (nesting v) (nestingEntries entries)

end

/-- `str` -/
def str (d : Display) : Value → Text
  | .str s => s
  | v => repr d v

/-- `entries.get(key, default)` -/
def get (entries : List (Text × Value)) (key : String) (default : Value) : Value :=
  (entries.lookup (text key)).getD default

end Apm.Lib.Json
