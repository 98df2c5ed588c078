import Mathlib.Data.List.Infix

/-!
# Substituting the matches of an expression

An expression reads a text from the left and backtracks: `rests` lists what may be left behind a
match, in the order in which a matcher tries it. `sub` replaces the leftmost matches one after
the other. Where no match can reach over the ends of the replacement, the result holds no match
of the expression, and none of any other language that the text was free of.
-/

namespace Apm.Lib

set_option autoImplicit false

inductive Regex (α : Type) where
  | empty
  | sym (p : α → Bool)
  /-- one or more of a class, as many as there are -/
  | plus (p : α → Bool)
  | seq (r s : Regex α)
  | alt (r s : Regex α)

variable {α : Type}

/-- No part of the text is in the language. -/
def Avoids (Q : List α → Prop) (text : List α) : Prop := ∀ m, m <:+: text → ¬ Q m

theorem Avoids.part {Q : List α → Prop} {text m : List α} (h : Avoids Q text)
    (hm : m <:+: text) : Avoids Q m := fun _ hn => h _ (hn.trans hm)

/-- A part without the symbol lies on one side of it. -/
theorem infix_append_cons {u v m : List α} {b : α} (h : m <:+: u ++ b :: v) (hb : b ∉ m) :
    m <:+: u ∨ m <:+: v := by
  have hpre {n : List α} (hn : n <+: b :: v) (hb : b ∉ n) : n = [] := by
    rcases List.prefix_cons_iff.mp hn with rfl | ⟨t, rfl, -⟩
    · rfl
    · exact absurd List.mem_cons_self hb
  rcases List.infix_append_iff.mp h with hu | hv | ⟨x, y, rfl, hx, hy⟩
  · exact Or.inl hu
  · rcases List.infix_cons_iff.mp hv with hm | hm
    · rw [hpre hm hb]
      exact Or.inl List.nil_prefix.isInfix
    · exact Or.inr hm
  · rw [hpre hy fun hmem => hb (List.mem_append_right x hmem), List.append_nil]
    exact Or.inl hx.isInfix

namespace Regex

/-- The language of an expression. -/
def Matches : Regex α → List α → Prop
  | empty, m => m = []
  | sym p, m => ∃ c, p c = true ∧ m = [c]
  | plus p, m => m ≠ [] ∧ ∀ c ∈ m, p c = true
  | seq r s, m => ∃ a b, m = a ++ b ∧ r.Matches a ∧ s.Matches b
  | alt r s, m => r.Matches m ∨ s.Matches m

def plusRests (p : α → Bool) : List α → List (List α)
  | [] => []
  | c :: text => if p c then plusRests p text ++ [text] else []

/-- What is left of the text behind each match at its start, the first choice first. -/
def rests : Regex α → List α → List (List α)
  | empty, text => [text]
  | sym _, [] => []
  | sym p, c :: text => if p c then [text] else []
  | plus p, text => plusRests p text
  | seq r s, text => (r.rests text).flatMap s.rests
  | alt r s, text => r.rests text ++ s.rests text

def nullable : Regex α → Bool
  | empty => true
  | sym _ => false
  | plus _ => false
  | seq r s => r.nullable && s.nullable
  | alt r s => r.nullable || s.nullable

/-- Whether a class of the expression holds the symbol. -/
def reads (c : α) : Regex α → Bool
  | empty => false
  | sym p => p c
  | plus p => p c
  | seq r s => r.reads c || s.reads c
  | alt r s => r.reads c || s.reads c

/-- `re.sub`, the next symbols being part of a match that is already replaced. For an expression
that does not match the empty text. -/
def subFrom (r : Regex α) (repl : List α) : Nat → List α → List α
  | _, [] => []
  | skip + 1, _ :: text => subFrom r repl skip text
  | 0, c :: text =>
    match (r.rests (c :: text)).head? with
    | some rest => repl ++ subFrom r repl (text.length - rest.length) text
    | none => c :: subFrom r repl 0 text

def sub (r : Regex α) (repl text : List α) : List α := r.subFrom repl 0 text

variable {r : Regex α} {p : α → Bool} {text rest m repl : List α} {c : α}

/-! ## What a match reads -/

theorem mem_plusRests_iff :
    rest ∈ plusRests p text ↔ ∃ m, (m ≠ [] ∧ ∀ c ∈ m, p c = true) ∧ text = m ++ rest := by
  induction text with
  | nil => simp [plusRests]
  | cons c text ih =>
    by_cases hc : p c = true
    · rw [plusRests, if_pos hc, List.mem_append, List.mem_singleton, ih]
      constructor
      · rintro (⟨m, ⟨-, hm⟩, rfl⟩ | rfl)
        · exact ⟨c :: m, ⟨List.cons_ne_nil _ _, by simpa [hc] using hm⟩, rfl⟩
        · exact ⟨[c], ⟨List.cons_ne_nil _ _, by simpa using hc⟩, rfl⟩
      · rintro ⟨m, ⟨hne, hm⟩, hsplit⟩
        obtain ⟨d, m, rfl⟩ := List.exists_cons_of_ne_nil hne
        obtain ⟨rfl, rfl⟩ := List.cons.inj hsplit
        cases m with
        | nil => exact Or.inr rfl
        | cons e m =>
          refine Or.inl ⟨e :: m, ⟨List.cons_ne_nil _ _, fun x hx => hm x ?_⟩, rfl⟩
          exact List.mem_cons_of_mem _ hx
    · rw [plusRests, if_neg hc]
      constructor
      · intro h
        cases h
      · rintro ⟨m, ⟨hne, hm⟩, hsplit⟩
        obtain ⟨d, m, rfl⟩ := List.exists_cons_of_ne_nil hne
        obtain ⟨rfl, rfl⟩ := List.cons.inj hsplit
        exact absurd (hm c List.mem_cons_self) hc

/-- A matcher finds the matches at the start of the text, and no others. -/
theorem mem_rests_iff : rest ∈ r.rests text ↔ ∃ m, r.Matches m ∧ text = m ++ rest := by
  induction r generalizing text rest with
  | empty => simp [rests, Matches, eq_comm (a := text)]
  | sym p =>
    cases text with
    | nil => simp [rests, Matches]
    | cons c text =>
      rw [rests, List.mem_ite_nil_right, List.mem_singleton]
      constructor
      · rintro ⟨hc, rfl⟩
        exact ⟨[c], ⟨c, hc, rfl⟩, rfl⟩
      · rintro ⟨_, ⟨d, hd, rfl⟩, hsplit⟩
        obtain ⟨rfl, rfl⟩ := List.cons.inj hsplit
        exact ⟨hd, rfl⟩
  | plus p => exact mem_plusRests_iff
  | seq r s ihr ihs =>
    simp only [rests, Matches, List.mem_flatMap, ihr, ihs]
    constructor
    · rintro ⟨_, ⟨a, ha, rfl⟩, b, hb, rfl⟩
      exact ⟨a ++ b, ⟨a, b, rfl, ha, hb⟩, (List.append_assoc _ _ _).symm⟩
    · rintro ⟨_, ⟨a, b, rfl, ha, hb⟩, rfl⟩
      exact ⟨b ++ rest, ⟨a, ha, List.append_assoc _ _ _⟩, b, hb, rfl⟩
  | alt r s ihr ihs =>
    simp only [rests, Matches, List.mem_append, ihr, ihs, or_and_right, exists_or]

theorem rests_eq_nil_iff : r.rests text = [] ↔ ∀ m, m <+: text → ¬ r.Matches m := by
  rw [List.eq_nil_iff_forall_not_mem]
  constructor
  · rintro h m ⟨rest, rfl⟩ hm
    exact h rest (mem_rests_iff.mpr ⟨m, hm, rfl⟩)
  · intro h rest hrest
    obtain ⟨m, hm, rfl⟩ := mem_rests_iff.mp hrest
    exact h m (List.prefix_append _ _) hm

theorem nullable_iff : r.nullable = true ↔ r.Matches [] := by
  induction r with
  | empty => simp [nullable, Matches]
  | sym p => simp [nullable, Matches]
  | plus p => simp [nullable, Matches]
  | seq r s ihr ihs => simp [nullable, Matches, ihr, ihs]
  | alt r s ihr ihs => simp [nullable, Matches, ihr, ihs]

theorem ne_nil_of_matches (hr : r.nullable = false) (h : r.Matches m) : m ≠ [] := by
  rintro rfl
  rw [nullable_iff.mpr h] at hr
  cases hr

theorem reads_of_mem (h : r.Matches m) (hc : c ∈ m) : r.reads c = true := by
  induction r generalizing m with
  | empty =>
    rw [show m = [] from h] at hc
    cases hc
  | sym p =>
    obtain ⟨d, hd, rfl⟩ := h
    rw [List.mem_singleton.mp hc]
    exact hd
  | plus p => exact h.2 c hc
  | seq r s ihr ihs =>
    obtain ⟨a, b, rfl, ha, hb⟩ := h
    rw [reads, Bool.or_eq_true]
    exact (List.mem_append.mp hc).imp (ihr ha) (ihs hb)
  | alt r s ihr ihs =>
    rw [reads, Bool.or_eq_true]
    exact h.imp (fun hm => ihr hm hc) (fun hm => ihs hm hc)

theorem not_mem_of_matches (hc : r.reads c = false) (h : r.Matches m) : c ∉ m := by
  intro hmem
  rw [reads_of_mem h hmem] at hc
  cases hc

/-! ## One step of a substitution -/

theorem subFrom_eq_drop (skip : Nat) : r.subFrom repl skip text = r.sub repl (text.drop skip) := by
  induction text generalizing skip with
  | nil => rw [List.drop_nil, sub, subFrom, subFrom]
  | cons c text ih =>
    cases skip with
    | zero => rfl
    | succ skip =>
      rw [subFrom, List.drop_succ_cons]
      exact ih skip

theorem sub_cons_of_nil (h : r.rests (c :: text) = []) :
    r.sub repl (c :: text) = c :: r.sub repl text := by
  simp only [sub, subFrom, h, List.head?_nil]

/-- The first choice of the matcher is replaced, and the substitution goes on behind it. -/
theorem sub_of_head (hr : r.nullable = false) (h : (r.rests (c :: text)).head? = some rest) :
    r.sub repl (c :: text) = repl ++ r.sub repl rest := by
  obtain ⟨m, hm, hsplit⟩ := mem_rests_iff.mp (List.mem_of_mem_head? h)
  obtain ⟨d, m, rfl⟩ := List.exists_cons_of_ne_nil (ne_nil_of_matches hr hm)
  obtain ⟨rfl, htext⟩ := List.cons.inj hsplit
  have hskip : text.length - rest.length = m.length := by
    rw [htext, List.append_eq, List.length_append]
    omega
  have hdrop : text.drop m.length = rest := by rw [htext, List.append_eq, List.drop_left]
  rw [sub, subFrom, h]
  simp only [hskip, subFrom_eq_drop, hdrop]

/-- A text is read as symbols that are kept and matches that are replaced. -/
theorem sub_induction {motive : List α → List α → Prop} (hr : r.nullable = false)
    (nil : motive [] [])
    (keep : ∀ c text, r.rests (c :: text) = [] → motive text (r.sub repl text) →
      motive (c :: text) (c :: r.sub repl text))
    (replace : ∀ m rest, r.Matches m → motive rest (r.sub repl rest) →
      motive (m ++ rest) (repl ++ r.sub repl rest))
    (text : List α) : motive text (r.sub repl text) := by
  induction hn : text.length using Nat.strong_induction_on generalizing text with
  | _ n ih =>
    cases text with
    | nil => exact nil
    | cons c text =>
      rw [List.length_cons] at hn
      cases h : (r.rests (c :: text)).head? with
      | none =>
        have hnil : r.rests (c :: text) = [] := List.head?_eq_none_iff.mp h
        rw [sub_cons_of_nil hnil]
        exact keep c text hnil (ih text.length (by omega) text rfl)
      | some rest =>
        obtain ⟨m, hm, hsplit⟩ := mem_rests_iff.mp (List.mem_of_mem_head? h)
        have hpos := List.length_pos_of_ne_nil (ne_nil_of_matches hr hm)
        have hlength := congrArg List.length hsplit
        rw [List.length_cons, List.length_append] at hlength
        rw [sub_of_head hr h, hsplit]
        exact replace m rest hm (ih rest.length (by omega) rest rfl)

theorem mem_sub (hr : r.nullable = false) (h : c ∈ r.sub repl text) : c ∈ text ∨ c ∈ repl := by
  refine sub_induction (motive := fun text out => c ∈ out → c ∈ text ∨ c ∈ repl) hr ?nil ?keep
    ?replace text h
  case nil => exact fun h => Or.inl h
  case keep =>
    intro d text _ ih h
    rcases List.mem_cons.mp h with rfl | h
    · exact Or.inl List.mem_cons_self
    · exact (ih h).imp_left (List.mem_cons_of_mem _)
  case replace =>
    intro m rest _ ih h
    rcases List.mem_append.mp h with h | h
    · exact Or.inr h
    · exact (ih h).imp_left (List.mem_append_right m)

theorem mem_foldl_sub {rs : List (Regex α)} (hrs : ∀ r ∈ rs, r.nullable = false)
    (h : c ∈ rs.foldl (fun text r => r.sub repl text) text) : c ∈ text ∨ c ∈ repl := by
  induction rs generalizing text with
  | nil => exact Or.inl h
  | cons r rs ih =>
    rcases ih (fun q hq => hrs q (List.mem_cons_of_mem _ hq)) h with h | h
    · exact mem_sub (hrs r List.mem_cons_self) h
    · exact Or.inr h

/-! ## What a substitution keeps away -/

section token

variable {Q : List α → Prop} {o b : α} {body : List α}

/-- Nothing can reach into the result of a substitution from the left of a replacement. -/
theorem prefix_of_prefix_sub (hr : r.nullable = false) (ho : o ∉ m)
    (h : m <+: r.sub (o :: body) text) : m <+: text := by
  refine sub_induction (motive := fun text out => ∀ m, o ∉ m → m <+: out → m <+: text) hr ?nil
    ?keep ?replace text m ho h
  case nil => exact fun m _ h => h
  case keep =>
    intro c text _ ih m ho h
    rcases List.prefix_cons_iff.mp h with rfl | ⟨m, rfl, hm⟩
    · exact List.nil_prefix
    · exact List.cons_prefix_cons.mpr ⟨rfl, ih m (fun hmem => ho (List.mem_cons_of_mem _ hmem)) hm⟩
  case replace =>
    intro _ rest _ _ m ho h
    rcases List.prefix_cons_iff.mp h with rfl | ⟨m, rfl, -⟩
    · exact List.nil_prefix
    · exact absurd List.mem_cons_self ho

/-- The language is free of the empty text and of the ends of the replacement. -/
structure Between (o b : α) (Q : List α → Prop) : Prop where
  ne_nil : ∀ m, Q m → m ≠ []
  not_open : ∀ m, Q m → o ∉ m
  not_close : ∀ m, Q m → b ∉ m

theorem between_of_reads (hr : r.nullable = false) (ho : r.reads o = false)
    (hb : r.reads b = false) : Between o b r.Matches where
  ne_nil _ := ne_nil_of_matches hr
  not_open _ := not_mem_of_matches ho
  not_close _ := not_mem_of_matches hb

theorem Between.avoids_token (hQ : Between o b Q) (hbody : Avoids Q body)
    (h : Avoids Q text) : Avoids Q (o :: (body ++ [b]) ++ text) := by
  intro m hm hq
  rw [List.cons_append, List.append_assoc, List.singleton_append] at hm
  rcases infix_append_cons (u := []) hm (hQ.not_open m hq) with hnil | hm
  · exact hQ.ne_nil m hq (List.infix_nil.mp hnil)
  · rcases infix_append_cons hm (hQ.not_close m hq) with hm | hm
    · exact hbody m hm hq
    · exact h m hm hq

/-- The positions that a substitution keeps decide what its result is free of. -/
theorem avoids_sub_of (hr : r.nullable = false) (hQ : Between o b Q) (hbody : Avoids Q body)
    (hkeep : ∀ c rest, c :: rest <:+ text → r.rests (c :: rest) = [] →
      ∀ m, m <+: c :: rest → ¬ Q m) :
    Avoids Q (r.sub (o :: (body ++ [b])) text) := by
  refine sub_induction (motive := fun text out => (∀ c rest, c :: rest <:+ text →
    r.rests (c :: rest) = [] → ∀ m, m <+: c :: rest → ¬ Q m) → Avoids Q out) hr ?nil ?keep
    ?replace text hkeep
  case nil =>
    intro _ m hm hq
    exact hQ.ne_nil m hq (List.infix_nil.mp hm)
  case keep =>
    intro c text hnil ih hkeep m hm hq
    rcases List.infix_cons_iff.mp hm with hpre | hinf
    · refine hkeep c text List.suffix_rfl hnil m ?_ hq
      rcases List.prefix_cons_iff.mp hpre with rfl | ⟨n, rfl, hn⟩
      · exact List.nil_prefix
      · have ho : o ∉ n := fun hmem => hQ.not_open _ hq (List.mem_cons_of_mem _ hmem)
        exact List.cons_prefix_cons.mpr ⟨rfl, prefix_of_prefix_sub hr ho hn⟩
    · exact ih (fun d rest hrest => hkeep d rest (hrest.trans (List.suffix_cons _ _))) m hinf hq
  case replace =>
    intro m rest _ ih hkeep
    refine hQ.avoids_token hbody (ih fun d more hmore => hkeep d more ?_)
    exact hmore.trans (List.suffix_append _ _)

/-- A language that the text was free of is not brought in by a substitution. -/
theorem avoids_sub (hr : r.nullable = false) (hQ : Between o b Q) (hbody : Avoids Q body)
    (h : Avoids Q text) : Avoids Q (r.sub (o :: (body ++ [b])) text) :=
  avoids_sub_of hr hQ hbody fun _ _ hrest _ m hm =>
    h m (hm.isInfix.trans hrest.isInfix)

/-- **After its substitution an expression matches nowhere.** -/
theorem avoids_own_sub (hr : r.nullable = false) (hQ : Between o b r.Matches)
    (hbody : Avoids r.Matches body) : Avoids r.Matches (r.sub (o :: (body ++ [b])) text) :=
  avoids_sub_of hr hQ hbody fun _ _ _ hnil m hm => rests_eq_nil_iff.mp hnil m hm

/-- The expression matches neither in the replacement nor over one of its ends. -/
structure Apart (o b : α) (body : List α) (r : Regex α) : Prop where
  nullable : r.nullable = false
  reads_open : r.reads o = false
  reads_close : r.reads b = false
  avoids : Avoids r.Matches body

theorem Apart.between (h : Apart o b body r) : Between o b r.Matches :=
  between_of_reads h.nullable h.reads_open h.reads_close

/-- One substitution after the other brings in nothing that neither the text nor the
replacement holds. -/
theorem avoids_foldl_sub {rs : List (Regex α)} (hrs : ∀ r ∈ rs, Apart o b body r)
    (hQ : Between o b Q) (hbody : Avoids Q body) (h : Avoids Q text) :
    Avoids Q (rs.foldl (fun text r => r.sub (o :: (body ++ [b])) text) text) := by
  induction rs generalizing text with
  | nil => exact h
  | cons r rs ih =>
    have hr := hrs r List.mem_cons_self
    exact ih (fun q hq => hrs q (List.mem_cons_of_mem _ hq)) (avoids_sub hr.nullable hQ hbody h)

/-- **After a series of substitutions no expression of it matches anywhere.** -/
theorem avoids_own_foldl_sub {rs : List (Regex α)} (hrs : ∀ r ∈ rs, Apart o b body r)
    {q : Regex α} (hq : q ∈ rs) :
    Avoids q.Matches (rs.foldl (fun text r => r.sub (o :: (body ++ [b])) text) text) := by
  induction rs generalizing text with
  | nil => cases hq
  | cons r rs ih =>
    have hrest : ∀ q ∈ rs, Apart o b body q := fun q hq => hrs q (List.mem_cons_of_mem _ hq)
    rw [List.foldl_cons]
    rcases List.mem_cons.mp hq with rfl | hq
    · have hown := hrs q List.mem_cons_self
      exact avoids_foldl_sub hrest hown.between hown.avoids
        (avoids_own_sub hown.nullable hown.between hown.avoids)
    · exact ih hrest hq

end token

/-- To match nowhere is to have no match at the start of any suffix. -/
theorem avoids_matches_iff :
    Avoids r.Matches text ↔ ∀ rest ∈ text.tails, (r.rests rest).isEmpty = true := by
  simp only [List.mem_tails, List.isEmpty_iff, rests_eq_nil_iff]
  constructor
  · exact fun h rest hrest m hm => h m (hm.isInfix.trans hrest.isInfix)
  · intro h m hm
    obtain ⟨rest, hpre, hsuf⟩ := List.infix_iff_prefix_suffix.mp hm
    exact h rest hsuf m hpre

instance : Decidable (Avoids r.Matches text) := decidable_of_iff' _ avoids_matches_iff

/-- Where an expression matches nowhere there is nothing to replace. -/
theorem sub_eq_self (h : Avoids r.Matches text) : r.sub repl text = text := by
  induction text with
  | nil => rfl
  | cons c text ih =>
    have hnil : r.rests (c :: text) = [] := rests_eq_nil_iff.mpr fun m hm => h m hm.isInfix
    rw [sub_cons_of_nil hnil, ih (h.part (List.suffix_cons c text).isInfix)]

theorem foldl_sub_eq_self {rs : List (Regex α)} (h : ∀ r ∈ rs, Avoids r.Matches text) :
    rs.foldl (fun text r => r.sub repl text) text = text := by
  induction rs with
  | nil => rfl
  | cons r rs ih =>
    rw [List.foldl_cons, sub_eq_self (h r List.mem_cons_self)]
    exact ih fun q hq => h q (List.mem_cons_of_mem _ hq)

/-! ## Classes -/

theorem sub_sym : (sym p).sub [c] text = text.map fun x => if p x then c else x := by
  induction text with
  | nil => rfl
  | cons x text ih =>
    rw [List.map_cons]
    by_cases hx : p x = true
    · have hrests : ((sym p).rests (x :: text)).head? = some text := by
        rw [rests, if_pos hx, List.head?_cons]
      rw [sub_of_head rfl hrests, ih, if_pos hx, List.singleton_append]
    · have hrests : (sym p).rests (x :: text) = [] := by rw [rests, if_neg hx]
      rw [sub_cons_of_nil hrests, ih, if_neg hx]

theorem rests_plus_of_not (hc : p c = false) : (plus p).rests (c :: text) = [] := by
  rw [rests, plusRests, hc]
  rfl

/-- The first choice is all of the class. -/
theorem head?_rests_plus (hc : p c = true) :
    ((plus p).rests (c :: text)).head? = some (text.dropWhile p) := by
  rw [rests, plusRests, if_pos hc, List.head?_append]
  induction text with
  | nil => rfl
  | cons x text ih =>
    by_cases hx : p x = true
    · rw [plusRests, if_pos hx, List.head?_append, ih, List.dropWhile_cons_of_pos hx]
      rfl
    · rw [plusRests, if_neg hx, List.dropWhile_cons_of_neg hx]
      rfl

theorem sub_plus (hc : p c = true) :
    (plus p).sub repl (c :: text) = repl ++ (plus p).sub repl (text.dropWhile p) :=
  sub_of_head rfl (head?_rests_plus hc)

theorem sub_plus_of_not (hc : p c = false) :
    (plus p).sub repl (c :: text) = c :: (plus p).sub repl text :=
  sub_cons_of_nil (rests_plus_of_not hc)

/-- Two symbols of the class, one behind the other. -/
def Doubled (p : α → Bool) (m : List α) : Prop := ∃ a b, m = [a, b] ∧ p a = true ∧ p b = true

/-- Of the class only one symbol is in the text, and no two of it stand together. -/
structure Squeezed (p : α → Bool) (d : α) (text : List α) : Prop where
  only : ∀ c ∈ text, p c = true → c = d
  single : Avoids (Doubled p) text

section squeezed

variable {d : α}

theorem Squeezed.part (h : Squeezed p d text) (hm : m <:+: text) : Squeezed p d m where
  only c hc := h.only c (hm.subset hc)
  single := h.single.part hm

theorem Squeezed.dropWhile_eq (h : Squeezed p d (c :: text)) (hc : p c = true) :
    text.dropWhile p = text := by
  cases text with
  | nil => rfl
  | cons x text =>
    refine List.dropWhile_cons_of_neg fun hx => h.single [c, x] ?_ ⟨c, x, rfl, hc, hx⟩
    exact (List.prefix_append [c, x] text).isInfix

theorem squeezed_nil : Squeezed p d [] where
  only _ hc := by cases hc
  single := by
    rintro m hm ⟨a, b, rfl, -⟩
    exact List.cons_ne_nil _ _ (List.infix_nil.mp hm)

theorem Squeezed.cons (h : Squeezed p d text)
    (hc : p c = true → c = d ∧ ∀ x ∈ text.head?, p x = false) : Squeezed p d (c :: text) where
  only x hx hp := by
    rcases List.mem_cons.mp hx with rfl | hx
    · exact (hc hp).1
    · exact h.only x hx hp
  single := by
    rintro m hm ⟨a, b, rfl, ha, hb⟩
    rcases List.infix_cons_iff.mp hm with hpre | hinf
    · obtain ⟨rfl, rest, rfl⟩ := List.cons_prefix_cons.mp hpre
      rw [(hc ha).2 b rfl] at hb
      cases hb
    · exact h.single _ hinf ⟨a, b, rfl, ha, hb⟩

/-- Behind a run the class is at an end. -/
theorem not_head_sub_dropWhile {x : α}
    (hx : x ∈ ((plus p).sub repl (text.dropWhile p)).head?) : p x = false := by
  cases hdrop : text.dropWhile p with
  | nil =>
    rw [hdrop] at hx
    cases hx
  | cons y rest =>
    have hy : p y = false := by
      have hnot := List.head?_dropWhile_not p text
      rw [hdrop] at hnot
      exact hnot
    rw [hdrop, sub_plus_of_not hy] at hx
    cases hx
    exact hy

/-- Runs of the class are each replaced by one symbol of it. -/
theorem squeezed_sub : Squeezed p d ((plus p).sub [d] text) := by
  induction hn : text.length using Nat.strong_induction_on generalizing text with
  | _ n ih =>
    cases text with
    | nil => exact squeezed_nil
    | cons c text =>
      rw [List.length_cons] at hn
      by_cases hc : p c = true
      · have hrest := (List.dropWhile_suffix (l := text) p).length_le
        rw [sub_plus hc, List.singleton_append]
        exact (ih (text.dropWhile p).length (by omega) rfl).cons
          fun _ => ⟨rfl, fun x hx => not_head_sub_dropWhile hx⟩
      · rw [sub_plus_of_not (eq_false_of_ne_true hc)]
        exact (ih text.length (by omega) rfl).cons fun h => absurd h hc

theorem sub_eq_self_of_squeezed (h : Squeezed p d text) : (plus p).sub [d] text = text := by
  induction text with
  | nil => rfl
  | cons c text ih =>
    have htext := ih (h.part (List.suffix_cons c text).isInfix)
    by_cases hc : p c = true
    · rw [sub_plus hc, h.dropWhile_eq hc, htext, h.only c List.mem_cons_self hc,
        List.singleton_append]
    · rw [sub_plus_of_not (eq_false_of_ne_true hc), htext]

end squeezed

end Regex

end Apm.Lib
