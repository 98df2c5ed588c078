import Apm.Lib.Async
import Apm.Lib.Run

/-!
# Calls on an event loop

The calls of an event loop run interleaved: a call starts at once and runs to its first
await, and whatever is awaited lands in any order. A contract says, for each call, what its
steps may do and what it relies on of the steps of the others, beside an invariant of the
state. A call that keeps its contract alone keeps it on the loop, with its result.
-/

namespace Apm.Lib

set_option autoImplicit false

variable {ε ι σ κ ρ : Type}

/-- The state, and each call with what is left of it, in the order of the calls. -/
structure Loop (ε ι σ κ ρ : Type) where
  state : σ
  calls : List (κ × Async ε ι σ ρ)

inductive LoopAction (ι κ : Type) where
  | call (c : κ)
  /-- what the call with this number awaits lands -/
  | land (k : Nat) (answer : ι)

namespace Async

variable {α β : Type}

def returned : Async ε ι σ α → Bool
  | ret _ => true
  | _ => false

theorem exists_of_returned {p : Async ε ι σ α} (h : p.returned = true) : ∃ a, p = ret a := by
  cases p with
  | ret a => exact ⟨a, rfl⟩
  | raise e => cases h
  | sync update next => cases h
  | await ready land next => cases h

/-- Runs on to the next await. -/
def advance : Async ε ι σ α → σ → Async ε ι σ α × σ
  | sync update next, s => (next s).advance (update s)
  | ret a, s => (ret a, s)
  | raise e, s => (raise e, s)
  | await ready land next, s => (await ready land next, s)

end Async

/-- `body k c` is the program of the call `c` that has the number `k`. -/
def loopStep (body : Nat → κ → Async ε ι σ ρ) (w : Loop ε ι σ κ ρ) :
    LoopAction ι κ → Option (Loop ε ι σ κ ρ)
  | .call c =>
    let x := (body w.calls.length c).advance w.state
    some ⟨x.2, w.calls ++ [(c, x.1)]⟩
  | .land k answer =>
    match w.calls[k]? with
    | some (c, .await ready land next) =>
      if ready w.state then
        let x := (next answer w.state).advance (land answer w.state)
        some ⟨x.2, w.calls.set k (c, x.1)⟩
      else none
    | _ => none

/-- The calls by their number `k` and what they are. -/
structure Contract (σ κ : Type) where
  inv : σ → Prop
  /-- what the steps of the others leave to the call `k` -/
  rely : Nat → σ → σ → Prop
  /-- what the call has done so far in its step -/
  guar : Nat → κ → σ → σ → Prop
  /-- what is assumed of the whole step -/
  cond : Nat → κ → σ → σ → Prop
  /-- what holds before the call `k` starts -/
  unborn : Nat → σ → Prop
  rely_refl : ∀ k s, rely k s s
  rely_trans : ∀ {k s t u}, rely k s t → rely k t u → rely k s u
  guar_refl : ∀ {k c s}, inv s → guar k c s s
  inv_of_guar : ∀ {k c s t}, inv s → guar k c s t → cond k c s t → inv t
  rely_of_guar : ∀ {j k c s t}, j ≠ k → inv s → inv t → guar j c s t → cond j c s t → rely k s t
  unborn_of_guar : ∀ {j k c s t}, j < k → guar j c s t → unborn k s → unborn k t

namespace Async

variable {α β : Type} (C : Contract σ κ) (k : Nat) (c : κ)

/-- A step ends here: it began in `s₀`, and the call goes on in some later state. -/
def Yields (goesOn : σ → Prop) (s₀ s : σ) : Prop :=
  C.guar k c s₀ s ∧ (C.cond k c s₀ s → ∀ t, C.rely k s t → C.inv t → goesOn t)

/-- The program keeps the contract, from the state `s` of a step that began in `s₀`, and ends
with `post`. -/
def Keeps : Async ε ι σ α → (Except ε α → σ → σ → Prop) → σ → σ → Prop
  | ret a, post, s₀, s => post (.ok a) s₀ s
  | raise e, post, s₀, s => post (.error e) s₀ s
  | sync update next, post, s₀, s => Keeps (next s) post s₀ (update s)
  | await ready land next, post, s₀, s =>
    Yields C k c
      (fun t => ready t = true → ∀ answer, Keeps (next answer t) post t (land answer t)) s₀ s

variable {C k c} {p : Async ε ι σ α} {f : α → Async ε ι σ β} {s₀ s t : σ}

theorem Yields.mono {P Q : σ → Prop} (h : Yields C k c P s₀ s) (hpq : ∀ t, C.inv t → P t → Q t) :
    Yields C k c Q s₀ s :=
  ⟨h.1, fun hcond t hrely hinv => hpq t hinv (h.2 hcond t hrely hinv)⟩

theorem Keeps.mono {post post' : Except ε α → σ → σ → Prop} (h : Keeps C k c p post s₀ s)
    (hpost : ∀ r s₀ s, post r s₀ s → post' r s₀ s) : Keeps C k c p post' s₀ s := by
  induction p generalizing s₀ s with
  | ret a => exact hpost _ _ _ h
  | raise e => exact hpost _ _ _ h
  | sync update next ih => exact ih s h
  | await ready land next ih =>
    exact Yields.mono h fun t _ hnext hready answer => ih answer t (hnext hready answer)

/-- What follows a program runs in the step in which the program ends. -/
theorem keeps_bind {post : Except ε β → σ → σ → Prop} :
    Keeps C k c (p.bind f) post s₀ s ↔
      Keeps C k c p (fun r s₀ s => match r with
        | .ok a => Keeps C k c (f a) post s₀ s
        | .error e => post (.error e) s₀ s) s₀ s := by
  induction p generalizing s₀ s with
  | ret a => exact Iff.rfl
  | raise e => exact Iff.rfl
  | sync update next ih => exact ih s
  | await ready land next ih =>
    constructor
    · intro h
      exact Yields.mono h fun t _ hnext hready answer => (ih answer t).mp (hnext hready answer)
    · intro h
      exact Yields.mono h fun t _ hnext hready answer => (ih answer t).mpr (hnext hready answer)

theorem keeps_handle {handler : ε → Async ε ι σ α} {post : Except ε α → σ → σ → Prop} :
    Keeps C k c (p.handle handler) post s₀ s ↔
      Keeps C k c p (fun r s₀ s => match r with
        | .ok a => post (.ok a) s₀ s
        | .error e => Keeps C k c (handler e) post s₀ s) s₀ s := by
  induction p generalizing s₀ s with
  | ret a => exact Iff.rfl
  | raise e => exact Iff.rfl
  | sync update next ih => exact ih s
  | await ready land next ih =>
    constructor
    · intro h
      exact Yields.mono h fun t _ hnext hready answer => (ih answer t).mp (hnext hready answer)
    · intro h
      exact Yields.mono h fun t _ hnext hready answer => (ih answer t).mpr (hnext hready answer)

theorem keeps_io {op : ι → σ → Except ε α × σ} {post : Except ε α → σ → σ → Prop} :
    Keeps C k c (io op) post s₀ s ↔
      Yields C k c (fun t => ∀ answer, post (op answer t).1 t (op answer t).2) s₀ s := by
  have hio : ∀ (r : Except ε α) t u, Keeps C k c (ofExcept r : Async ε ι σ α) post t u ↔ post r t u := by
    intro r t u
    cases r <;> exact Iff.rfl
  constructor
  · intro h
    exact Yields.mono h fun t _ hnext answer => (hio _ _ _).mp (hnext rfl answer)
  · intro h
    exact Yields.mono h fun t _ hnext _ answer => (hio _ _ _).mpr (hnext answer)

/-- The step in which a call ends, with the result `r`. -/
def Ends (C : Contract σ κ) (k : Nat) (c : κ) (Q : Except ε α → σ → Prop) (r : Except ε α)
    (s₀ s : σ) : Prop :=
  Yields C k c (Q r) s₀ s

/-- What is left of a call, between its steps: it keeps the contract however the others have
changed the state. -/
def Rests (C : Contract σ κ) (k : Nat) (c : κ) (Q : Except ε α → σ → Prop) :
    Async ε ι σ α → σ → Prop
  | ret a, s => ∀ t, C.rely k s t → C.inv t → Q (.ok a) t
  | raise e, s => ∀ t, C.rely k s t → C.inv t → Q (.error e) t
  | sync _ _, _ => False
  | await ready land next, s => ∀ t, C.rely k s t → C.inv t → ready t = true →
    ∀ answer, Keeps C k c (next answer t) (Ends C k c Q) t (land answer t)

variable {Q : Except ε α → σ → Prop}

theorem Rests.rely (h : Rests C k c Q p s) (hrely : C.rely k s t) : Rests C k c Q p t := by
  cases p with
  | ret a => exact fun u hu => h u (C.rely_trans hrely hu)
  | raise e => exact fun u hu => h u (C.rely_trans hrely hu)
  | sync update next => exact h
  | await ready land next => exact fun u hu => h u (C.rely_trans hrely hu)

/-- A step runs to its end. -/
theorem Keeps.advance (h : Keeps C k c p (Ends C k c Q) s₀ s) :
    C.guar k c s₀ (p.advance s).2 ∧
      (C.cond k c s₀ (p.advance s).2 → Rests C k c Q (p.advance s).1 (p.advance s).2) := by
  induction p generalizing s with
  | ret a => exact h
  | raise e => exact h
  | sync update next ih => exact ih s h
  | await ready land next => exact h

end Async

/-! ## Pre- and postconditions -/

namespace Async

variable {α β : Type} (C : Contract σ κ) (k : Nat) (c : κ)

/-- Between two steps of the call nobody spoils `P`. -/
def Stable (P : σ → Prop) : Prop :=
  ∀ s₀ s t, C.guar k c s₀ s → C.rely k s t → C.inv t → P s → P t

/-- From `pre` the program keeps the contract; it ends with `post`, or throws with `err`. -/
def Runs (pre : σ → Prop) (p : Async ε ι σ α) (post : α → σ → Prop) (err : σ → Prop) : Prop :=
  ∀ s₀ s, C.guar k c s₀ s → pre s →
    Keeps C k c p (fun r s₀ s => C.guar k c s₀ s ∧ match r with
      | .ok a => post a s
      | .error _ => err s) s₀ s

variable {C k c} {pre pre' err err' : σ → Prop} {post post' : α → σ → Prop} {R : β → σ → Prop}
  {p : Async ε ι σ α} {f : α → Async ε ι σ β}

theorem Stable.and {P Q : σ → Prop} (hP : Stable C k c P) (hQ : Stable C k c Q) :
    Stable C k c fun s => P s ∧ Q s :=
  fun s₀ s t hguar hrely hinv h => ⟨hP s₀ s t hguar hrely hinv h.1, hQ s₀ s t hguar hrely hinv h.2⟩

theorem Yields.of_stable {P : σ → Prop} {s₀ s : σ} (hP : Stable C k c P) (hguar : C.guar k c s₀ s)
    (h : P s) : Yields C k c P s₀ s :=
  ⟨hguar, fun _ t hrely hinv => hP s₀ s t hguar hrely hinv h⟩

namespace Runs

theorem mono (h : Runs C k c pre p post err)
    (hpre : ∀ s₀ s, C.guar k c s₀ s → pre' s → pre s)
    (hpost : ∀ a s₀ s, C.guar k c s₀ s → post a s → post' a s) (herr : ∀ s, err s → err' s) :
    Runs C k c pre' p post' err' := by
  intro s₀ s hguar hs
  refine (h s₀ s hguar (hpre s₀ s hguar hs)).mono fun r s₀ s hr => ⟨hr.1, ?_⟩
  cases r with
  | ok a => exact hpost a s₀ s hr.1 hr.2
  | error e => exact herr s hr.2

theorem weaken (h : Runs C k c pre p post err)
    (hpre : ∀ s₀ s, C.guar k c s₀ s → pre' s → pre s) : Runs C k c pre' p post err :=
  h.mono hpre (fun _ _ _ _ hs => hs) fun _ hs => hs

/-- What the precondition says of no state. -/
theorem assume {fact : Prop} (hfact : ∀ s₀ s, C.guar k c s₀ s → pre s → fact)
    (h : fact → Runs C k c pre p post err) : Runs C k c pre p post err :=
  fun s₀ s hguar hs => h (hfact s₀ s hguar hs) s₀ s hguar hs

theorem pure {a : α} (h : ∀ s₀ s, C.guar k c s₀ s → pre s → post a s) :
    Runs C k c pre (Pure.pure a : Async ε ι σ α) post err :=
  fun s₀ s hguar hs => ⟨hguar, h s₀ s hguar hs⟩

theorem throw {e : ε} (h : ∀ s, pre s → err s) :
    Runs C k c pre (MonadExcept.throw e : Async ε ι σ α) post err :=
  fun _ s hguar hs => ⟨hguar, h s hs⟩

theorem bind {Q : α → σ → Prop} (hp : Runs C k c pre p Q err)
    (hf : ∀ a, Runs C k c (Q a) (f a) R err) : Runs C k c pre (p >>= f) R err := by
  intro s₀ s hguar hs
  refine keeps_bind.mpr ((hp s₀ s hguar hs).mono fun r s₀ s hr => ?_)
  cases r with
  | ok a => exact hf a s₀ s hr.1 hr.2
  | error e => exact hr

/-- Reads the state, and goes on with what it was. -/
theorem get {f : σ → Async ε ι σ β} (hf : ∀ d, Runs C k c (fun s => s = d ∧ pre s) (f d) R err) :
    Runs C k c pre (get >>= f) R err := fun s₀ s hguar hs => hf s s₀ s hguar ⟨rfl, hs⟩

theorem modify {g : σ → σ} {post : Unit → σ → Prop}
    (h : ∀ s₀ s, C.guar k c s₀ s → pre s → C.guar k c s₀ (g s) ∧ post () (g s)) :
    Runs C k c pre (modify g : Async ε ι σ Unit) post err := fun s₀ s hguar hs => h s₀ s hguar hs

theorem io {op : ι → σ → Except ε α × σ} (hpre : Stable C k c pre)
    (h : ∀ answer t, C.inv t → pre t → C.guar k c t (op answer t).2 ∧ match (op answer t).1 with
      | .ok a => post a (op answer t).2
      | .error _ => err (op answer t).2) :
    Runs C k c pre (io op) post err := by
  intro s₀ s hguar hs
  refine keeps_io.mpr ⟨hguar, fun _ t hrely hinv answer => ?_⟩
  obtain ⟨hguar', hpost⟩ := h answer t hinv (hpre s₀ s t hguar hrely hinv hs)
  refine ⟨hguar', ?_⟩
  cases hresult : (op answer t).1 with
  | ok a => simpa only [hresult] using hpost
  | error e => simpa only [hresult] using hpost

/-- An update that keeps the assertion. -/
theorem update {g : σ → σ}
    (h : ∀ s₀ s, C.guar k c s₀ s → pre s → C.guar k c s₀ (g s) ∧ pre (g s)) :
    Runs C k c pre (Async.modify g : Async ε ι σ Unit) (fun _ => pre) err := modify h

/-- Awaits the value of an operation that only reads. -/
theorem reads {value : σ → α} (hpre : Stable C k c pre) :
    Runs C k c pre (Async.io fun (_ : ι) s => (.ok (value s), s) : Async ε ι σ α)
      (fun a s => pre s ∧ value s = a) err :=
  io hpre fun _ _ hinv hs => ⟨C.guar_refl hinv, hs, rfl⟩

/-- Awaits an operation that succeeds. -/
theorem lands {value : σ → α} {change : σ → σ} (hpre : Stable C k c pre)
    (h : ∀ t, C.inv t → pre t → C.guar k c t (change t) ∧ post (value t) (change t)) :
    Runs C k c pre (Async.io fun (_ : ι) s => (.ok (value s), change s) : Async ε ι σ α) post err :=
  io hpre fun _ t hinv ht => h t hinv ht

theorem hop (hpre : Stable C k c pre) :
    Runs C k c pre (hop : Async ε ι σ Unit) (fun _ => pre) err := by
  intro s₀ s hguar hs
  refine ⟨hguar, fun _ t hrely hinv _ _ => ⟨C.guar_refl hinv, hpre s₀ s t hguar hrely hinv hs⟩⟩

theorem waitFor {ready : σ → Bool} (hpre : Stable C k c pre) :
    Runs C k c pre (waitFor ready : Async ε ι σ Unit) (fun _ s => pre s ∧ ready s = true) err := by
  intro s₀ s hguar hs
  refine ⟨hguar, fun _ t hrely hinv hready _ => ⟨C.guar_refl hinv, ?_, hready⟩⟩
  exact hpre s₀ s t hguar hrely hinv hs

theorem ite {b : Prop} [Decidable b] {q : Async ε ι σ α}
    (hp : b → Runs C k c pre p post err) (hq : ¬b → Runs C k c pre q post err) :
    Runs C k c pre (if b then p else q) post err := by
  split_ifs with hb
  · exact hp hb
  · exact hq hb

theorem «when» {b : Bool} {q : Async ε ι σ Unit} {post : Unit → σ → Prop}
    (hq : b = true → Runs C k c pre q post err)
    (hskip : b = false → ∀ s₀ s, C.guar k c s₀ s → pre s → post () s) :
    Runs C k c pre (when b q) post err := by
  cases b with
  | true => exact hq rfl
  | false => exact pure (hskip rfl)

theorem awaiting (hp : Runs C k c pre p post err) (hpost : ∀ a, Stable C k c (post a)) :
    Runs C k c pre (awaiting p) post err :=
  hp.bind fun a => (hop (hpost a)).bind fun _ => pure fun _ _ _ h => h

theorem handle {handler : ε → Async ε ι σ α} (hp : Runs C k c pre p post err')
    (hhandler : ∀ e, Runs C k c err' (handler e) post err) :
    Runs C k c pre (tryCatch p handler) post err := by
  intro s₀ s hguar hs
  refine keeps_handle.mpr ((hp s₀ s hguar hs).mono fun r s₀ s hr => ?_)
  cases r with
  | ok a => exact hr
  | error e => exact hhandler e s₀ s hr.1 hr.2

/-- The whole call. -/
theorem ends {Q : Except ε α → σ → Prop} {s₀ s : σ}
    (h : Runs C k c pre p (fun a => Q (.ok a)) err) (hguar : C.guar k c s₀ s) (hs : pre s)
    (hpost : ∀ a, Stable C k c (Q (.ok a))) (herr : ∀ e s, Q (.error e) s) :
    Keeps C k c p (Ends C k c Q) s₀ s := by
  refine (h s₀ s hguar hs).mono fun r s₀ s hr => ?_
  cases r with
  | ok a => exact .of_stable (hpost a) hr.1 hr.2
  | error e => exact ⟨hr.1, fun _ t _ _ => herr e t⟩

end Runs

end Async

/-! ## The loop -/

section loop

variable (C : Contract σ κ) (Q : Nat → κ → Except ε ρ → σ → Prop)
  {body : Nat → κ → Async ε ι σ ρ} {w w' : Loop ε ι σ κ ρ} {a : LoopAction ι κ}

/-- The steps of the call meet what is assumed of them. -/
def Loop.Meets (w : Loop ε ι σ κ ρ) (a : LoopAction ι κ) (w' : Loop ε ι σ κ ρ) : Prop :=
  match a with
  | .call c => C.cond w.calls.length c w.state w'.state
  | .land k _ => ∀ c p, w.calls[k]? = some (c, p) → C.cond k c w.state w'.state

structure Loop.Sound (w : Loop ε ι σ κ ρ) : Prop where
  inv : C.inv w.state
  rests : ∀ k c p, w.calls[k]? = some (c, p) → Async.Rests C k c (Q k c) p w.state
  unborn : ∀ k, w.calls.length ≤ k → C.unborn k w.state

/-- Each call keeps the contract alone. -/
def KeepsContract (body : Nat → κ → Async ε ι σ ρ) : Prop :=
  ∀ k c s, C.inv s → C.unborn k s →
    Async.Keeps C k c (body k c) (Async.Ends C k c (Q k c)) s s

variable {C Q}

theorem Loop.Sound.call (hbody : KeepsContract C Q body) (h : w.Sound C Q) {c : κ} {p : Async ε ι σ ρ}
    {t : σ} (hadvance : (body w.calls.length c).advance w.state = (p, t))
    (hcond : C.cond w.calls.length c w.state t) :
    Loop.Sound C Q ⟨t, w.calls ++ [(c, p)]⟩ := by
  have hkeeps := (hbody w.calls.length c w.state h.inv (h.unborn _ (Nat.le_refl _))).advance
  rw [hadvance] at hkeeps
  obtain ⟨hguar, hrests⟩ := hkeeps
  have hinv := C.inv_of_guar h.inv hguar hcond
  have hrely : ∀ j, w.calls.length ≠ j → C.rely j w.state t := fun j hj =>
    C.rely_of_guar hj h.inv hinv hguar hcond
  refine ⟨hinv, fun j d q hcall => ?_, fun j hj => ?_⟩
  · rw [List.getElem?_append] at hcall
    split_ifs at hcall with hj
    · exact (h.rests j d q hcall).rely (hrely j (by omega))
    · rw [List.getElem?_singleton] at hcall
      split_ifs at hcall with hzero
      cases hcall
      have hk : j = w.calls.length := by omega
      subst hk
      exact hrests hcond
  · rw [List.length_append, List.length_singleton] at hj
    exact C.unborn_of_guar (by omega) hguar (h.unborn j (by omega))

theorem Loop.Sound.land (h : w.Sound C Q) {k : Nat} {c : κ} {ready : σ → Bool}
    {land : ι → σ → σ} {next : ι → σ → Async ε ι σ ρ} {answer : ι} {p : Async ε ι σ ρ} {t : σ}
    (hcall : w.calls[k]? = some (c, .await ready land next)) (hready : ready w.state = true)
    (hadvance : (next answer w.state).advance (land answer w.state) = (p, t))
    (hcond : C.cond k c w.state t) : Loop.Sound C Q ⟨t, w.calls.set k (c, p)⟩ := by
  have hkeeps := (h.rests k c _ hcall w.state (C.rely_refl k _) h.inv hready answer).advance
  rw [hadvance] at hkeeps
  obtain ⟨hguar, hrests⟩ := hkeeps
  have hinv := C.inv_of_guar h.inv hguar hcond
  have hrely : ∀ j, k ≠ j → C.rely j w.state t := fun j hj =>
    C.rely_of_guar hj h.inv hinv hguar hcond
  have hlt : k < w.calls.length := (List.getElem?_eq_some_iff.mp hcall).1
  refine ⟨hinv, fun j d q hj => ?_, fun j hj => ?_⟩
  · by_cases hkj : k = j
    · subst hkj
      rw [List.getElem?_set_self hlt] at hj
      cases hj
      exact hrests hcond
    · rw [List.getElem?_set_ne hkj] at hj
      exact (h.rests j d q hj).rely (hrely j hkj)
  · rw [List.length_set] at hj
    exact C.unborn_of_guar (by omega) hguar (h.unborn j hj)

theorem Loop.Sound.step (hbody : KeepsContract C Q body) (h : w.Sound C Q)
    (hmeets : Loop.Meets C w a w') (hstep : loopStep body w a = some w') : w'.Sound C Q := by
  cases a with
  | call c =>
    obtain ⟨p, t, hadvance⟩ : ∃ p t, (body w.calls.length c).advance w.state = (p, t) :=
      ⟨_, _, rfl⟩
    simp only [loopStep, hadvance, Option.some.injEq] at hstep
    subst hstep
    exact h.call hbody hadvance hmeets
  | land k answer =>
    simp only [loopStep] at hstep
    split at hstep
    · rename_i c ready land next hcall
      split_ifs at hstep with hready
      obtain ⟨p, t, hadvance⟩ :
          ∃ p t, (next answer w.state).advance (land answer w.state) = (p, t) := ⟨_, _, rfl⟩
      simp only [hadvance, Option.some.injEq] at hstep
      subst hstep
      exact h.land hcall hready hadvance (hmeets c _ hcall)
    · cases hstep

/-- Calls that keep a contract alone keep it in every run whose steps meet its condition. -/
theorem Loop.Sound.run (hbody : KeepsContract C Q body) (h : w.Sound C Q)
    {actions : List (LoopAction ι κ)} (hmeets : Along (loopStep body) (Loop.Meets C) w actions)
    (hrun : Apm.Lib.run (loopStep body) w actions = some w') : w'.Sound C Q := by
  have hstep : ∀ u (a : LoopAction ι κ) u', Loop.Sound C Q u → Loop.Meets C u a u' →
      loopStep body u a = some u' → Loop.Sound C Q u' :=
    fun _ _ _ hu hmeets hstep => hu.step hbody hmeets hstep
  exact run_invariant hstep h hmeets hrun

/-- What a call has returned. -/
theorem Loop.Sound.result (h : w.Sound C Q) {k : Nat} {c : κ} {r : ρ}
    (hcall : w.calls[k]? = some (c, .ret r)) : Q k c (.ok r) w.state :=
  h.rests k c _ hcall w.state (C.rely_refl k _) h.inv

/-- No call has been made. -/
theorem Loop.Sound.idle {s : σ} (hinv : C.inv s) (hunborn : ∀ k, C.unborn k s) :
    Loop.Sound C Q (⟨s, []⟩ : Loop ε ι σ κ ρ) where
  inv := hinv
  rests := fun k c p hcall => by simp at hcall
  unborn := fun k _ => hunborn k

end loop

/-! ## Invariants -/

namespace Async

variable {α β : Type} {I : σ → Prop} {P : α → Prop} {R : β → Prop} {p : Async ε ι σ α}
  {f : α → Async ε ι σ β}

/-- The steps of the program from `s` on keep the invariant, and its value has the property,
whatever else happens between its steps. -/
def PreservesFrom (I : σ → Prop) (P : α → Prop) : Async ε ι σ α → σ → Prop
  | ret a, s => I s ∧ P a
  | raise _, s => I s
  | sync update next, s => PreservesFrom I P (next s) (update s)
  | await ready land next, s => I s ∧ ∀ answer t, I t → ready t = true →
    PreservesFrom I P (next answer t) (land answer t)

def Preserves (I : σ → Prop) (P : α → Prop) (p : Async ε ι σ α) : Prop :=
  ∀ s, I s → PreservesFrom I P p s

variable {s : σ}

theorem PreservesFrom.bind (hp : PreservesFrom I P p s)
    (hf : ∀ a t, P a → I t → PreservesFrom I R (f a) t) : PreservesFrom I R (p >>= f) s := by
  rw [bind_eq]
  induction p generalizing s with
  | ret a => exact hf a s hp.2 hp.1
  | raise e => exact hp
  | sync update next ih => exact ih s hp
  | await ready land next ih =>
    exact ⟨hp.1, fun answer t ht hready => ih answer t (hp.2 answer t ht hready)⟩

theorem PreservesFrom.handle {handler : ε → Async ε ι σ α} (hp : PreservesFrom I P p s)
    (hhandler : ∀ e, Preserves I P (handler e)) :
    PreservesFrom I P (tryCatch p handler) s := by
  rw [tryCatch_eq]
  induction p generalizing s with
  | ret a => exact hp
  | raise e => exact hhandler e s hp
  | sync update next ih => exact ih s hp
  | await ready land next ih =>
    exact ⟨hp.1, fun answer t ht hready => ih answer t (hp.2 answer t ht hready)⟩

namespace Preserves

theorem bind (hp : Preserves I P p) (hf : ∀ a, P a → Preserves I R (f a)) :
    Preserves I R (p >>= f) := fun s hs => (hp s hs).bind fun a t ha ht => hf a ha t ht

theorem handle {handler : ε → Async ε ι σ α} (hp : Preserves I P p)
    (hhandler : ∀ e, Preserves I P (handler e)) : Preserves I P (tryCatch p handler) :=
  fun s hs => (hp s hs).handle hhandler

theorem pure {a : α} (ha : P a) : Preserves I P (Pure.pure a : Async ε ι σ α) := fun _ hs => ⟨hs, ha⟩

theorem throw (e : ε) : Preserves I P (MonadExcept.throw e : Async ε ι σ α) := fun _ hs => hs

theorem get : Preserves I I (get : Async ε ι σ σ) := fun _ hs => ⟨hs, hs⟩

theorem modify {g : σ → σ} (hg : ∀ s, I s → I (g s)) :
    Preserves I (fun _ => True) (modify g : Async ε ι σ Unit) := fun s hs => ⟨hg s hs, trivial⟩

theorem hop : Preserves I (fun _ => True) (hop : Async ε ι σ Unit) :=
  fun _ hs => ⟨hs, fun _ _ ht _ => ⟨ht, trivial⟩⟩

theorem io {op : ι → σ → Except ε α × σ}
    (hop : ∀ answer s, I s → I (op answer s).2 ∧ ∀ a, (op answer s).1 = .ok a → P a) :
    Preserves I P (io op) := by
  refine fun s hs => ⟨hs, fun answer t ht _ => ?_⟩
  obtain ⟨hinv, hvalue⟩ := hop answer t ht
  show PreservesFrom I P (ofExcept (op answer t).1) (op answer t).2
  cases hresult : (op answer t).1 with
  | ok a => exact ⟨hinv, hvalue a hresult⟩
  | error e => exact hinv

theorem ite {b : Prop} [Decidable b] {q : Async ε ι σ α} (hp : b → Preserves I P p)
    (hq : ¬b → Preserves I P q) : Preserves I P (if b then p else q) := by
  split_ifs with hb
  · exact hp hb
  · exact hq hb

theorem when {b : Bool} {q : Async ε ι σ Unit} (hq : Preserves I (fun _ => True) q) :
    Preserves I (fun _ => True) (when b q) :=
  ite (fun _ => hq) fun _ => pure trivial

theorem awaiting (hp : Preserves I P p) : Preserves I P (awaiting p) :=
  hp.bind fun _ ha => hop.bind fun _ _ => pure ha

end Preserves

/-- The contract of an invariant: nothing else is relied on. -/
def invariantContract (I : σ → Prop) : Contract σ κ where
  inv := I
  rely := fun _ _ _ => True
  guar := fun _ _ _ s => I s
  cond := fun _ _ _ _ => True
  unborn := fun _ _ => True
  rely_refl := fun _ _ => trivial
  rely_trans := fun _ _ => trivial
  guar_refl := fun hs => hs
  inv_of_guar := fun _ ht _ => ht
  rely_of_guar := fun _ _ _ _ _ => trivial
  unborn_of_guar := fun _ _ _ => trivial

theorem PreservesFrom.keeps (hp : PreservesFrom I P p s) (k : Nat) (c : κ) (s₀ : σ) :
    Keeps (invariantContract I) k c p
      (Ends (invariantContract I) k c fun r _ => ∀ a, r = .ok a → P a) s₀ s := by
  induction p generalizing s₀ s with
  | ret a =>
    refine ⟨hp.1, fun _ t _ _ b hb => ?_⟩
    cases hb
    exact hp.2
  | raise e => exact ⟨hp, fun _ t _ _ b hb => by cases hb⟩
  | sync update next ih => exact ih s hp s₀
  | await ready land next ih =>
    exact ⟨hp.1, fun _ t _ ht hready answer => ih answer t (hp.2 answer t ht hready) t⟩

end Async

/-- Calls whose steps keep an invariant keep it on the loop, in every order of their steps,
and return what has the property. -/
theorem loop_invariant {I : σ → Prop} {P : κ → ρ → Prop} {body : Nat → κ → Async ε ι σ ρ}
    (hbody : ∀ k c, Async.Preserves I (P c) (body k c)) {s : σ} (hs : I s)
    {actions : List (LoopAction ι κ)} {w : Loop ε ι σ κ ρ}
    (hrun : run (loopStep body) ⟨s, []⟩ actions = some w) :
    I w.state ∧ ∀ (k : Nat) (c : κ) (r : ρ), w.calls[k]? = some (c, .ret r) → P c r := by
  have hsound : w.Sound (Async.invariantContract I) fun _ c r _ => ∀ a, r = .ok a → P c a :=
    Loop.Sound.run (fun k c t ht _ => (hbody k c t ht).keeps k c t) (.idle hs fun _ => trivial)
      (along_of_forall_mem (fun a _ u u' _ => by cases a <;> simp [Loop.Meets, Async.invariantContract]) _)
      hrun
  exact ⟨hsound.inv, fun k c r hcall => hsound.result hcall r rfl⟩

end Apm.Lib
