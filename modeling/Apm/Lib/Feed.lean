import Apm.Lib.EventLoop

/-!
# A program that can be cut off

A program runs alone, and each of its operations lands with an answer of its own. Where
the answers run out the program is cut off: what it has written stays, and it never ends.
-/

namespace Apm.Lib.Async

set_option autoImplicit false

variable {ε ι σ α β : Type}

/-- Where a program has come to: its end with the answers that are left, or `none` when it
was cut off. -/
abbrev Fed (ε ι α : Type) : Type := Option (Except ε α × List ι)

/-- Runs the program alone, its operations landing with the answers in turn. -/
def feed : Async ε ι σ α → List ι → σ → Fed ε ι α × σ
  | ret a, answers, s => (some (.ok a, answers), s)
  | raise e, answers, s => (some (.error e, answers), s)
  | sync update next, answers, s => feed (next s) answers (update s)
  | await _ _ _, [], s => (none, s)
  | await ready land next, answer :: answers, s =>
    if ready s then feed (next answer s) answers (land answer s) else (none, s)

/-- What follows a program runs only on its value. -/
def followed (f : α → Async ε ι σ β) : Fed ε ι α × σ → Fed ε ι β × σ
  | (some (.ok a, answers), s) => feed (f a) answers s
  | (some (.error e, answers), s) => (some (.error e, answers), s)
  | (none, s) => (none, s)

/-- A handler runs only on an exception. -/
def rescued (handler : ε → Async ε ι σ α) : Fed ε ι α × σ → Fed ε ι α × σ
  | (some (.ok a, answers), s) => (some (.ok a, answers), s)
  | (some (.error e, answers), s) => feed (handler e) answers s
  | (none, s) => (none, s)

variable {p : Async ε ι σ α} {f : α → Async ε ι σ β} {handler : ε → Async ε ι σ α}
  {answers : List ι} {s : σ}

@[simp] theorem feed_ret (a : α) :
    feed (ret a : Async ε ι σ α) answers s = (some (.ok a, answers), s) := by
  cases answers <;> rfl

@[simp] theorem feed_raise (e : ε) :
    feed (raise e : Async ε ι σ α) answers s = (some (.error e, answers), s) := by
  cases answers <;> rfl

@[simp] theorem feed_sync (update : σ → σ) (next : σ → Async ε ι σ α) :
    feed (sync update next) answers s = feed (next s) answers (update s) := by
  cases answers <;> rfl

theorem feed_bind : feed (p.bind f) answers s = followed f (feed p answers s) := by
  induction p generalizing answers s with
  | ret a => rw [feed_ret]; rfl
  | raise e => rw [feed_raise]; exact feed_raise e
  | sync update next ih => rw [feed_sync]; exact (feed_sync ..).trans (ih s)
  | await ready land next ih =>
    cases answers with
    | nil => rfl
    | cons answer answers =>
      simp only [bind, feed]
      split_ifs
      · exact ih answer s
      · rfl

theorem feed_handle : feed (p.handle handler) answers s = rescued handler (feed p answers s) := by
  induction p generalizing answers s with
  | ret a => rw [feed_ret]; exact feed_ret a
  | raise e => rw [feed_raise]; rfl
  | sync update next ih => rw [feed_sync]; exact (feed_sync ..).trans (ih s)
  | await ready land next ih =>
    cases answers with
    | nil => rfl
    | cons answer answers =>
      simp only [handle, feed]
      split_ifs
      · exact ih answer s
      · rfl

@[simp] theorem feed_get : feed (get : Async ε ι σ σ) answers s = (some (.ok s, answers), s) := by
  rw [get, feed_sync, feed_ret, id]

@[simp] theorem feed_modify (g : σ → σ) :
    feed (modify g : Async ε ι σ Unit) answers s = (some (.ok (), answers), g s) := by
  rw [modify, feed_sync, feed_ret]

@[simp] theorem feed_io (op : ι → σ → Except ε α × σ) (answer : ι) :
    feed (io op) (answer :: answers) s = (some ((op answer s).1, answers), (op answer s).2) := by
  simp only [io, feed, if_true]
  cases (op answer s).1 with
  | ok a => exact feed_ret a
  | error e => exact feed_raise e

@[simp] theorem feed_hop (answer : ι) :
    feed (hop : Async ε ι σ Unit) (answer :: answers) s = (some (.ok (), answers), s) := by
  simp only [hop, feed, if_true]

/-- An awaited program is cut off as well where no answer is left when it has returned. -/
theorem feed_awaiting : feed (awaiting p) answers s =
    match feed p answers s with
    | (some (.ok _, []), t) => (none, t)
    | (some (.ok a, _ :: rest), t) => (some (.ok a, rest), t)
    | ended => ended := by
  rw [awaiting, bind_eq, feed_bind]
  rcases feed p answers s with ⟨_ | ⟨_ | a, _ | ⟨answer, rest⟩⟩, t⟩ <;> rfl

/-- An invariant that the steps of a program keep holds where it has come to. -/
theorem PreservesFrom.feed {I : σ → Prop} {P : α → Prop} (hp : PreservesFrom I P p s)
    (answers : List ι) :
    I (feed p answers s).2 ∧ ∀ a rest, (p.feed answers s).1 = some (.ok a, rest) → P a := by
  induction p generalizing answers s with
  | ret a =>
    rw [feed_ret]
    refine ⟨hp.1, ?_⟩
    rintro b rest ⟨⟩
    exact hp.2
  | raise e =>
    rw [feed_raise]
    exact ⟨hp, fun b rest h => by cases h⟩
  | sync update next ih =>
    rw [feed_sync]
    exact ih s hp answers
  | await ready land next ih =>
    cases answers with
    | nil => exact ⟨hp.1, fun b rest h => by cases h⟩
    | cons answer answers =>
      simp only [Async.feed]
      split_ifs with hready
      · exact ih answer s (hp.2 answer s hp.1 hready) answers
      · exact ⟨hp.1, fun b rest h => by cases h⟩

end Apm.Lib.Async
