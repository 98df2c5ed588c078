import Mathlib.Data.List.Basic

/-!
# Reading a text that arrives in pieces

What a buffer holds is drained into items, and the rest stays for the next piece. Where draining
a buffer first and what is left with the next piece afterwards comes to the same as draining
both at once, the items do not depend on the cuts.
-/

namespace Apm.Lib

set_option autoImplicit false

variable {γ α : Type}

/-- A piece is added to the rest and what is complete is drained. -/
def feed (drain : List γ → List α × List γ) (state : List α × List γ) (piece : List γ) :
    List α × List γ :=
  (state.1 ++ (drain (state.2 ++ piece)).1, (drain (state.2 ++ piece)).2)

/-- Draining early makes no difference. -/
def DrainsEarly (drain : List γ → List α × List γ) : Prop :=
  ∀ buffer piece, drain (buffer ++ piece) = feed drain (drain buffer) piece

theorem DrainsEarly.feed_drained {drain : List γ → List α × List γ} (h : DrainsEarly drain)
    (buffer piece : List γ) : feed drain (drain buffer) piece = drain (buffer ++ piece) :=
  (h buffer piece).symm

/-- A reader that takes each piece as the drained buffer would comes to the drained text,
wherever the text is cut. -/
theorem foldl_drained {δ : Type} {drain : List γ → List α × List γ}
    {step : List α × List γ → δ → List α × List γ} {text : δ → List γ}
    (hstep : ∀ buffer piece, step (drain buffer) piece = drain (buffer ++ text piece))
    (buffer : List γ) (pieces : List δ) :
    pieces.foldl step (drain buffer) = drain (buffer ++ (pieces.map text).flatten) := by
  induction pieces generalizing buffer with
  | nil => rw [List.foldl_nil, List.map_nil, List.flatten_nil, List.append_nil]
  | cons piece pieces ih =>
    rw [List.foldl_cons, hstep, ih, List.map_cons, List.flatten_cons, List.append_assoc]

end Apm.Lib
