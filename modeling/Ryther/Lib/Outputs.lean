import Mathlib.Data.List.Basic

/-!
# What a run puts out

A machine that makes one step for each input and may put something out at each of them.

* `outputs step out s l` — everything put out on the way, in order.
* `outputs_append`, `outputs_concat` — how a run continues.
* `measure_add_length_outputs_le` — if every step pays for what it puts out from a measure that its
  input may raise, then a run puts out no more than what its inputs add.
-/

namespace Ryther.Lib

variable {σ α β γ : Type*} (step : σ → α → σ) (out : σ → α → List β)

/-- What the steps of a run put out.
Kind: D -/
def outputs : σ → List α → List β
  | _, [] => []
  | s, a :: l => out s a ++ outputs (step s a) l

@[simp] theorem outputs_nil (s : σ) : outputs step out s [] = [] := rfl

/-- **How a run continues.** Kind: L -/
theorem outputs_append (s : σ) (l m : List α) :
    outputs step out s (l ++ m) = outputs step out s l ++ outputs step out (l.foldl step s) m := by
  induction l generalizing s with
  | nil => rfl
  | cons a l ih => rw [List.cons_append, outputs, ih, outputs, List.append_assoc, List.foldl_cons]

/-- One more step. Kind: L -/
@[simp] theorem outputs_concat (s : σ) (l : List α) (a : α) :
    outputs step out s (l ++ [a]) = outputs step out s l ++ out (l.foldl step s) a := by
  rw [outputs_append, outputs, outputs_nil, List.append_nil]

/-- **Amortised cost.** A step takes from the measure what it puts out and adds at most `c` for each
thing of a second kind. Kind: P -/
theorem measure_add_length_outputs_le (measure : σ → ℕ) (out' : σ → α → List γ) (c : ℕ)
    (hstep : ∀ s a, measure (step s a) + (out s a).length ≤ measure s + c * (out' s a).length)
    (s : σ) (l : List α) :
    measure (l.foldl step s) + (outputs step out s l).length ≤
      measure s + c * (outputs step out' s l).length := by
  induction l generalizing s with
  | nil => simp
  | cons a l ih =>
      have hhead := hstep s a
      have htail := ih (step s a)
      rw [List.foldl_cons, outputs, outputs, List.length_append, List.length_append, Nat.mul_add]
      omega

end Ryther.Lib
