import Mathlib.Data.Nat.Notation

/-! # Loops

`forUp n body` is the counted loop `for (i = 0; i < n; i++) body(i)` on a state, and `whileDo` the
loop `while (c) body` with a variant `μ` that every iteration lowers. `forUp_inv` and `whileDo_inv`
are their rules: an invariant that holds before and is kept by every iteration holds after, in the
second case together with the negated condition. -/

namespace HfiWebserver.Lib.Loop

variable {σ : Type}

def forUp (n : ℕ) (body : ℕ → σ → σ) (s : σ) : σ :=
  match n with
  | 0 => s
  | n + 1 => body n (forUp n body s)

/-- **The rule of the counted loop.** -/
theorem forUp_inv {I : ℕ → σ → Prop} {n : ℕ} {body : ℕ → σ → σ} {s : σ} (h0 : I 0 s)
    (hstep : ∀ i s, i < n → I i s → I (i + 1) (body i s)) : I n (forUp n body s) := by
  induction n with
  | zero => exact h0
  | succ n ih =>
    exact hstep n _ (Nat.lt_succ_self n) (ih fun i s hi => hstep i s (Nat.lt_succ_of_lt hi))

def whileDo (c : σ → Bool) (body : σ → σ) (μ : σ → ℕ) (hμ : ∀ s, c s = true → μ (body s) < μ s)
    (s : σ) : σ :=
  if _h : c s = true then whileDo c body μ hμ (body s) else s
termination_by μ s
decreasing_by exact hμ s _h

/-- **The rule of the `while` loop.** -/
theorem whileDo_inv {c : σ → Bool} {body : σ → σ} {μ : σ → ℕ}
    {hμ : ∀ s, c s = true → μ (body s) < μ s} {I : σ → Prop} {s : σ} (h0 : I s)
    (hstep : ∀ s, I s → c s = true → I (body s)) :
    I (whileDo c body μ hμ s) ∧ c (whileDo c body μ hμ s) = false := by
  fun_induction whileDo c body μ hμ s with
  | case1 s h ih => exact ih (hstep s h0 h)
  | case2 s h => exact ⟨h0, by simpa using h⟩

end HfiWebserver.Lib.Loop
