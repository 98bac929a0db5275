import Mathlib.Data.List.Infix

/-! Runs of a labelled system. A run is the list of its steps, newest first, each with the state
it was taken from, so that a step may depend on the steps before it. -/

namespace ChilizChain

/-- `Run step s₀ H s`: the steps `H` lead from `s₀` to `s`. -/
inductive Run {σ α : Type} (step : List (α × σ) → σ → α → σ → Prop) (s₀ : σ) :
    List (α × σ) → σ → Prop
  | start : Run step s₀ [] s₀
  | next {H : List (α × σ)} {a : α} {s s' : σ} (before : Run step s₀ H s) (h : step H s a s') :
      Run step s₀ ((a, s) :: H) s'

namespace Run

variable {σ α : Type} {step : List (α × σ) → σ → α → σ → Prop} {s₀ : σ}
  {H N : List (α × σ)} {a : α} {s s' : σ}

theorem before (h : Run step s₀ ((a, s) :: H) s') : Run step s₀ H s := by
  cases h with
  | next before h => exact before

theorem last (h : Run step s₀ ((a, s) :: H) s') : step H s a s' := by
  cases h with
  | next before h => exact h

theorem of_append (h : Run step s₀ (N ++ (a, s) :: H) s') : ∃ s₁, Run step s₀ ((a, s) :: H) s₁ := by
  induction N generalizing s' with
  | nil => exact ⟨s', h⟩
  | cons x N ih => exact ih h.before

theorem append {step : σ → α → σ → Prop} {s₁ s₂ : σ} (h : Run (fun _ => step) s₀ H s₁)
    (h' : Run (fun _ => step) s₁ N s₂) : Run (fun _ => step) s₀ (N ++ H) s₂ := by
  induction h' with
  | start => exact h
  | next before hstep ih => exact .next ih hstep

end Run

end ChilizChain
