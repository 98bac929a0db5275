import Mathlib

/-! Inversion and computation rules for fallible computations, stated once so that proofs
about modelled functions peel a `do` block apart with `obtain` instead of unfolding the
monad. -/

namespace Except

variable {ε α β : Type}

@[simp] theorem ok_bind (a : α) (f : α → Except ε β) : (Except.ok a >>= f) = f a := rfl

@[simp] theorem error_bind (e : ε) (f : α → Except ε β) :
    ((Except.error e : Except ε α) >>= f) = .error e := rfl

@[simp] theorem pure_eq_ok (a : α) : (pure a : Except ε α) = .ok a := rfl

@[simp] theorem throw_eq_error (e : ε) : (throw e : Except ε α) = .error e := rfl

@[simp] theorem map_eq_ok (f : α → β) (a : α) :
    (f <$> (Except.ok a : Except ε α)) = .ok (f a) := rfl

theorem bind_eq_ok {x : Except ε α} {f : α → Except ε β} {b : β} :
    (x >>= f) = .ok b ↔ ∃ a, x = .ok a ∧ f a = .ok b := by
  cases x with
  | error e => simp
  | ok a => simp

theorem map_eq_ok_iff {x : Except ε α} {f : α → β} {b : β} :
    f <$> x = .ok b ↔ ∃ a, x = .ok a ∧ f a = b := by
  cases x with
  | error e => simp
  | ok a => simp

/-- A loop over an index that fills an array, and stops at the first failure. -/
def collect : {n : ℕ} → (Fin n → Except ε α) → Except ε (Fin n → α)
  | 0, _ => .ok Fin.elim0
  | _ + 1, f => do
    let a ← f 0
    let as ← collect fun i => f i.succ
    .ok (Fin.cons a as)

theorem collect_ok {n : ℕ} {f : Fin n → Except ε α} {g : Fin n → α} (h : ∀ i, f i = .ok (g i)) :
    collect f = .ok g := by
  induction n with
  | zero =>
    rw [collect]
    congr
    funext i
    exact i.elim0
  | succ n ih =>
    rw [collect, h 0, ok_bind, ih fun i => h i.succ, ok_bind]
    congr
    exact Fin.cons_self_tail g

end Except
