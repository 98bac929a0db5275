import Mathlib.Algebra.BigOperators.Ring.List
import Mathlib.Algebra.Order.BigOperators.Group.List
import Mathlib.Tactic.Linarith
import Mathlib.Tactic.Ring

/-! Sharing out an amount in proportion to weights, every share rounded down. The shares never
exceed the amount, and fewer units are lost than there are shares. -/

namespace ChilizChain.Shares

open List

variable {α : Type*}

theorem sum_filter_add (p : α → Bool) (g : α → ℤ) (xs : List α) :
    ((xs.filter p).map g).sum + ((xs.filter fun x => !p x).map g).sum = (xs.map g).sum := by
  induction xs with
  | nil => rfl
  | cons x xs ih =>
    rw [map_cons, sum_cons, ← ih]
    cases hp : p x with
    | true =>
      rw [filter_cons_of_pos hp, filter_cons_of_neg (by simp [hp]), map_cons,
        sum_cons]
      ring
    | false =>
      rw [filter_cons_of_neg (by simp [hp]), filter_cons_of_pos (by simp [hp]),
        map_cons, sum_cons]
      ring

variable {xs : List α}

theorem sum_eq_length_mul {g : α → ℤ} {m : ℤ} (h : ∀ x ∈ xs, g x = m) :
    (xs.map g).sum = m * xs.length := by
  rw [map_congr_left h, map_const', sum_replicate, nsmul_eq_mul, mul_comm]

theorem ediv_le_ediv_of_mul_le {a b c d : ℤ} (hb : 0 < b) (hd : 0 < d) (h : a * d ≤ c * b) :
    a / b ≤ c / d := by
  refine (Int.le_ediv_iff_mul_le hd).mpr (le_of_mul_le_mul_right ?_ hb)
  calc a / b * d * b = a / b * b * d := by ring
    _ ≤ a * d := mul_le_mul_of_nonneg_right (Int.ediv_mul_le a hb.ne') hd.le
    _ ≤ c * b := h

/-- Where the weights of a list go down and none above the floor `m` counted for less than the
floor, the weights above it give up at least what the new ones at the floor take. -/
theorem floored_add_le {f f' : α → ℤ} {m scale left : ℤ} (hleft : 0 ≤ left) (xs : List α)
    (hle : ∀ x ∈ xs, f' x ≤ f x) (hkept : ∀ x ∈ xs, m < f x → m * scale ≤ left * f x) :
    left * ((xs.filter fun x => m < f' x).map f').sum +
        scale * (m * (xs.filter fun x => !decide (m < f' x)).length) ≤
      left * ((xs.filter fun x => m < f x).map f).sum +
        scale * (m * (xs.filter fun x => !decide (m < f x)).length) := by
  induction xs with
  | nil => rfl
  | cons x xs ih =>
    have htail := ih (fun y hy => hle y (mem_cons_of_mem _ hy))
      (fun y hy => hkept y (mem_cons_of_mem _ hy))
    have hx := hle x mem_cons_self
    by_cases hbefore : m < f x
    · have hkept := hkept x mem_cons_self hbefore
      have hmono := mul_le_mul_of_nonneg_left hx hleft
      by_cases hafter : m < f' x <;>
        simp [hbefore, hafter, mul_add] <;> linarith
    · simp [hbefore, not_lt.mpr (hx.trans (not_lt.mp hbefore)), mul_add]
      linarith

/-- A weight that grows counts for more of what is shared out among the weights above the floor, if
these give up what is no longer shared out. -/
theorem scaled_le {own own' rest rest' left left' : ℤ} (hown : 0 ≤ own) (hle : own ≤ own')
    (hleft : 0 ≤ left) (hrest' : 0 ≤ rest')
    (h : left * rest' + (own + rest) * (left - left') ≤ left * rest) :
    left * own * (own' + rest') ≤ left' * own' * (own + rest) := by
  have hgain : 0 ≤ left * rest - (own + rest) * (left - left') := by
    have := mul_nonneg hleft hrest'
    omega
  calc left * own * (own' + rest') = left * own * own' + own * (left * rest') := by ring
    _ ≤ left * own * own' + own * (left * rest - (own + rest) * (left - left')) := by
        have := mul_le_mul_of_nonneg_left h hown
        linarith
    _ ≤ left * own * own' + own' * (left * rest - (own + rest) * (left - left')) := by
        have := mul_le_mul_of_nonneg_right hle hgain
        linarith
    _ = left' * own' * (own + rest) := by ring

variable {weight : ℤ} (amount : ℤ) (hweight : 0 < weight) (w : α → ℤ)

include hweight

theorem mul_sum_ediv_le (xs : List α) :
    weight * (xs.map fun x => amount * w x / weight).sum ≤ amount * (xs.map w).sum := by
  rw [← sum_map_mul_left, ← sum_map_mul_left]
  exact sum_le_sum fun x _ => Int.mul_ediv_self_le hweight.ne'

theorem mul_sum_lt_mul_sum_ediv (hne : xs ≠ []) : amount * (xs.map w).sum <
      weight * ((xs.map fun x => amount * w x / weight).sum + xs.length) := by
  have hlength : ((xs.length : ℕ) : ℤ) = (xs.map fun _ => (1 : ℤ)).sum := by
    rw [sum_eq_length_mul (m := 1) fun _ _ => rfl, one_mul]
  rw [hlength, ← sum_map_add, ← sum_map_mul_left, ← sum_map_mul_left]
  refine sum_lt_sum_of_ne_nil hne _ _ fun x _ => ?_
  rw [mul_add, mul_one]
  exact Int.lt_mul_ediv_self_add hweight

theorem sum_ediv_le (htotal : (xs.map w).sum = weight) :
    (xs.map fun x => amount * w x / weight).sum ≤ amount := by
  have h := mul_sum_ediv_le amount hweight w xs
  rw [htotal, mul_comm amount] at h
  exact le_of_mul_le_mul_left h hweight

theorem lt_sum_ediv_add_length (htotal : (xs.map w).sum = weight) :
    amount < (xs.map fun x => amount * w x / weight).sum + xs.length := by
  have hne : xs ≠ [] := by
    rintro rfl
    exact hweight.ne htotal
  have h := mul_sum_lt_mul_sum_ediv amount hweight w hne
  rw [htotal, mul_comm amount] at h
  exact lt_of_mul_lt_mul_left h hweight.le

end ChilizChain.Shares
