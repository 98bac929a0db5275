import Mathlib.Algebra.BigOperators.Fin
import Mathlib.Algebra.Order.Floor.Semifield
import Mathlib.Data.Rat.Floor
import Mathlib.Tactic.Positivity

/-! The exponential series in whole numbers: each term is the one before it times `n / d`, over its
index, rounded down. The terms come down to zero, they grow with the start and with `n`, and what
is lost by rounding is what the series makes of one unit for every term. -/

namespace ExpSeries

open Finset Nat

/-- The first `k` terms of the series of `exp x`. -/
def series (x : ℚ) (k : ℕ) : ℚ := ∑ i ∈ range k, x ^ i / i !

/-- The `k`-th term, rounded down at every step. -/
def term (start n d : ℕ) : ℕ → ℕ
  | 0 => start
  | k + 1 => term start n d k * n / d / (k + 1)

variable {start start' n n' d j k : ℕ} {x : ℚ}

theorem term_mono (hstart : start ≤ start') (hn : n ≤ n') (k : ℕ) :
    term start n d k ≤ term start' n' d k := by
  induction k with
  | zero => exact hstart
  | succ k ih => exact Nat.div_le_div_right (Nat.div_le_div_right (Nat.mul_le_mul ih hn))

theorem term_eq_zero_of_le (hzero : term start n d k = 0) (hle : k ≤ j) : term start n d j = 0 := by
  induction j, hle using Nat.le_induction with
  | base => exact hzero
  | succ j _ ih => simp [term, ih]

theorem term_succ_lt (hd : 0 < d) (hk : n / d ≤ k) (hpos : 0 < term start n d k) :
    term start n d (k + 1) < term start n d k := by
  have hn : n < d * (k + 1) :=
    calc n < d * (n / d + 1) := Nat.lt_mul_div_succ n hd
      _ ≤ d * (k + 1) := Nat.mul_le_mul_left d (Nat.succ_le_succ hk)
  rw [term, Nat.div_div_eq_div_mul]
  exact Nat.div_lt_of_lt_mul
    (by rw [Nat.mul_comm (d * _)]; exact Nat.mul_lt_mul_of_pos_left hn hpos)

theorem exists_term_eq_zero (start n : ℕ) (hd : 0 < d) : ∃ k, term start n d k = 0 := by
  -- by the size of a term beyond index `n / d`
  suffices hdown : ∀ m k, n / d ≤ k → term start n d k ≤ m → ∃ j, term start n d j = 0 from
    hdown _ (n / d) le_rfl le_rfl
  intro m
  induction m with
  | zero => exact fun k _ hterm => ⟨k, Nat.le_zero.mp hterm⟩
  | succ m ih =>
    intro k hk hterm
    rcases Nat.eq_zero_or_pos (term start n d k) with hzero | hpos
    · exact ⟨k, hzero⟩
    · have hlt := term_succ_lt hd hk hpos
      exact ih (k + 1) (by omega) (by omega)

@[simp]
theorem series_zero (x : ℚ) : series x 0 = 0 := sum_range_zero _

theorem series_mono (hx : 0 ≤ x) : Monotone (series x) := by
  intro k j hkj
  refine sum_le_sum_of_subset_of_nonneg (range_subset_range.mpr hkj) (fun i _ _ => ?_)
  positivity

/-- One unit in front and the rest of the series times `x / (k + 1)` stays below the series. -/
theorem series_mul_div_add_one_le (hx : 0 ≤ x) (k : ℕ) :
    series x k * x / (k + 1) + 1 ≤ series x (k + 1) := by
  have hterm : ∀ i ∈ range k, x ^ i / i ! * (x / (k + 1)) ≤ x ^ (i + 1) / (i + 1)! := by
    intro i hi
    have hik : (i : ℚ) + 1 ≤ k + 1 := by exact_mod_cast Nat.succ_le_succ (mem_range.mp hi).le
    calc x ^ i / i ! * (x / (k + 1)) ≤ x ^ i / i ! * (x / (i + 1)) := by gcongr
      _ = x ^ (i + 1) / (i + 1)! := by
        rw [Nat.factorial_succ, pow_succ]
        push_cast
        field_simp
  calc series x k * x / (k + 1) + 1 = ∑ i ∈ range k, x ^ i / i ! * (x / (k + 1)) + 1 := by
        rw [series, mul_div_assoc, sum_mul]
    _ ≤ ∑ i ∈ range k, x ^ (i + 1) / (i + 1)! + 1 := by
        gcongr with i hi
        exact hterm i hi
    _ = series x (k + 1) := by
        rw [series, sum_range_succ']
        simp

theorem term_succ_bounds (start n d k : ℕ) :
    (term start n d (k + 1) : ℚ) ≤ term start n d k * (n / d : ℚ) / (k + 1) ∧
      term start n d k * (n / d : ℚ) / (k + 1) < term start n d (k + 1) + 1 := by
  have hfloor : term start n d (k + 1) =
      ⌊((term start n d k * n : ℕ) : ℚ) / ((d * (k + 1) : ℕ) : ℚ)⌋₊ := by
    rw [term, Nat.div_div_eq_div_mul, Nat.floor_div_eq_div]
  have hvalue : ((term start n d k * n : ℕ) : ℚ) / ((d * (k + 1) : ℕ) : ℚ) =
      term start n d k * (n / d : ℚ) / (k + 1) := by
    push_cast
    rw [mul_div_assoc', div_div]
  rw [hfloor, hvalue]
  exact ⟨Nat.floor_le (by positivity), Nat.lt_floor_add_one _⟩

/-- A term against the exact one: never above it, and below it by at most the series. -/
theorem term_bounds (start n d k : ℕ) : (term start n d k : ℚ) ≤ start * (n / d : ℚ) ^ k / k ! ∧
      start * (n / d : ℚ) ^ k / (k !) - term start n d k ≤ series (n / d) k := by
  have hx : (0 : ℚ) ≤ n / d := by positivity
  induction k with
  | zero => simp [term]
  | succ k ih =>
    obtain ⟨hbelow, hloss⟩ := ih
    obtain ⟨hle, hlt⟩ := term_succ_bounds start n d k
    have hexact : start * (n / d : ℚ) ^ (k + 1) / (k + 1)! =
        start * (n / d : ℚ) ^ k / k ! * (n / d) / (k + 1) := by
      rw [Nat.factorial_succ, pow_succ]
      push_cast
      field_simp
    rw [hexact]
    constructor
    · exact hle.trans (by gcongr)
    · calc start * (n / d : ℚ) ^ k / k ! * (n / d) / (k + 1) - term start n d (k + 1)
          ≤ (start * (n / d : ℚ) ^ k / (k !) - term start n d k) * (n / d) / (k + 1) + 1 := by
            rw [sub_mul, sub_div]
            linarith
        _ ≤ series (n / d) k * (n / d) / (k + 1) + 1 := by gcongr
        _ ≤ series (n / d) (k + 1) := series_mul_div_add_one_le hx k

theorem sum_series_le (hx : 0 ≤ x) (k : ℕ) :
    ∑ i ∈ range k, series x i ≤ ((k : ℚ) - 1) * series x k := by
  cases k with
  | zero => simp
  | succ k =>
    calc ∑ i ∈ range (k + 1), series x i = ∑ i ∈ range k, series x (i + 1) := by
          simp [sum_range_succ']
      _ ≤ ∑ _i ∈ range k, series x (k + 1) :=
          sum_le_sum (fun i hi => series_mono hx (Nat.succ_le_succ (mem_range.mp hi).le))
      _ = (((k + 1 : ℕ) : ℚ) - 1) * series x (k + 1) := by simp

theorem sum_term_bounds (start n d k : ℕ) :
    ((∑ i ∈ range k, term start n d i : ℕ) : ℚ) ≤ start * series (n / d) k ∧
      (start - ((k : ℚ) - 1)) * series (n / d) k ≤ (∑ i ∈ range k, term start n d i : ℕ) := by
  have hx : (0 : ℚ) ≤ n / d := by positivity
  have hseries : start * series (n / d) k = ∑ i ∈ range k, start * (n / d : ℚ) ^ i / i ! := by
    simp only [series, mul_sum, mul_div_assoc]
  push_cast
  constructor
  · rw [hseries]
    exact sum_le_sum (fun i _ => (term_bounds start n d i).1)
  · have hloss : start * series (n / d) k - ∑ i ∈ range k, (term start n d i : ℚ) ≤
        ∑ i ∈ range k, series (n / d) i := by
      rw [hseries, ← sum_sub_distrib]
      exact sum_le_sum (fun i _ => (term_bounds start n d i).2)
    have hsum := sum_series_le hx k
    rw [sub_mul]
    linarith

theorem sum_term_of_le (hzero : term start n d k = 0) (hle : k ≤ j) :
    ∑ i ∈ range j, term start n d i = ∑ i ∈ range k, term start n d i := by
  refine (sum_subset (range_subset_range.mpr hle) (fun i _ hi => ?_)).symm
  exact term_eq_zero_of_le hzero (not_lt.mp (mt mem_range.mpr hi))

theorem sum_term_mono (hstart : start ≤ start') (hn : n ≤ n')
    (hzero : term start n d k = 0) (hzero' : term start' n' d j = 0) :
    ∑ i ∈ range k, term start n d i ≤ ∑ i ∈ range j, term start' n' d i := by
  rw [← sum_term_of_le hzero (Nat.le_max_left k j), ← sum_term_of_le hzero' (Nat.le_max_right k j)]
  exact sum_le_sum (fun i _ => term_mono hstart hn i)

end ExpSeries
