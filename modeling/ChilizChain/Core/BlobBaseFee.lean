import ChilizChain.Lib.ExpSeries
import Mathlib.Tactic.NormNum.BigOperators
import Mathlib.Tactic.NormNum.NatFactorial

/-! The blob base fee: `fakeExponential` of the excess blob gas. The accumulator is a term of the
exponential series, rounded down twice in every round, and the loop ends when a term is zero. -/

namespace Eip4844

open Finset ExpSeries

/-- The loop of `fakeExponential`: `none` if the fuel is spent before the accumulator is zero. -/
def fakeExponentialLoop (numerator denominator : ℕ) : ℕ → ℕ → ℕ → ℕ → Option ℕ
  | 0, _, _, _ => none
  | fuel + 1, i, output, accum =>
    if accum = 0 then some output
    else fakeExponentialLoop numerator denominator fuel (i + 1) (output + accum)
      (accum * numerator / denominator / i)

/-- `factor * e ** (numerator / denominator)` by the Taylor expansion. -/
def fakeExponential (fuel factor numerator denominator : ℕ) : Option ℕ :=
  (fakeExponentialLoop numerator denominator fuel 1 0 (factor * denominator)).map (· / denominator)

variable {factor n d : ℕ}

theorem fakeExponentialLoop_succ {start j : ℕ} (fuel : ℕ) (hterm : term start n d j ≠ 0) :
    fakeExponentialLoop n d (fuel + 1) (j + 1)
        (∑ i ∈ range j, term start n d i) (term start n d j) =
      fakeExponentialLoop n d fuel (j + 1 + 1) (∑ i ∈ range (j + 1), term start n d i)
        (term start n d (j + 1)) := by
  rw [fakeExponentialLoop, if_neg hterm, sum_range_succ, term]

/-- The loop from the `j`-th round on, where the `k`-th term is the first that is zero. -/
theorem fakeExponentialLoop_eq {start k : ℕ} (hzero : term start n d k = 0)
    (hfirst : ∀ i < k, term start n d i ≠ 0) (fuel j : ℕ) (hj : j ≤ k) :
    fakeExponentialLoop n d fuel (j + 1) (∑ i ∈ range j, term start n d i) (term start n d j) =
      if k < j + fuel then some (∑ i ∈ range k, term start n d i) else none := by
  induction fuel generalizing j with
  | zero => rw [if_neg (by omega), fakeExponentialLoop]
  | succ fuel ih =>
    rcases hj.lt_or_eq with hlt | rfl
    · rw [fakeExponentialLoop_succ fuel (hfirst j hlt), ih (j + 1) hlt,
        show j + 1 + fuel = j + (fuel + 1) by omega]
    · rw [fakeExponentialLoop, if_pos hzero, if_pos (by omega)]

/-- The loop ends: there is a number of rounds that is enough, and exactly enough. -/
theorem fakeExponential_eq (factor n : ℕ) (hden : 1 ≤ d) : ∃ k, term (factor * d) n d k = 0 ∧
      ∀ fuel, fakeExponential fuel factor n d =
        if k < fuel then
          some ((∑ i ∈ range k, term (factor * d) n d i) / d)
        else none := by
  have hends := exists_term_eq_zero (factor * d) n hden
  refine ⟨Nat.find hends, Nat.find_spec hends, fun fuel => ?_⟩
  have hloop := fakeExponentialLoop_eq (Nat.find_spec hends) (fun i hi => Nat.find_min hends hi)
    fuel 0 (Nat.zero_le _)
  rw [range_zero, sum_empty, Nat.zero_add, Nat.zero_add, term] at hloop
  rw [fakeExponential, hloop]
  split
  · exact Option.map_some _ _
  · exact Option.map_none _

theorem le_sum_term_div (hden : 1 ≤ d) {k : ℕ} (hzero : term (factor * d) n d k = 0) :
    factor ≤ (∑ i ∈ range k, term (factor * d) n d i) / d := by
  rw [Nat.le_div_iff_mul_le hden, ← sum_term_of_le hzero (Nat.le_succ k)]
  exact single_le_sum (f := fun i => term (factor * d) n d i)
    (fun i _ => Nat.zero_le _) (mem_range.mpr (Nat.succ_pos k))

/-- The result of `k` rounds lies below the series, and above it by what the roundings lose: one
unit of the accumulator in every round but the first, each of which the later rounds multiply, and
the last division. -/
theorem sum_term_div_bounds (factor n : ℕ) (hden : 1 ≤ d) (k : ℕ) :
    (((∑ i ∈ range k, term (factor * d) n d i) / d : ℕ) : ℚ) ≤ factor * series (n / d) k ∧
      (factor - ((k : ℚ) - 1) / d) * series (n / d) k - 1 <
        ((∑ i ∈ range k, term (factor * d) n d i) / d : ℕ) := by
  have hpos : (0 : ℚ) < d := by exact_mod_cast hden
  obtain ⟨hle, hge⟩ := sum_term_bounds (factor * d) n d k
  generalize ∑ i ∈ range k, term (factor * d) n d i = output at hle hge ⊢
  generalize series (n / d) k = sum at hle hge ⊢
  rw [← Nat.floor_div_eq_div (K := ℚ)]
  push_cast at hle hge
  constructor
  · refine (Nat.floor_le (by positivity)).trans ((div_le_iff₀ hpos).mpr ?_)
    linarith
  · have hfloor := Nat.lt_floor_add_one ((output : ℚ) / d)
    have hexact : (factor - ((k : ℚ) - 1) / d) * sum ≤ output / d := by
      rw [le_div_iff₀ hpos]
      calc (factor - ((k : ℚ) - 1) / d) * sum * d
          = (factor * d - ((k : ℚ) - 1)) * sum := by field_simp
        _ ≤ output := hge
    linarith

/-- `fakeExponential` ends after some `k` rounds, with at least the factor. The result grows with
the numerator and with the factor, and it lies between the first `k` Taylor terms and what `k - 1`
lost units of the accumulator leave of them. -/
theorem fakeExponential_spec (factor numerator : ℕ) {denominator : ℕ} (hden : 1 ≤ denominator) :
    ∃ k result, (∀ fuel, fakeExponential fuel factor numerator denominator =
        if k < fuel then some result else none) ∧
      factor ≤ result ∧
      (∀ factor' numerator' fuel' result', factor ≤ factor' → numerator ≤ numerator' →
        fakeExponential fuel' factor' numerator' denominator = some result' → result ≤ result') ∧
      (result : ℚ) ≤ factor * series (numerator / denominator) k ∧
      (factor - ((k : ℚ) - 1) / denominator) * series (numerator / denominator) k - 1 < result := by
  obtain ⟨k, hzero, hrun⟩ := fakeExponential_eq factor numerator hden
  refine ⟨k, _, hrun, le_sum_term_div hden hzero, ?_,
    sum_term_div_bounds factor numerator hden k⟩
  intro factor' numerator' fuel' result' hfactor hnumerator hresult
  obtain ⟨k', hzero', hrun'⟩ := fakeExponential_eq factor' numerator' hden
  rw [hrun'] at hresult
  split at hresult
  · rw [← Option.some.inj hresult]
    exact Nat.div_le_div_right
      (sum_term_mono (Nat.mul_le_mul_right _ hfactor) hnumerator hzero hzero')
  · cases hresult

/-- Factor 3 and exponent 5. -/
theorem fakeExponential_spec_three_five : ∃ k result,
    (∀ fuel, fakeExponential fuel 3 5 1 = if k < fuel then some result else none) ∧ 3 ≤ result ∧
      (result : ℚ) ≤ (3 : ℕ) * series ((5 : ℕ) / (1 : ℕ)) k :=
  let ⟨k, result, hrun, hle, _, habove, _⟩ := fakeExponential_spec 3 5 (le_refl 1)
  ⟨k, result, hrun, hle, habove⟩

/-- The roundings lose more than one for each of the 13 rounds: the first terms are rounded down
before they are multiplied on. -/
theorem fakeExponential_loses_more : fakeExponential 13 3 5 1 = none ∧
    fakeExponential 14 3 5 1 = some 430 ∧ (430 : ℚ) < 3 * series (5 / 1) 13 - 13 := by
  refine ⟨by decide, by decide, ?_⟩
  norm_num [series, sum_range_succ, Nat.factorial_succ]

end Eip4844
