import Mathlib.Data.BitVec
import Mathlib.Tactic.Ring

/-! Ranges of hashes. A hash counts as its number. The step is computed without a bound and stored
in 256 bits: the step over the whole space is stored as zero, and then `Next` never says no. -/

namespace ChilizChain.Snap

open Nat

structure HashRange where
  current : BitVec 256
  step : BitVec 256
  deriving DecidableEq

def hashSpace : ℕ := 2 ^ 256

/-- `num` is at least one; with zero the division panics. -/
def newHashRange (start : BitVec 256) (num : ℕ) : HashRange where
  current := start
  step := .ofNat 256 ((hashSpace - start.toNat + (num - 1)) / num)

namespace HashRange

variable (r : HashRange)

/-- What `AddOverflow` reports for the next position. -/
def overflow : Bool := 2 ^ 256 ≤ r.current.toNat + r.step.toNat

def next : Option HashRange :=
  if r.overflow then none else some { r with current := r.current + r.step }

def endHash : BitVec 256 := if r.overflow then .allOnes 256 else r.current + r.step - 1

/-- `Start` and `End` of the intervals until `Next` returns false, if it does so in time. -/
def intervals : ℕ → HashRange → Option (List (BitVec 256 × BitVec 256))
  | 0, _ => none
  | fuel + 1, r =>
    match r.next with
    | none => some [(r.current, r.endHash)]
    | some r' => (intervals fuel r').map ((r.current, r.endHash) :: ·)

end HashRange

/-- At most `num` intervals, none of them empty, in ascending order and without overlaps, that
cover the hashes from `start` on. -/
structure Partitions (start : BitVec 256) (num : ℕ) (l : List (BitVec 256 × BitVec 256)) :
    Prop where
  count : l.length ≤ num
  nonempty : ∀ i ∈ l, i.1 ≤ i.2
  ascending : l.Pairwise fun i j => i.2 < j.1
  cover : ∀ h, start ≤ h ↔ ∃ i ∈ l, i.1 ≤ h ∧ h ≤ i.2

variable {start first last : BitVec 256} {num : ℕ}

theorem partitions_single : Partitions start (num + 1) [(start, .allOnes 256)] where
  count := by simp
  nonempty := by simpa [BitVec.le_def] using le_sub_one_of_lt start.isLt
  ascending := List.pairwise_singleton ..
  cover x := by simpa [BitVec.le_def] using fun _ => le_sub_one_of_lt x.isLt

theorem Partitions.cons {l : List (BitVec 256 × BitVec 256)} (h : Partitions start num l)
    (hne : first ≤ last) (hlast : last.toNat + 1 = start.toNat) :
    Partitions first (num + 1) ((first, last) :: l) where
  count := by simpa using h.count
  nonempty := by simpa [hne] using h.nonempty
  ascending := by
    refine List.pairwise_cons.mpr ⟨fun i hi => ?_, h.ascending⟩
    have hstart : start ≤ i.1 := (h.cover i.1).mpr ⟨i, hi, BitVec.le_refl _, h.nonempty i hi⟩
    bv_omega
  cover x := by
    simp only [List.mem_cons, exists_eq_or_imp, ← h.cover x]
    bv_omega

theorem HashRange.intervals_partitions {r : HashRange} (hstep : 0 < r.step.toNat)
    (hnum : 2 ^ 256 ≤ r.current.toNat + num * r.step.toNat) :
    ∃ l, intervals num r = some l ∧ Partitions r.current num l := by
  induction num generalizing r with
  | zero =>
    have := r.current.isLt
    omega
  | succ num ih =>
    rw [intervals]
    by_cases hover : 2 ^ 256 ≤ r.current.toNat + r.step.toNat
    · simp only [next, endHash, overflow, hover, decide_true, if_true]
      exact ⟨_, rfl, partitions_single⟩
    · simp only [next, endHash, overflow, hover, decide_false, Bool.false_eq_true, if_false]
      have hcurrent : (r.current + r.step).toNat = r.current.toNat + r.step.toNat := by bv_omega
      obtain ⟨l, hl, hpartitions⟩ := ih (r := ⟨r.current + r.step, r.step⟩) hstep (by
        dsimp only
        rw [hcurrent, add_assoc]
        rw [succ_mul, add_comm (num * _)] at hnum
        exact hnum)
      refine ⟨_, by rw [hl]; rfl, hpartitions.cons ?_ ?_⟩
      · bv_omega
      · dsimp only
        bv_omega

theorem newHashRange_step (hnum : 1 ≤ num) (h : ¬ (start = 0 ∧ num = 1)) :
    (newHashRange start num).step.toNat = (hashSpace - start.toNat + (num - 1)) / num := by
  have hlt := start.isLt
  refine (BitVec.toNat_ofNat ..).trans (mod_eq_of_lt ?_)
  rw [div_lt_iff_lt_mul (by omega), hashSpace]
  rcases lt_or_ge 1 num with hmany | hone
  · have hmul : 2 ^ 256 * 2 ≤ 2 ^ 256 * num := mul_le_mul_left _ hmany
    have hadd : 2 ^ 256 * num = 2 ^ 256 * (num - 1) + 2 ^ 256 := by
      rw [← Nat.mul_succ, Nat.succ_eq_add_one, Nat.sub_add_cancel hnum]
    have hsub : num - 1 < 2 ^ 256 * (num - 1) := by
      exact lt_mul_of_one_lt_left (by omega) (by norm_num)
    omega
  · obtain rfl : num = 1 := by omega
    have hpos : 0 < start.toNat := by
      rw [pos_iff_ne_zero]
      intro hzero
      exact h ⟨BitVec.eq_of_toNat_eq hzero, rfl⟩
    omega

/-- The step over the whole space is zero. -/
theorem intervals_whole (fuel : ℕ) : (newHashRange 0 1).intervals fuel = none := by
  induction fuel with
  | zero => rfl
  | succ fuel ih =>
    have hnext : (newHashRange 0 1).next = some (newHashRange 0 1) := by decide
    simp only [HashRange.intervals, hnext, ih, Option.map_none]

/-- The intervals are a partition of the hashes from `start` on, in at most `num` parts, unless the
whole space is asked for in one part. -/
theorem hashRange_partitions_iff (start : BitVec 256) {num : ℕ} (hnum : 1 ≤ num) :
    (∃ fuel l, (newHashRange start num).intervals fuel = some l ∧ Partitions start num l) ↔
      ¬ (start = 0 ∧ num = 1) := by
  constructor
  · rintro ⟨fuel, l, hl, -⟩ ⟨rfl, rfl⟩
    rw [intervals_whole] at hl
    cases hl
  · intro h
    have hstep := newHashRange_step hnum h
    have hlt := start.isLt
    have hceil : hashSpace - start.toNat ≤ num * (newHashRange start num).step.toNat := by
      have hmod := mod_lt (hashSpace - start.toNat + (num - 1)) hnum
      have hdiv := div_add_mod (hashSpace - start.toNat + (num - 1)) num
      rw [hstep]
      omega
    have hpos : 0 < (newHashRange start num).step.toNat := by
      rw [pos_iff_ne_zero]
      intro hzero
      rw [hzero, hashSpace] at hceil
      omega
    refine ⟨num, (newHashRange start num).intervals_partitions hpos ?_⟩
    rw [hashSpace] at hceil
    exact Nat.sub_le_iff_le_add'.mp hceil

theorem hashRange_partitions_three :
    ∃ fuel l, (newHashRange 0 3).intervals fuel = some l ∧ Partitions 0 3 l :=
  (hashRange_partitions_iff 0 (by decide)).mpr (by decide)

theorem hashRange_whole_never_ends : ¬ ∃ fuel l, (newHashRange 0 1).intervals fuel = some l := by
  rintro ⟨fuel, l, hl⟩
  rw [intervals_whole] at hl
  cases hl

end ChilizChain.Snap
