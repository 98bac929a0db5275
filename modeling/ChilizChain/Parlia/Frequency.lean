import ChilizChain.Lib.Shares
import ChilizChain.Parlia.Selection

/-! How a producer works out the frequency data. The stakes of the eligible validators are turned
into shares of `validatorFrequencyPrecision`, every share is raised to a common minimum, and the
shares above the minimum are then rescaled until the sum fits. A share that falls below the
minimum is raised again, which starts another round. -/

namespace ChilizChain

open Bytes List Shares Bool

/-- The errors of `calcFrequencyRLP`. -/
inductive FrequencyErr
  | errNoEligibleValidators
  | errEncodeCandidates
  /-- A validator without an entry in the stake map is a nil pointer. -/
  | panicked
deriving DecidableEq

/-- A candidate while its frequency, a `*big.Int`, is worked out. -/
structure FrequencyEntry where
  address : Address
  frequency : ℤ
deriving DecidableEq

namespace FrequencyEntry

def precision : ℤ := validatorFrequencyPrecision
def decimals : ℕ := 10 ^ 18
def minFrequencyFactor : ℕ := 2
def maxIterations : ℕ := 10

def total (candidates : List FrequencyEntry) : ℤ := (candidates.map frequency).sum

/-- `minFreq` for `n` candidates. -/
def minFrequency (n : ℕ) : ℤ := precision / (minFrequencyFactor * n : ℕ)

/-- The share of a stake, at least the minimum. -/
def baseFrequency (minFreq totalDelegated : ℤ) (candidate : FrequencyEntry) : FrequencyEntry :=
  { candidate with
    frequency := max minFreq (candidate.frequency * precision / totalDelegated) }

variable (minFreq : ℤ) (candidates : List FrequencyEntry)

/-! ## The rounds -/

/-- What `aboveMin` holds. Addresses are distinct, so the map gives a candidate its own frequency
back. -/
def aboveMin : List FrequencyEntry := candidates.filter fun c => minFreq < c.frequency

def adjustment : ℤ := precision - total candidates

/-- A frequency above the minimum after its adjustment, before it is compared with the minimum. -/
def adjusted (candidate : FrequencyEntry) : ℤ :=
  candidate.frequency +
    adjustment candidates * candidate.frequency / total (aboveMin minFreq candidates)

/-- The first `break` of a round. -/
def settled : Bool := adjustment candidates = 0 || total (aboveMin minFreq candidates) = 0

def rescale : List FrequencyEntry :=
  candidates.map fun c =>
    if minFreq < c.frequency then
      { c with frequency := max minFreq (adjusted minFreq candidates c) }
    else c

/-- `changed`: some frequency fell below the minimum in this round. -/
def changed : Bool :=
  (aboveMin minFreq candidates).any fun c => adjusted minFreq candidates c < minFreq

/-- At most as many rounds as the first argument says. -/
def normalize : ℕ → List FrequencyEntry → List FrequencyEntry
  | 0, candidates => candidates
  | iterations + 1, candidates =>
    if settled minFreq candidates then candidates
    else if changed minFreq candidates then normalize iterations (rescale minFreq candidates)
    else rescale minFreq candidates

/-- A `break` ends the loop within so many rounds. -/
def breaks : ℕ → List FrequencyEntry → Bool
  | 0, _ => false
  | iterations + 1, candidates =>
    settled minFreq candidates || !changed minFreq candidates ||
      breaks iterations (rescale minFreq candidates)

/-- The candidates with their minimal or proportional shares, as they enter the first round. -/
def bases : List FrequencyEntry :=
  candidates.map (baseFrequency (minFrequency candidates.length) (total candidates))

/-- Steps 2 to 4: from stakes to frequencies. -/
def allot : List FrequencyEntry :=
  normalize (minFrequency candidates.length) maxIterations (bases candidates)

end FrequencyEntry

/-- The entry that is encoded, for a frequency that is not negative. -/
def FrequencyEntry.toEntry (candidate : FrequencyEntry) : CandidateEntry :=
  ⟨candidate.address, candidate.frequency.toNat⟩

/-- The data of a header for these candidates. -/
def CandidateEntry.encodeAll (candidates : List CandidateEntry) : Bytes :=
  Rlp.encodeList (candidates.flatMap CandidateEntry.encode)

namespace Snapshot

open FrequencyEntry

variable (s : Snapshot) (stakes : Address → Option ℕ)

/-- Whether a validator with this stake becomes a candidate. -/
def eligible (addr : Address) (stake : ℕ) : Bool := stake ≠ 0 && !s.signRecently addr

/-- Step 1, over the validators in the order in which the map is iterated. Stakes are the
`uint256` amounts of the staking contract; whole tokens count. -/
def collect : List Address → Except FrequencyErr (List FrequencyEntry)
  | [] => pure []
  | addr :: order =>
    match stakes addr with
    | none => throw .panicked
    | some stake => do
      let candidates ← collect order
      return if s.eligible addr stake then ⟨addr, (stake / decimals : ℕ)⟩ :: candidates
        else candidates

/-- Steps 1 to 5: the candidates with their frequencies, in ascending order of address. -/
def calcFrequencies (order : List Address) : Except FrequencyErr (List FrequencyEntry) := do
  let candidates ← s.collect stakes order
  if candidates = [] ∨ total candidates = 0 then throw .errNoEligibleValidators
  return (allot candidates).insertionSort fun a b => (compare a.address b.address).isLE = true

/-- `calcFrequencyRLP`; a negative frequency has no encoding. -/
def calcFrequencyRLP (order : List Address) : Except FrequencyErr Bytes := do
  let candidates ← s.calcFrequencies stakes order
  if candidates.any fun c => c.frequency < 0 then throw .errEncodeCandidates
  return CandidateEntry.encodeAll (candidates.map toEntry)

end Snapshot

/-! ## One round -/

namespace FrequencyEntry

@[simp] theorem total_nil : total [] = 0 := rfl

@[simp] theorem total_cons (c : FrequencyEntry) (cs : List FrequencyEntry) :
    total (c :: cs) = c.frequency + total cs := rfl

theorem precision_eq : precision = 1000 := rfl

/-- What holds of the candidates in every round: no frequency lies below the minimum, and the
minima alone take at most half of the precision. -/
structure Floored (minFreq : ℤ) (candidates : List FrequencyEntry) : Prop where
  nonneg : 0 ≤ minFreq
  room : 2 * (minFreq * candidates.length) ≤ precision
  floor : ∀ c ∈ candidates, minFreq ≤ c.frequency

/-- The candidates at the minimum. -/
def resting (minFreq : ℤ) (candidates : List FrequencyEntry) : List FrequencyEntry :=
  candidates.filter fun c => !decide (minFreq < c.frequency)

/-- What the candidates above the minimum have to share. -/
def remainder (minFreq : ℤ) (candidates : List FrequencyEntry) : ℤ :=
  precision - minFreq * (resting minFreq candidates).length

/-- The candidates that a round pushes below the minimum. -/
def clamped (minFreq : ℤ) (candidates : List FrequencyEntry) : List FrequencyEntry :=
  (aboveMin minFreq candidates).filter fun c => adjusted minFreq candidates c < minFreq

variable {m : ℤ} {cs : List FrequencyEntry}

theorem mem_clamped {c : FrequencyEntry} : c ∈ clamped m cs ↔
    c ∈ aboveMin m cs ∧ adjusted m cs c < m := by
  rw [clamped, mem_filter, decide_eq_true_eq]

theorem lt_of_mem_aboveMin {c : FrequencyEntry} (hc : c ∈ aboveMin m cs) : m < c.frequency := by
  simpa using (mem_filter.mp hc).2

theorem length_aboveMin_add (m : ℤ) (cs : List FrequencyEntry) :
    (aboveMin m cs).length + (resting m cs).length = cs.length :=
  (length_eq_length_filter_add _).symm

namespace Floored

section

variable (h : Floored m cs)
include h

theorem eq_of_mem_resting {c : FrequencyEntry} (hc : c ∈ resting m cs) : c.frequency = m := by
  obtain ⟨hmem, hle⟩ := mem_filter.mp hc
  have hfloor := h.floor c hmem
  simp only [not_eq_true', decide_eq_false_iff_not] at hle
  omega

theorem total_eq : total cs = total (aboveMin m cs) + m * (resting m cs).length := by
  rw [total, ← sum_filter_add (fun c => decide (m < c.frequency)),
    ← sum_eq_length_mul fun c hc => h.eq_of_mem_resting hc]
  rfl

theorem total_aboveMin_pos (hne : aboveMin m cs ≠ []) : 0 < total (aboveMin m cs) := by
  have hsum : ((aboveMin m cs).map fun _ => (0 : ℤ)).sum <
      ((aboveMin m cs).map frequency).sum := by
    refine sum_lt_sum_of_ne_nil hne _ _ fun c hc => ?_
    exact lt_of_le_of_lt h.nonneg (lt_of_mem_aboveMin hc)
  rwa [sum_eq_length_mul (m := 0) fun _ _ => rfl, zero_mul] at hsum

theorem minFreq_mul_le {n : ℕ} (hn : n ≤ cs.length) : m * n ≤ m * cs.length :=
  mul_le_mul_of_nonneg_left (by exact_mod_cast hn) h.nonneg

theorem remainder_pos : 0 < remainder m cs := by
  have hroom := h.room
  have hle := h.minFreq_mul_le (n := (resting m cs).length)
    (by have := length_aboveMin_add m cs; omega)
  rw [remainder]
  rw [precision_eq] at hroom ⊢
  omega

theorem adjustment_eq : adjustment cs = remainder m cs - total (aboveMin m cs) := by
  rw [adjustment, remainder, h.total_eq]
  ring

theorem adjusted_eq {c : FrequencyEntry} (hc : c ∈ aboveMin m cs) : adjusted m cs c =
      remainder m cs * c.frequency / total (aboveMin m cs) := by
  have hpos := h.total_aboveMin_pos (ne_nil_of_mem hc)
  rw [adjusted, h.adjustment_eq, sub_mul, Int.sub_mul_ediv_left _ _ hpos.ne']
  ring

theorem total_rescale : total (rescale m cs) =
      ((aboveMin m cs).map fun c => max m (adjusted m cs c)).sum + m * (resting m cs).length := by
  rw [total, rescale, map_map, ← sum_filter_add (fun c => decide (m < c.frequency))]
  congr 1
  · refine congrArg List.sum (map_congr_left fun c hc => ?_)
    rw [Function.comp_apply, if_pos (lt_of_mem_aboveMin hc)]
  · refine sum_eq_length_mul fun c hc => ?_
    have heq := h.eq_of_mem_resting hc
    rw [Function.comp_apply, if_neg (by omega), heq]

end

theorem length_rescale : (rescale m cs).length = cs.length := by
  rw [rescale, length_map]

section

variable (h : Floored m cs)
include h

theorem rescaled : Floored m (rescale m cs) where
  nonneg := h.nonneg
  room := by
    rw [length_rescale]
    exact h.room
  floor := by
    intro c hc
    obtain ⟨d, hd, rfl⟩ := mem_map.mp hc
    split_ifs with habove
    · exact le_max_left _ _
    · exact h.floor d hd

theorem lt_total_rescale (hne : total (aboveMin m cs) ≠ 0) :
    precision < total (rescale m cs) + cs.length := by
  have hpos := h.total_aboveMin_pos fun hnil => hne (by rw [hnil, total_nil])
  have hshares : remainder m cs < ((aboveMin m cs).map fun c =>
      remainder m cs * c.frequency / total (aboveMin m cs)).sum +
        (aboveMin m cs).length :=
    lt_sum_ediv_add_length _ hpos _ rfl
  have hraised : ((aboveMin m cs).map fun c =>
      remainder m cs * c.frequency / total (aboveMin m cs)).sum ≤
        ((aboveMin m cs).map fun c =>
          max m (adjusted m cs c)).sum := by
    refine sum_le_sum fun c hc => ?_
    rw [h.adjusted_eq hc]
    exact le_max_right _ _
  have hlength := length_aboveMin_add m cs
  have hleft : remainder m cs =
    precision - m * (resting m cs).length := rfl
  rw [h.total_rescale]
  omega

theorem total_rescale_le (hne : total (aboveMin m cs) ≠ 0) (hchanged : changed m cs = false) :
    total (rescale m cs) ≤ precision := by
  have hpos := h.total_aboveMin_pos fun hnil => hne (by rw [hnil, total_nil])
  have hkept : ((aboveMin m cs).map fun c =>
      max m (adjusted m cs c)).sum ≤ remainder m cs := by
    have hsame : (aboveMin m cs).map (fun c =>
        max m (adjusted m cs c)) = (aboveMin m cs).map fun c =>
          remainder m cs * c.frequency / total (aboveMin m cs) := by
      refine map_congr_left fun c hc => ?_
      have hge := any_eq_false.mp hchanged c hc
      rw [decide_eq_true_eq, not_lt] at hge
      rw [max_eq_right hge, h.adjusted_eq hc]
    rw [hsame]
    exact sum_ediv_le _ hpos _ rfl
  rw [h.total_rescale]
  rw [remainder] at hkept
  omega

theorem changed_eq_false (hle : total cs ≤ precision) : changed m cs = false := by
  refine any_eq_false.mpr fun c hc => ?_
  have hpos := h.total_aboveMin_pos (ne_nil_of_mem hc)
  have habove := lt_of_mem_aboveMin hc
  have hnonneg := h.nonneg
  have hgrow : c.frequency ≤
      remainder m cs * c.frequency / total (aboveMin m cs) := by
    refine (Int.le_ediv_iff_mul_le hpos).mpr ?_
    rw [mul_comm]
    refine mul_le_mul_of_nonneg_right ?_ (by omega)
    rw [remainder]
    have htotal := h.total_eq
    omega
  rw [h.adjusted_eq hc, decide_eq_true_eq, not_lt]
  exact habove.le.trans hgrow

theorem remainder_mul_total_clamped_le : remainder m cs * total (clamped m cs) ≤
      total (aboveMin m cs) * (m * (clamped m cs).length) := by
  rw [total, ← sum_map_mul_left,
    ← sum_eq_length_mul (g := fun _ => m) fun _ _ => rfl, ← sum_map_mul_left]
  refine sum_le_sum fun c hc => ?_
  obtain ⟨habove, hlt⟩ := mem_clamped.mp hc
  have hpos := h.total_aboveMin_pos (ne_nil_of_mem habove)
  rw [h.adjusted_eq habove, Int.ediv_lt_iff_lt_mul hpos, mul_comm m] at hlt
  exact hlt.le

end

/-- The minima take at most half of the precision, so the clamped candidates had at most half of
what lies above the minimum. -/
theorem two_mul_total_clamped_le (h : Floored m cs) (hpos : 0 < total (aboveMin m cs)) :
    2 * total (clamped m cs) ≤ total (aboveMin m cs) := by
  have hminima : 2 * (m * (clamped m cs).length) ≤
      remainder m cs := by
    have hlength : (clamped m cs).length ≤ (aboveMin m cs).length :=
      length_filter_le _ _
    have hsplit := length_aboveMin_add m cs
    have hle := h.minFreq_mul_le
      (n := (clamped m cs).length + (resting m cs).length) (by omega)
    have hrest : 0 ≤ m * ((resting m cs).length : ℤ) :=
      mul_nonneg h.nonneg (Int.natCast_nonneg _)
    have hroom := h.room
    rw [Nat.cast_add, mul_add] at hle
    rw [remainder]
    omega
  have hfactor := h.remainder_mul_total_clamped_le
  have hscaled : remainder m cs * (2 * total (clamped m cs)) ≤
      remainder m cs * total (aboveMin m cs) := by
    calc remainder m cs * (2 * total (clamped m cs))
        = 2 * (remainder m cs * total (clamped m cs)) := by ring
      _ ≤ 2 * (total (aboveMin m cs) *
            (m * (clamped m cs).length)) := by omega
      _ = total (aboveMin m cs) *
            (2 * (m * (clamped m cs).length)) := by ring
      _ ≤ total (aboveMin m cs) * remainder m cs :=
          mul_le_mul_of_nonneg_left hminima hpos.le
      _ = remainder m cs * total (aboveMin m cs) := mul_comm _ _
  exact le_of_mul_le_mul_left hscaled h.remainder_pos

/-- What a round hands out above the minimum: the clamped candidates keep less than they had, the
others get their part of the remainder. -/
theorem mul_sum_max_lt (h : Floored m cs) (hne : clamped m cs ≠ [])
    (hpos : 0 < total (aboveMin m cs)) : total (aboveMin m cs) * ((aboveMin m cs).map fun c =>
        max m (adjusted m cs c)).sum < total (aboveMin m cs) * total (clamped m cs) +
        remainder m cs * (total (aboveMin m cs) - total (clamped m cs)) := by
  have hsplit := sum_filter_add
    (fun c => decide (adjusted m cs c < m))
  have hkept : total (aboveMin m cs) - total (clamped m cs) =
      (((aboveMin m cs).filter fun c =>
        !decide (adjusted m cs c < m)).map frequency).sum := by
    have := hsplit frequency (aboveMin m cs)
    rw [total, total, ← this]
    exact add_sub_cancel_left _ _
  rw [hkept, ← hsplit, mul_add]
  refine add_lt_add_of_lt_of_le ?_ ?_
  · refine mul_lt_mul_of_pos_left (sum_lt_sum_of_ne_nil hne _ _ fun c hc => ?_) hpos
    obtain ⟨habove, hlt⟩ := mem_clamped.mp hc
    rw [max_eq_left hlt.le]
    exact lt_of_mem_aboveMin habove
  · refine le_trans (le_of_eq ?_) (mul_sum_ediv_le _ hpos _ _)
    congr 2
    refine map_congr_left fun c hc => ?_
    obtain ⟨habove, hge⟩ := mem_filter.mp hc
    rw [not_eq_true', decide_eq_false_iff_not, not_lt] at hge
    rw [max_eq_right hge, h.adjusted_eq habove]

/-- The excess over the precision more than halves in a round that clamps. -/
theorem two_mul_excess_lt (h : Floored m cs) (hchanged : changed m cs) :
    2 * (total (rescale m cs) - precision) < total cs - precision := by
  obtain ⟨low, hlow, hlt⟩ := any_eq_true.mp hchanged
  have hne : clamped m cs ≠ [] :=
    ne_nil_of_mem (mem_filter.mpr ⟨hlow, hlt⟩)
  have hpos := h.total_aboveMin_pos (ne_nil_of_mem hlow)
  have hexcess : precision < total cs := by
    by_contra hle
    rw [h.changed_eq_false (not_lt.mp hle)] at hchanged
    cases hchanged
  have hspent := h.mul_sum_max_lt hne hpos
  have hhalf := h.two_mul_total_clamped_le hpos
  have htotal := h.total_eq
  have hafter := h.total_rescale
  have hleft : remainder m cs =
    precision - m * (resting m cs).length := rfl
  have hgap : 0 ≤ total (aboveMin m cs) - remainder m cs := by omega
  have hmul := mul_le_mul_of_nonneg_left hhalf hgap
  refine lt_of_mul_lt_mul_left ?_ hpos.le
  rw [hafter, htotal]
  nlinarith

end Floored

/-! ## All rounds -/

variable {cs : List FrequencyEntry}

/-- Each round that clamps halves the excess, so `n + 1` rounds suffice for an excess below
`2 ^ n`. -/
theorem Floored.breaks_of_excess_lt (h : Floored m cs) {n : ℕ}
    (hlt : total cs - precision < 2 ^ n) : breaks m (n + 1) cs = true := by
  induction n generalizing cs with
  | zero =>
    have hfits : changed m cs = false := h.changed_eq_false (by omega)
    rw [breaks, hfits]
    simp
  | succ n ih =>
    rw [breaks]
    cases hchanged : changed m cs with
    | false => simp
    | true =>
      have hhalf := h.two_mul_excess_lt hchanged
      rw [ih h.rescaled (by rw [pow_succ] at hlt; omega), Bool.or_true]

theorem map_address_rescale (m : ℤ) (cs : List FrequencyEntry) :
    (rescale m cs).map address = cs.map address := by
  rw [rescale, map_map]
  refine map_congr_left fun c _ => ?_
  rw [Function.comp_apply]
  split_ifs <;> rfl

theorem map_address_normalize (m : ℤ) (n : ℕ) (cs : List FrequencyEntry) :
    (normalize m n cs).map address = cs.map address := by
  induction n generalizing cs with
  | zero => rfl
  | succ n ih =>
    rw [normalize]
    split_ifs
    · rfl
    · rw [ih, map_address_rescale]
    · exact map_address_rescale m cs

namespace Floored

theorem normalized (h : Floored m cs) (n : ℕ) : Floored m (normalize m n cs) := by
  induction n generalizing cs with
  | zero => exact h
  | succ n ih =>
    rw [normalize]
    split_ifs
    · exact h
    · exact ih h.rescaled
    · exact h.rescaled

theorem not_settled (hsettled : ¬settled m cs = true) : total (aboveMin m cs) ≠ 0 := by
  intro hzero
  simp [settled, hzero] at hsettled

theorem lt_total_normalize (h : Floored m cs) (hlt : precision < total cs + cs.length) (n : ℕ) :
    precision < total (normalize m n cs) + cs.length := by
  induction n generalizing cs with
  | zero => exact hlt
  | succ n ih =>
    rw [normalize]
    split_ifs with hsettled
    · exact hlt
    · have hround := h.lt_total_rescale (not_settled hsettled)
      have hrest := ih h.rescaled (by rwa [length_rescale])
      rwa [length_rescale] at hrest
    · exact h.lt_total_rescale (not_settled hsettled)

theorem total_normalize_le (h : Floored m cs) {n : ℕ} (hbreaks : breaks m n cs = true) :
    total (normalize m n cs) ≤ precision := by
  induction n generalizing cs with
  | zero => cases hbreaks
  | succ n ih =>
    rw [normalize]
    split_ifs with hsettled hchanged
    · simp only [settled, or_eq_true, decide_eq_true_eq] at hsettled
      rcases hsettled with hexact | hnone
      · rw [adjustment] at hexact
        omega
      · -- every candidate is at the minimum
        have htotal := h.total_eq
        have hle := h.minFreq_mul_le (n := (resting m cs).length)
          (by have := length_aboveMin_add m cs; omega)
        have hroom := h.room
        rw [precision_eq] at hroom ⊢
        omega
    · refine ih h.rescaled ?_
      simpa [breaks, hsettled, hchanged] using hbreaks
    · exact h.total_rescale_le (not_settled hsettled) (eq_false_iff.mpr hchanged)

end Floored

/-! ## The frequencies of given stakes -/

theorem two_mul_minFrequency_mul_le (n : ℕ) : 2 * (minFrequency n * n) ≤ precision := by
  have h := Int.ediv_mul_le precision (b := (minFrequencyFactor * n : ℕ))
  rw [minFrequency]
  rcases Nat.eq_zero_or_pos n with rfl | hn
  · simp [precision_eq]
  · have hpos : ((minFrequencyFactor * n : ℕ) : ℤ) ≠ 0 := by
      simp [minFrequencyFactor, hn.ne']
    have hmul := h hpos
    rw [show ((minFrequencyFactor * n : ℕ) : ℤ) = 2 * n by simp [minFrequencyFactor]] at hmul ⊢
    calc 2 * (precision / (2 * n) * n) = precision / (2 * n) * (2 * n) := by ring
      _ ≤ precision := hmul

theorem minFrequency_nonneg (n : ℕ) : 0 ≤ minFrequency n :=
  Int.ediv_nonneg (by decide) (Int.natCast_nonneg _)

theorem floored_bases (cs : List FrequencyEntry) :
    Floored (minFrequency cs.length) (bases cs) where
  nonneg := minFrequency_nonneg _
  room := by
    rw [bases, length_map]
    exact two_mul_minFrequency_mul_le _
  floor := by
    intro c hc
    obtain ⟨d, -, rfl⟩ := mem_map.mp hc
    exact le_max_left _ _

theorem total_bases (cs : List FrequencyEntry) :
    total (bases cs) = (cs.map fun c => max (minFrequency cs.length)
      (c.frequency * precision / total cs)).sum := by
  rw [bases, total, map_map]
  rfl

variable (hpos : 0 < total cs)

include hpos in
theorem lt_total_bases : precision < total (bases cs) + cs.length := by
  have hshares : precision <
      (cs.map fun c => precision * c.frequency / total cs).sum +
        cs.length :=
    lt_sum_ediv_add_length precision hpos frequency rfl
  have hraised : (cs.map fun c => precision * c.frequency / total cs).sum ≤
      total (bases cs) := by
    rw [total_bases]
    refine sum_le_sum fun c _ => ?_
    rw [mul_comm precision]
    exact le_max_right _ _
  omega

variable (hnonneg : ∀ c ∈ cs, 0 ≤ c.frequency)

include hpos hnonneg in
theorem total_bases_le : 2 * total (bases cs) ≤ 3 * precision := by
  have hshares : (cs.map fun c => precision * c.frequency / total cs).sum ≤
      precision :=
    sum_ediv_le precision hpos frequency rfl
  have hraised : total (bases cs) ≤
      (cs.map fun c => precision * c.frequency / total cs).sum +
        minFrequency cs.length * cs.length := by
    rw [total_bases, ← sum_eq_length_mul
      (g := fun _ => minFrequency cs.length) fun _ _ => rfl, ← sum_map_add]
    refine sum_le_sum fun c hc => ?_
    have hshare : 0 ≤ precision * c.frequency / total cs :=
      Int.ediv_nonneg (mul_nonneg (by decide) (hnonneg c hc)) hpos.le
    have hmin := minFrequency_nonneg cs.length
    rw [mul_comm c.frequency]
    omega
  have hroom := two_mul_minFrequency_mul_le cs.length
  omega

include hpos hnonneg in
theorem breaks_bases : breaks (minFrequency cs.length) maxIterations (bases cs) = true := by
  refine (floored_bases cs).breaks_of_excess_lt (n := 9) ?_
  have hle := total_bases_le hpos hnonneg
  rw [precision_eq] at hle ⊢
  omega

theorem floored_allot (cs : List FrequencyEntry) : Floored (minFrequency cs.length) (allot cs) :=
  (floored_bases cs).normalized maxIterations

theorem map_address_allot (cs : List FrequencyEntry) : (allot cs).map address = cs.map address := by
  rw [allot, map_address_normalize, bases, map_map]
  rfl

include hnonneg in
theorem total_map_toEntry : (CandidateEntry.total (cs.map toEntry) : ℤ) = total cs := by
  induction cs with
  | nil => rfl
  | cons c cs ih =>
    rw [map_cons, CandidateEntry.total_cons, Nat.cast_add,
      ih fun d hd => hnonneg d (mem_cons_of_mem c hd), total_cons]
    congr 1
    exact Int.toNat_of_nonneg (hnonneg c (mem_cons_self ..))

/-- The entries that the data hold for these candidates. -/
def announced (candidates : List FrequencyEntry) : List CandidateEntry :=
  ((allot candidates).insertionSort fun a b =>
    (compare a.address b.address).isLE = true).map toEntry

theorem announced_perm_map (cs : List FrequencyEntry) :
    (announced cs).Perm ((allot cs).map toEntry) :=
  (perm_insertionSort _ _).map toEntry

theorem allot_nonneg (cs : List FrequencyEntry) : ∀ c ∈ allot cs, 0 ≤ c.frequency :=
  fun c hc => (minFrequency_nonneg _).trans ((floored_allot cs).floor c hc)

theorem total_announced (cs : List FrequencyEntry) :
    (CandidateEntry.total (announced cs) : ℤ) = total (allot cs) := by
  rw [← total_map_toEntry (allot_nonneg cs), CandidateEntry.total, CandidateEntry.total,
    ((announced_perm_map cs).map CandidateEntry.frequency).sum_eq]

theorem map_address_announced (cs : List FrequencyEntry) :
    ((announced cs).map CandidateEntry.address).Perm (cs.map address) := by
  refine ((announced_perm_map cs).map CandidateEntry.address).trans ?_
  rw [map_map, ← map_address_allot]
  exact List.Perm.refl _

theorem natCast_minFrequency (n : ℕ) :
    ((validatorFrequencyPrecision / (2 * n) : ℕ) : ℤ) = minFrequency n := rfl

theorem minFrequency_le_of_mem_announced {entry : CandidateEntry} (hentry : entry ∈ announced cs) :
    validatorFrequencyPrecision / (2 * cs.length) ≤ entry.frequency := by
  obtain ⟨c, hc, rfl⟩ := mem_map.mp ((announced_perm_map cs).mem_iff.mp hentry)
  have hfloor := (floored_allot cs).floor c hc
  have hnonneg := allot_nonneg cs c hc
  rw [← natCast_minFrequency] at hfloor
  show _ ≤ c.frequency.toNat
  omega

/-! ## Independence of the order -/

section Perm

variable {cs' : List FrequencyEntry} (h : cs.Perm cs')

include h

theorem total_perm : total cs = total cs' := (h.map frequency).sum_eq

theorem aboveMin_perm (m : ℤ) : (aboveMin m cs).Perm (aboveMin m cs') :=
  h.filter _

theorem adjusted_perm (m : ℤ) : adjusted m cs = adjusted m cs' := by
  funext c
  rw [adjusted, adjusted, adjustment, adjustment, total_perm h, total_perm (aboveMin_perm h m)]

theorem settled_perm (m : ℤ) : settled m cs = settled m cs' := by
  rw [settled, settled, adjustment, adjustment, total_perm h, total_perm (aboveMin_perm h m)]

theorem changed_perm (m : ℤ) : changed m cs = changed m cs' := by
  rw [changed, changed, adjusted_perm h m]
  exact (aboveMin_perm h m).any_eq

theorem rescale_perm (m : ℤ) : (rescale m cs).Perm (rescale m cs') := by
  rw [rescale, rescale, adjusted_perm h m]
  exact h.map _

omit h in
theorem normalize_perm (m : ℤ) (n : ℕ) {cs cs' : List FrequencyEntry} (h : cs.Perm cs') :
    (normalize m n cs).Perm (normalize m n cs') := by
  induction n generalizing cs cs' with
  | zero => exact h
  | succ n ih =>
    rw [normalize, normalize, settled_perm h m, changed_perm h m]
    split_ifs
    · exact h
    · exact ih (rescale_perm h m)
    · exact rescale_perm h m

theorem bases_perm : (bases cs).Perm (bases cs') := by
  rw [bases, bases, h.length_eq, total_perm h]
  exact h.map _

theorem allot_perm : (allot cs).Perm (allot cs') := by
  rw [allot, allot, h.length_eq]
  exact normalize_perm _ _ (bases_perm h)

end Perm

theorem insertionSort_perm (h : cs.Perm cs') (hnodup : (cs.map address).Nodup) :
    cs.insertionSort (fun a b => (compare a.address b.address).isLE = true) =
      cs'.insertionSort fun a b => (compare a.address b.address).isLE = true := by
  have htotal : Std.Total fun a b : FrequencyEntry =>
      (compare a.address b.address).isLE = true := by
    refine ⟨fun a b => ?_⟩
    rw [show compare b.address a.address = (compare a.address b.address).swap from
      Std.OrientedOrd.eq_swap]
    cases compare a.address b.address <;> decide
  have htrans : IsTrans FrequencyEntry fun a b => (compare a.address b.address).isLE = true :=
    ⟨fun a b c hab hbc => Std.TransCmp.isLE_trans hab hbc⟩
  refine List.Perm.eq_of_pairwise ?_ (pairwise_insertionSort _ _)
    (pairwise_insertionSort _ _) ?_
  · intro a b ha hb hab hba
    have haddress : a.address = b.address :=
      Std.LawfulEqOrd.eq_of_compare (Std.OrientedCmp.isLE_antisymm hab hba)
    rw [mem_insertionSort] at ha hb
    exact inj_on_of_nodup_map hnodup ha (h.mem_iff.mpr hb) haddress
  · exact (perm_insertionSort _ _).trans (h.trans (perm_insertionSort _ _).symm)

theorem announced_perm (h : cs.Perm cs')
    (hnodup : (cs.map address).Nodup) : announced cs = announced cs' := by
  rw [announced, announced, insertionSort_perm (allot_perm h) (by rwa [map_address_allot])]

end FrequencyEntry

namespace Snapshot

open FrequencyEntry

variable (s : Snapshot) (stakes : Address → Option ℕ)

/-- The stake of a validator in whole tokens. -/
def tokens (addr : Address) : ℕ := (stakes addr).getD 0 / decimals

/-- The validators that become candidates. -/
def eligibles (order : List Address) : List Address :=
  order.filter fun addr => (stakes addr).any (s.eligible addr)

/-- What the first step collects, if every validator has a stake. -/
def collected (order : List Address) : List FrequencyEntry :=
  (s.eligibles stakes order).map fun addr => ⟨addr, tokens stakes addr⟩

variable {s stakes} {order : List Address}

theorem collect_eq (hstakes : ∀ addr ∈ order, (stakes addr).isSome) :
    s.collect stakes order = .ok (s.collected stakes order) := by
  induction order with
  | nil => rfl
  | cons addr order ih =>
    obtain ⟨stake, hstake⟩ := Option.isSome_iff_exists.mp (hstakes addr (mem_cons_self ..))
    rw [collect, hstake]
    simp only [ih fun a ha => hstakes a (mem_cons_of_mem addr ha)]
    cases heligible : s.eligible addr stake with
    | true => simp [collected, eligibles, tokens, hstake, heligible, pure, Except.pure, bind,
        Except.bind]
    | false => simp [collected, eligibles, hstake, heligible, pure, Except.pure, bind, Except.bind]

theorem collect_of_missing (hmissing : ¬∀ addr ∈ order, (stakes addr).isSome) :
    s.collect stakes order = .error .panicked := by
  induction order with
  | nil => simp at hmissing
  | cons addr order ih =>
    rw [collect]
    cases hstake : stakes addr with
    | none => rfl
    | some stake =>
      have hrest : ¬∀ a ∈ order, (stakes a).isSome := by
        intro hall
        refine hmissing fun a ha => ?_
        rcases mem_cons.mp ha with rfl | ha
        · rw [hstake]
          rfl
        · exact hall a ha
      simp only [ih hrest]
      rfl

theorem map_address_collected :
    (s.collected stakes order).map address = s.eligibles stakes order := by
  rw [collected, map_map]
  exact map_id _

theorem total_collected :
    total (s.collected stakes order) =
      (((s.eligibles stakes order).map (tokens stakes)).sum : ℕ) := by
  rw [total, collected, map_map, Nat.cast_list_sum, map_map]
  rfl

theorem collected_nonneg : ∀ c ∈ s.collected stakes order, 0 ≤ c.frequency := by
  intro c hc
  obtain ⟨addr, -, rfl⟩ := mem_map.mp hc
  exact Int.natCast_nonneg _

theorem eligibles_perm {order' : List Address} (h : order.Perm order') :
    (s.eligibles stakes order).Perm (s.eligibles stakes order') :=
  h.filter _

theorem collected_perm {order' : List Address} (h : order.Perm order') :
    (s.collected stakes order).Perm (s.collected stakes order') :=
  (eligibles_perm h).map _

theorem calcFrequencyRLP_eq (hstakes : ∀ addr ∈ order, (stakes addr).isSome)
    (hpos : 0 < total (s.collected stakes order)) : s.calcFrequencyRLP stakes order =
      .ok (CandidateEntry.encodeAll (announced (s.collected stakes order))) := by
  have hne : s.collected stakes order ≠ [] := by
    intro hnil
    rw [hnil] at hpos
    exact lt_irrefl _ hpos
  have hnonneg : ((allot (s.collected stakes order)).insertionSort fun a b =>
      (compare a.address b.address).isLE = true).any (fun c => c.frequency < 0) = false := by
    refine any_eq_false.mpr fun c hc => ?_
    rw [decide_eq_true_eq, not_lt]
    exact allot_nonneg _ c ((mem_insertionSort _).mp hc)
  rw [calcFrequencyRLP, calcFrequencies, collect_eq hstakes]
  simp [bind, Except.bind, pure, Except.pure, hne, hpos.ne', hnonneg, announced]

theorem nodup_validatorList (s : Snapshot) : s.validatorList.Nodup :=
  Std.ExtTreeMap.nodup_keys

theorem nodup_collected (horder : order.Perm s.validatorList) :
    ((s.collected stakes order).map address).Nodup := by
  rw [map_address_collected]
  exact (horder.nodup_iff.mpr s.nodup_validatorList).filter _

/-- **Frequencies are bounded.** Whatever order the validators are visited in, each of the `N`
eligible ones gets at least the minimum, fewer than `N` units are lost, no more than the precision
is handed out, and the loop ends with a `break`. A positive total needs an eligible validator, so
`N` is not zero. -/
theorem frequencies_bounded (s : Snapshot) (stakes : Address → Option ℕ) (order : List Address)
    (horder : order.Perm s.validatorList) (hstakes : ∀ addr ∈ s.validatorList, (stakes addr).isSome)
    (htotal : 0 < ((s.eligibles stakes s.validatorList).map (tokens stakes)).sum) :
    ∃ entries : List CandidateEntry,
      s.calcFrequencyRLP stakes order = .ok (CandidateEntry.encodeAll entries) ∧
      (entries.map CandidateEntry.address).Perm (s.eligibles stakes s.validatorList) ∧
      (∀ entry ∈ entries, validatorFrequencyPrecision /
        (2 * (s.eligibles stakes s.validatorList).length) ≤ entry.frequency) ∧
      validatorFrequencyPrecision <
        CandidateEntry.total entries + (s.eligibles stakes s.validatorList).length ∧
      CandidateEntry.total entries ≤ validatorFrequencyPrecision ∧
      breaks (minFrequency (s.eligibles stakes s.validatorList).length) maxIterations
        (bases (s.collected stakes order)) = true := by
  have hperm : (s.eligibles stakes order).Perm (s.eligibles stakes s.validatorList) :=
    eligibles_perm horder
  have hlength : (s.collected stakes order).length =
      (s.eligibles stakes s.validatorList).length := by
    rw [collected, length_map, hperm.length_eq]
  have hpos : 0 < total (s.collected stakes order) := by
    rw [total_collected, (hperm.map (tokens stakes)).sum_eq]
    exact_mod_cast htotal
  have hbreaks := breaks_bases hpos collected_nonneg
  have hlow := (floored_bases (s.collected stakes order)).lt_total_normalize
    (by rw [bases, length_map]; exact lt_total_bases hpos) maxIterations
  have hhigh := (floored_bases (s.collected stakes order)).total_normalize_le hbreaks
  have hsum : (CandidateEntry.total (announced (s.collected stakes order)) : ℤ) =
      total (FrequencyEntry.normalize (minFrequency (s.collected stakes order).length)
        maxIterations (bases (s.collected stakes order))) := total_announced _
  have hprecision : precision = (validatorFrequencyPrecision : ℕ) := rfl
  rw [bases, length_map] at hlow
  rw [← hlength]
  refine ⟨announced (s.collected stakes order),
    calcFrequencyRLP_eq (fun addr haddr => hstakes addr (horder.mem_iff.mp haddr)) hpos,
    ?_, fun entry => minFrequency_le_of_mem_announced, ?_, ?_, hbreaks⟩
  · rw [← map_address_collected] at hperm
    exact (map_address_announced _).trans hperm
  · rw [← bases] at hlow
    omega
  · omega

/-- A snapshot of block 1 with the validators `1, …, n`. -/
def ofValidators (n : ℕ) : Snapshot :=
  newSnapshot default 1 default ((List.range n).map fun i => .ofBytes 20 [UInt8.ofNat (i + 1)]) []
    true

/-- Stakes in whole tokens for the validators `1, 2, …`. -/
def stakesOf (amounts : List ℕ) (addr : Address) : Option ℕ :=
  some (amounts.getD (beNat addr.bytes - 1) 0 * decimals)

/-- Three validators, one of them with almost everything. -/
theorem frequencies_bounded_three : ∃ entries : List CandidateEntry,
      (ofValidators 3).calcFrequencyRLP (stakesOf [900, 2, 1]) (ofValidators 3).validatorList =
        .ok (CandidateEntry.encodeAll entries) ∧ (∀ entry ∈ entries, 166 ≤ entry.frequency) ∧
      1000 < CandidateEntry.total entries + 3 ∧ CandidateEntry.total entries ≤ 1000 := by
  have hlength : ((ofValidators 3).eligibles (stakesOf [900, 2, 1])
      (ofValidators 3).validatorList).length = 3 := by decide
  obtain ⟨entries, hbytes, -, hmin, hlow, hhigh, -⟩ := frequencies_bounded (ofValidators 3)
    (stakesOf [900, 2, 1]) (ofValidators 3).validatorList (List.Perm.refl _) (fun _ _ => rfl)
    (by decide)
  rw [hlength] at hmin hlow
  exact ⟨entries, hbytes, hmin, hlow, hhigh⟩

/-- **Frequency data are deterministic.** The bytes, and likewise a failure, depend on the
entries of the stake map alone, not on the order in which the validators are visited. -/
theorem calcFrequencyRLP_deterministic (s : Snapshot) (stakes stakes' : Address → Option ℕ)
    (order order' : List Address) (hsame : ∀ addr, stakes addr = stakes' addr)
    (horder : order.Perm s.validatorList) (horder' : order'.Perm s.validatorList) :
    s.calcFrequencyRLP stakes order = s.calcFrequencyRLP stakes' order' := by
  obtain rfl : stakes = stakes' := funext hsame
  have hperm : order.Perm order' := horder.trans horder'.symm
  have hcollected : (s.collected stakes order).Perm (s.collected stakes order') :=
    collected_perm hperm
  by_cases hstakes : ∀ addr ∈ order, (stakes addr).isSome
  · have hstakes' : ∀ addr ∈ order', (stakes addr).isSome := fun addr haddr =>
      hstakes addr (hperm.mem_iff.mpr haddr)
    by_cases hzero : total (s.collected stakes order) = 0
    · have hzero' : total (s.collected stakes order') = 0 := by rw [← total_perm hcollected, hzero]
      rw [calcFrequencyRLP, calcFrequencyRLP, calcFrequencies, calcFrequencies,
        collect_eq hstakes, collect_eq hstakes']
      simp [bind, Except.bind, throw, throwThe, MonadExceptOf.throw, hzero, hzero']
    · have hpos : 0 < total (s.collected stakes order) := by
        rw [total_collected] at hzero ⊢
        omega
      rw [calcFrequencyRLP_eq hstakes hpos,
        calcFrequencyRLP_eq hstakes' (by rwa [← total_perm hcollected]),
        announced_perm hcollected (nodup_collected horder)]
  · have hstakes' : ¬∀ addr ∈ order', (stakes addr).isSome := fun hall =>
      hstakes fun addr haddr => hall addr (hperm.mem_iff.mp haddr)
    rw [calcFrequencyRLP, calcFrequencyRLP, calcFrequencies, calcFrequencies,
      collect_of_missing hstakes, collect_of_missing hstakes']

/-- Two validators, visited in either order. -/
theorem calcFrequencyRLP_deterministic_two :
    (ofValidators 2).calcFrequencyRLP (stakesOf [3, 5]) (ofValidators 2).validatorList =
      (ofValidators 2).calcFrequencyRLP (stakesOf [3, 5]) (ofValidators 2).validatorList.reverse :=
  calcFrequencyRLP_deterministic (ofValidators 2) (stakesOf [3, 5]) (stakesOf [3, 5]) _ _
    (fun _ => rfl) (List.Perm.refl _) (reverse_perm _)

end Snapshot

end ChilizChain
