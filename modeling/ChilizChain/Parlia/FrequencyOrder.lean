import ChilizChain.Parlia.Frequency

/-! Stakes and frequencies in order. All rounds apply one function to the frequencies of all
candidates, and it is monotone; so candidates of one allocation are ordered as their stakes are.
Between two allocations the order can break: raising a stake can change how many rounds there
are, and every round rounds down. It does not break as long as nobody is raised to the minimum. -/

namespace ChilizChain

open List Function Shares Int

namespace FrequencyEntry

variable {m : ℤ} {candidates : List FrequencyEntry}

/-! ## One allocation -/

/-- What a round does to a frequency. -/
def roundFrequency (minFreq : ℤ) (candidates : List FrequencyEntry) (frequency : ℤ) : ℤ :=
  if minFreq < frequency then
    max minFreq (frequency +
      adjustment candidates * frequency / total (aboveMin minFreq candidates))
  else frequency

/-- What all rounds together do to a frequency. -/
def finalFrequency (minFreq : ℤ) : ℕ → List FrequencyEntry → ℤ → ℤ
  | 0, _, frequency => frequency
  | iterations + 1, candidates, frequency =>
    if settled minFreq candidates then frequency
    else if changed minFreq candidates then
      finalFrequency minFreq iterations (rescale minFreq candidates)
        (roundFrequency minFreq candidates frequency)
    else roundFrequency minFreq candidates frequency

/-- The share of `amount` tokens before it is compared with the minimum. -/
def share (candidates : List FrequencyEntry) (amount : ℤ) : ℤ :=
  amount * precision / total candidates

/-- The frequency that `amount` whole tokens get among these candidates. -/
def frequencyOf (candidates : List FrequencyEntry) (amount : ℤ) : ℤ :=
  finalFrequency (minFrequency candidates.length) maxIterations (bases candidates)
    (max (minFrequency candidates.length) (share candidates amount))

theorem rescale_eq_map (m : ℤ) (cs : List FrequencyEntry) :
    rescale m cs = cs.map fun c =>
      { c with frequency := roundFrequency m cs c.frequency } := by
  refine map_congr_left fun c _ => ?_
  rw [roundFrequency]
  split_ifs <;> rfl

theorem normalize_eq_map (m : ℤ) (n : ℕ) (cs : List FrequencyEntry) :
    normalize m n cs = cs.map fun c =>
      { c with frequency := finalFrequency m n cs c.frequency } := by
  induction n generalizing cs with
  | zero => exact (map_id _).symm
  | succ n ih =>
    rw [normalize]
    simp only [finalFrequency]
    split_ifs
    · exact (map_id _).symm
    · rw [ih, rescale_eq_map, map_map, ← rescale_eq_map]
      rfl
    · exact rescale_eq_map m cs

theorem allot_eq_map (cs : List FrequencyEntry) :
    allot cs = cs.map fun c =>
      { c with frequency := frequencyOf cs c.frequency } := by
  rw [allot, normalize_eq_map, bases, map_map]
  rfl

theorem finalFrequency_min (n : ℕ) (cs : List FrequencyEntry) : finalFrequency m n cs m = m := by
  have hround : ∀ cs, roundFrequency m cs m = m := by
    intro cs
    rw [roundFrequency, if_neg (lt_irrefl _)]
  induction n generalizing cs with
  | zero => rfl
  | succ n ih =>
    rw [finalFrequency]
    split_ifs
    · rfl
    · rw [hround, ih]
    · exact hround cs

theorem le_finalFrequency {frequency : ℤ} (hle : m ≤ frequency) (n : ℕ) (cs : List FrequencyEntry) :
    m ≤ finalFrequency m n cs frequency := by
  have hround : ∀ (cs : List FrequencyEntry) (frequency : ℤ), m ≤ frequency →
      m ≤ roundFrequency m cs frequency := by
    intro cs frequency hle
    rw [roundFrequency]
    split_ifs
    · exact le_max_left _ _
    · exact hle
  induction n generalizing cs frequency with
  | zero => exact hle
  | succ n ih =>
    rw [finalFrequency]
    split_ifs
    · exact hle
    · exact ih (hround cs frequency hle) _
    · exact hround cs frequency hle

theorem Floored.roundFrequency_of_lt (h : Floored m cs)
    (hpos : 0 < total (aboveMin m cs)) {frequency : ℤ} (hlt : m < frequency) :
    roundFrequency m cs frequency = max m (remainder m cs * frequency / total (aboveMin m cs)) := by
  rw [roundFrequency, if_pos hlt, h.adjustment_eq, sub_mul, sub_mul_ediv_left _ _ hpos.ne']
  congr 1
  ring

theorem Floored.roundFrequency_mono (h : Floored m cs) (hpos : 0 < total (aboveMin m cs)) :
    Monotone (roundFrequency m cs) := by
  intro low high hle
  by_cases hlow : m < low
  · rw [h.roundFrequency_of_lt hpos hlow, h.roundFrequency_of_lt hpos (hlow.trans_le hle)]
    refine max_le_max le_rfl (Int.ediv_le_ediv hpos ?_)
    exact mul_le_mul_of_nonneg_left hle h.remainder_pos.le
  · rw [roundFrequency, if_neg hlow]
    by_cases hhigh : m < high
    · rw [h.roundFrequency_of_lt hpos hhigh]
      exact (not_lt.mp hlow).trans (le_max_left _ _)
    · rw [roundFrequency, if_neg hhigh]
      exact hle

theorem Floored.finalFrequency_mono (h : Floored m cs) (n : ℕ) :
    Monotone (finalFrequency m n cs) := by
  induction n generalizing cs with
  | zero => exact monotone_id
  | succ n ih =>
    intro low high hle
    simp only [finalFrequency]
    split_ifs with hsettled
    · exact hle
    all_goals
      have hpos := h.total_aboveMin_pos fun hnil =>
        Floored.not_settled hsettled (by rw [hnil, total_nil])
    · exact ih h.rescaled (h.roundFrequency_mono hpos hle)
    · exact h.roundFrequency_mono hpos hle

theorem frequencyOf_mono (hpos : 0 < total cs) : Monotone (frequencyOf cs) := by
  intro low high hle
  refine (floored_bases cs).finalFrequency_mono maxIterations (max_le_max le_rfl ?_)
  exact Int.ediv_le_ediv hpos (mul_le_mul_of_nonneg_right hle (by decide))

theorem minFrequency_le_frequencyOf (cs : List FrequencyEntry) (amount : ℤ) :
    minFrequency cs.length ≤ frequencyOf cs amount :=
  le_finalFrequency (le_max_left _ _) _ _

/-! ## Two allocations -/

theorem Floored.changed_eq_false_iff (h : Floored m cs) : changed m cs = false ↔
    ∀ c ∈ aboveMin m cs, m * total (aboveMin m cs) ≤ remainder m cs * c.frequency := by
  rw [changed, any_eq_false]
  refine forall₂_congr fun c hc => ?_
  rw [decide_eq_true_eq, not_lt, h.adjusted_eq hc,
    Int.le_ediv_iff_mul_le (h.total_aboveMin_pos (ne_nil_of_mem hc))]

/-- No share above the minimum falls below it in a round: what the candidates at the minimum leave
is enough for all of them. -/
def NoneFalls (candidates : List FrequencyEntry) : Prop :=
  let minFreq := minFrequency candidates.length
  let above := (candidates.map fun c => share candidates c.frequency).filter (minFreq < ·)
  ∀ x ∈ above,
    minFreq * above.sum ≤ (precision - minFreq * (candidates.length - above.length : ℕ)) * x

theorem map_aboveMin_bases (cs : List FrequencyEntry) :
    (aboveMin (minFrequency cs.length) (bases cs)).map frequency =
      (cs.map fun c => share cs c.frequency).filter (minFrequency cs.length < ·) := by
  rw [aboveMin, bases, filter_map, map_map, filter_map]
  have hfilter : cs.filter ((fun c => decide (minFrequency cs.length < c.frequency)) ∘
      baseFrequency (minFrequency cs.length) (total cs)) =
      cs.filter ((minFrequency cs.length < ·) ∘ fun c => share cs c.frequency) :=
    filter_congr fun c _ => by simp [baseFrequency, share]
  rw [hfilter]
  refine map_congr_left fun c hc => ?_
  have hlt : minFrequency cs.length < share cs c.frequency := by
    simpa using (mem_filter.mp hc).2
  exact max_eq_right hlt.le

theorem noneFalls_iff : NoneFalls cs ↔ changed (minFrequency cs.length) (bases cs) = false := by
  have hresting : cs.length - (aboveMin (minFrequency cs.length) (bases cs)).length =
      (resting (minFrequency cs.length) (bases cs)).length := by
    have := length_aboveMin_add (minFrequency cs.length) (bases cs)
    have : (bases cs).length = cs.length := length_map _
    omega
  rw [(floored_bases cs).changed_eq_false_iff, NoneFalls, ← map_aboveMin_bases, length_map,
    hresting, forall_mem_map]
  rfl

theorem noneFalls_perm {cs' : List FrequencyEntry} (hperm : cs.Perm cs') :
    NoneFalls cs ↔ NoneFalls cs' := by
  rw [noneFalls_iff, noneFalls_iff, hperm.length_eq, changed_perm (bases_perm hperm)]

instance decidableNoneFalls (cs : List FrequencyEntry) : Decidable (NoneFalls cs) :=
  decidable_of_iff _ noneFalls_iff.symm

theorem frequencyOf_eq (hfalls : changed (minFrequency cs.length) (bases cs) = false)
    {c : FrequencyEntry} (hc : c ∈ cs) (hlt : minFrequency cs.length < share cs c.frequency) :
    frequencyOf cs c.frequency =
      remainder (minFrequency cs.length) (bases cs) * share cs c.frequency /
          total (aboveMin (minFrequency cs.length) (bases cs)) := by
  have hfloor := floored_bases cs
  have hmem : { c with frequency := share cs c.frequency } ∈
      aboveMin (minFrequency cs.length) (bases cs) :=
    mem_filter.mpr ⟨mem_map.mpr ⟨c, hc, congrArg (FrequencyEntry.mk _) (max_eq_right hlt.le)⟩,
      by simpa using hlt⟩
  have habove := hfloor.total_aboveMin_pos (ne_nil_of_mem hmem)
  rw [frequencyOf, max_eq_right hlt.le, maxIterations, finalFrequency, hfalls]
  simp only [Bool.false_eq_true, if_false]
  split_ifs with hsettled
  · -- the shares add up to the precision and stay as they are
    simp only [settled, Bool.or_eq_true, decide_eq_true_eq, habove.ne', or_false,
      hfloor.adjustment_eq] at hsettled
    rw [show remainder (minFrequency cs.length) (bases cs) =
      total (aboveMin (minFrequency cs.length) (bases cs)) by omega,
      mul_ediv_cancel_left _ habove.ne']
  · have hadjusted := hfloor.adjusted_eq hmem
    have hkept := any_eq_false.mp hfalls _ hmem
    rw [decide_eq_true_eq, not_lt, hadjusted] at hkept
    exact (hfloor.roundFrequency_of_lt habove hlt).trans (max_eq_right hkept)

section Raise

variable {others : List FrequencyEntry} {addr : Address} {amount amount' : ℤ}

variable (hle : amount ≤ amount') (hothers : ∀ c ∈ others, 0 ≤ c.frequency)
  (hpos : 0 < total (⟨addr, amount⟩ :: others))

include hothers in
theorem total_nonneg : 0 ≤ total others := by
  refine sum_nonneg fun x hx => ?_
  obtain ⟨c, hc, rfl⟩ := mem_map.mp hx
  exact hothers c hc

theorem total_mk_cons (addr : Address) (amount : ℤ) (others : List FrequencyEntry) :
    total (⟨addr, amount⟩ :: others) = amount + total others := rfl

include hle in
theorem share_mono_of_raise (hothers : 0 ≤ total others)
    (hpos : 0 < total (⟨addr, amount⟩ :: others)) :
    share (⟨addr, amount⟩ :: others) amount ≤ share (⟨addr, amount'⟩ :: others) amount' := by
  simp only [share, total_mk_cons] at hpos ⊢
  refine ediv_le_ediv_of_mul_le hpos (by omega) ?_
  calc amount * precision * (amount' + total others)
      = precision * (amount * amount' + amount * total others) := by ring
    _ ≤ precision * (amount * amount' + amount' * total others) := by
        have := mul_le_mul_of_nonneg_right hle hothers
        exact mul_le_mul_of_nonneg_left (by omega) (by decide)
    _ = amount' * precision * (amount + total others) := by ring

include hle hpos in
theorem share_anti_of_raise {other : ℤ} (hother : 0 ≤ other) :
    share (⟨addr, amount'⟩ :: others) other ≤ share (⟨addr, amount⟩ :: others) other := by
  simp only [share, total_mk_cons] at hpos ⊢
  refine ediv_le_ediv_of_mul_le (by omega) hpos ?_
  exact mul_le_mul_of_nonneg_left (by omega) (mul_nonneg hother (by decide))

/-- What a round starts from: `addr` with a frequency of its own, and the others. -/
def entries (addr : Address) (own : ℤ) (other : FrequencyEntry → ℤ) (others : List FrequencyEntry) :
    List FrequencyEntry :=
  ⟨addr, own⟩ :: others.map fun c => { c with frequency := other c }

section Entries

variable {own own' : ℤ} {other other' : FrequencyEntry → ℤ} (hlt : m < own)

include hlt

theorem total_aboveMin_entries : total (aboveMin m (entries addr own other others)) =
    own + ((others.filter fun c => m < other c).map other).sum := by
  rw [aboveMin, entries, filter_cons_of_pos (by simpa using hlt), total_cons, filter_map, total,
    map_map]
  rfl

theorem remainder_entries : remainder m (entries addr own other others) =
    precision - m * (others.filter fun c => !decide (m < other c)).length := by
  rw [remainder, resting, entries, filter_cons_of_neg (by simpa using hlt), filter_map, length_map]
  rfl

/-- The scale of the round grows in favour of a frequency that is raised while the others go down,
if nobody was about to fall below the minimum. -/
theorem scaled_le_of_raise (hfloor : Floored m (entries addr own other others))
    (hchanged : changed m (entries addr own other others) = false) (hle : own ≤ own')
    (hanti : ∀ c ∈ others, other' c ≤ other c) :
    remainder m (entries addr own other others) * own *
        total (aboveMin m (entries addr own' other' others)) ≤
      remainder m (entries addr own' other' others) * own' *
        total (aboveMin m (entries addr own other others)) := by
  have hmin := hfloor.nonneg
  have hleft := hfloor.remainder_pos.le
  have hkept : ∀ c ∈ others, m < other c → m * total (aboveMin m (entries addr own other others)) ≤
      remainder m (entries addr own other others) * other c := by
    intro c hc hbase
    refine hfloor.changed_eq_false_iff.mp hchanged ⟨c.address, other c⟩ ?_
    exact mem_filter.mpr ⟨mem_cons_of_mem _ (mem_map_of_mem hc), by simpa using hbase⟩
  have hmoved := floored_add_le hleft others hanti hkept
  have hnonneg : 0 ≤ ((others.filter fun c => m < other' c).map other').sum := by
    refine sum_nonneg fun x hx => ?_
    obtain ⟨c, hc, rfl⟩ := mem_map.mp hx
    exact hmin.trans (of_decide_eq_true (mem_filter.mp hc).2).le
  have htotal : total (aboveMin m (entries addr own other others)) = _ :=
    total_aboveMin_entries hlt
  have hrest : remainder m (entries addr own other others) = _ := remainder_entries hlt
  have hrest' : remainder m (entries addr own' other' others) = _ :=
    remainder_entries (hlt.trans_le hle)
  rw [htotal, total_aboveMin_entries (hlt.trans_le hle)]
  refine scaled_le (hmin.trans hlt.le) hle hleft hnonneg ?_
  rw [← htotal, hrest']
  nth_rewrite 2 [hrest]
  linarith

end Entries

theorem bases_cons_of_lt
    (hlt : minFrequency (others.length + 1) < share (⟨addr, amount⟩ :: others) amount) :
    bases (⟨addr, amount⟩ :: others) = entries addr (share (⟨addr, amount⟩ :: others) amount)
      (fun c => max (minFrequency (others.length + 1))
        (share (⟨addr, amount⟩ :: others) c.frequency)) others := by
  rw [bases, map_cons]
  exact congrArg₂ _ (congrArg (FrequencyEntry.mk addr) (max_eq_right hlt.le)) rfl

include hle hothers hpos in
theorem frequencyOf_mono_of_noneFalls (hbefore : NoneFalls (⟨addr, amount⟩ :: others))
    (hafter : NoneFalls (⟨addr, amount'⟩ :: others))
    (hlt : minFrequency (others.length + 1) < share (⟨addr, amount⟩ :: others) amount) :
    frequencyOf (⟨addr, amount⟩ :: others) amount ≤
      frequencyOf (⟨addr, amount'⟩ :: others) amount' := by
  have hgain := share_mono_of_raise hle (total_nonneg hothers) hpos
  have hpositive (x : ℤ) (hx : minFrequency (others.length + 1) < share (⟨addr, x⟩ :: others) x) :
      0 < total (aboveMin (minFrequency (others.length + 1)) (bases (⟨addr, x⟩ :: others))) := by
    refine (floored_bases (⟨addr, x⟩ :: others)).total_aboveMin_pos ?_
    rw [bases_cons_of_lt hx, aboveMin, entries, length_cons, filter_cons_of_pos (by simpa using hx)]
    exact cons_ne_nil _ _
  rw [noneFalls_iff] at hbefore hafter
  have hfloor := floored_bases (⟨addr, amount⟩ :: others)
  have hown := frequencyOf_eq hbefore (c := ⟨addr, amount⟩) mem_cons_self hlt
  have hown' := frequencyOf_eq hafter (c := ⟨addr, amount'⟩) mem_cons_self (hlt.trans_le hgain)
  rw [hown, hown']
  refine ediv_le_ediv_of_mul_le (hpositive amount hlt) (hpositive amount' (hlt.trans_le hgain)) ?_
  rw [bases_cons_of_lt hlt] at hbefore hfloor ⊢
  rw [bases_cons_of_lt (hlt.trans_le hgain)]
  exact scaled_le_of_raise hlt hfloor hbefore hgain fun c hc =>
    max_le_max le_rfl (share_anti_of_raise hle hpos (hothers c hc))

include hle hothers hpos in
/-- Raising one stake does not lower its frequency if that was the minimum, or if no candidate falls
below the minimum inside the rounds. -/
theorem frequencyOf_mono_of_raise
    (hshares : share (⟨addr, amount⟩ :: others) amount ≤ minFrequency (others.length + 1) ∨
      NoneFalls (⟨addr, amount⟩ :: others) ∧ NoneFalls (⟨addr, amount'⟩ :: others)) :
    frequencyOf (⟨addr, amount⟩ :: others) amount ≤
      frequencyOf (⟨addr, amount'⟩ :: others) amount' := by
  by_cases hlow : share (⟨addr, amount⟩ :: others) amount ≤ minFrequency (others.length + 1)
  · have hmin : frequencyOf (⟨addr, amount⟩ :: others) amount =
        minFrequency (others.length + 1) := by
      rw [frequencyOf, length_cons, max_eq_left hlow]
      exact finalFrequency_min _ _
    rw [hmin]
    exact minFrequency_le_frequencyOf (⟨addr, amount'⟩ :: others) amount'
  · obtain ⟨hbefore, hafter⟩ := hshares.resolve_left hlow
    exact frequencyOf_mono_of_noneFalls hle hothers hpos hbefore hafter (not_le.mp hlow)

end Raise

theorem mem_announced {entry : CandidateEntry} : entry ∈ announced cs ↔
    ∃ c ∈ cs, entry = ⟨c.address, (frequencyOf cs c.frequency).toNat⟩ := by
  rw [(announced_perm_map cs).mem_iff, allot_eq_map, map_map, mem_map]
  exact exists_congr fun c => and_congr_right fun _ => eq_comm

end FrequencyEntry

/-! ## Stake maps -/

namespace Snapshot

open FrequencyEntry

variable {s : Snapshot} {stakes stakes' : Address → Option ℕ} {order : List Address}

/-- The whole tokens of all candidates. -/
def wholeStake (s : Snapshot) (stakes : Address → Option ℕ) : ℕ :=
  ((s.eligibles stakes s.validatorList).map (tokens stakes)).sum

/-- The number of candidates. -/
def candidateCount (s : Snapshot) (stakes : Address → Option ℕ) : ℕ :=
  (s.eligibles stakes s.validatorList).length

/-- The part of the precision in proportion to the stake of `addr`, rounded down. -/
def stakeShare (s : Snapshot) (stakes : Address → Option ℕ) (addr : Address) : ℕ :=
  tokens stakes addr * validatorFrequencyPrecision / s.wholeStake stakes

/-- The data for the stakes hold these entries, one for each candidate. -/
structure Announces (s : Snapshot) (stakes : Address → Option ℕ) (order : List Address)
    (entries : List CandidateEntry) : Prop where
  bytes : s.calcFrequencyRLP stakes order = .ok (CandidateEntry.encodeAll entries)
  addresses : (entries.map CandidateEntry.address).Perm (s.eligibles stakes s.validatorList)

/-- `stakes'` differs from `stakes` in a higher stake of the candidate `addr` alone. -/
structure Raises (s : Snapshot) (stakes stakes' : Address → Option ℕ) (addr : Address) : Prop where
  candidate : addr ∈ s.eligibles stakes s.validatorList
  others : ∀ other, other ≠ addr → stakes' other = stakes other
  higher : ∃ stake stake', stakes addr = some stake ∧ stakes' addr = some stake' ∧ stake ≤ stake'

theorem total_collected_eq (horder : order.Perm s.validatorList) :
    total (s.collected stakes order) = s.wholeStake stakes := by
  rw [total_collected, ((eligibles_perm horder).map (tokens stakes)).sum_eq]
  rfl

theorem announces_announced (horder : order.Perm s.validatorList)
    (hstakes : ∀ addr ∈ s.validatorList, (stakes addr).isSome) (hpos : 0 < s.wholeStake stakes) :
    s.Announces stakes order (announced (s.collected stakes order)) where
  bytes := by
    refine calcFrequencyRLP_eq (fun addr haddr => hstakes addr (horder.mem_iff.mp haddr)) ?_
    rw [total_collected_eq horder]
    exact_mod_cast hpos
  addresses := by
    refine (map_address_announced _).trans ?_
    rw [map_address_collected]
    exact eligibles_perm horder

theorem collected_cons {addr : Address} {rest : List Address}
    (heligible : (stakes addr).any (s.eligible addr) = true) :
    s.collected stakes (addr :: rest) = ⟨addr, tokens stakes addr⟩ :: s.collected stakes rest := by
  rw [collected, eligibles, filter_cons, if_pos heligible]
  rfl

theorem frequency_of_mem_collected {c : FrequencyEntry} (hc : c ∈ s.collected stakes order) :
    c.frequency = tokens stakes c.address := by
  obtain ⟨addr, -, rfl⟩ := mem_map.mp hc
  rfl

theorem announced_follow_stakes (horder : order.Perm s.validatorList)
    (hpos : 0 < s.wholeStake stakes) {a b : CandidateEntry}
    (ha : a ∈ announced (s.collected stakes order)) (hb : b ∈ announced (s.collected stakes order))
    (hstake : (stakes b.address).getD 0 ≤ (stakes a.address).getD 0) :
    b.frequency ≤ a.frequency := by
  obtain ⟨c, hc, rfl⟩ := mem_announced.mp ha
  obtain ⟨d, hd, rfl⟩ := mem_announced.mp hb
  have htotal : 0 < total (s.collected stakes order) := by
    rw [total_collected_eq horder]
    exact_mod_cast hpos
  refine toNat_le_toNat (frequencyOf_mono htotal ?_)
  rw [frequency_of_mem_collected hc, frequency_of_mem_collected hd]
  exact_mod_cast Nat.div_le_div_right hstake

namespace Raises

variable {addr : Address}

section

variable (h : s.Raises stakes stakes' addr)
include h

theorem mem_validatorList : addr ∈ s.validatorList :=
  (mem_filter.mp h.candidate).1

theorem perm_cons_erase : (addr :: s.validatorList.erase addr).Perm s.validatorList :=
  (List.perm_cons_erase h.mem_validatorList).symm

theorem tokens_le : tokens stakes addr ≤ tokens stakes' addr := by
  obtain ⟨stake, stake', hstake, hstake', hle⟩ := h.higher
  rw [tokens, tokens, hstake, hstake']
  exact Nat.div_le_div_right hle

theorem eligible_after : (stakes' addr).any (s.eligible addr) = true := by
  obtain ⟨stake, stake', hstake, hstake', hle⟩ := h.higher
  have hbefore := (mem_filter.mp h.candidate).2
  rw [hstake] at hbefore
  rw [hstake']
  simp only [Option.any_some, eligible, Bool.and_eq_true, decide_eq_true_eq] at hbefore ⊢
  exact ⟨by omega, hbefore.2⟩

theorem collected_erase : s.collected stakes' (s.validatorList.erase addr) =
      s.collected stakes (s.validatorList.erase addr) := by
  have hsame : ∀ other ∈ s.validatorList.erase addr, stakes' other = stakes other := by
    intro other hother
    exact h.others other fun heq => s.nodup_validatorList.not_mem_erase (heq ▸ hother)
  rw [collected, collected, eligibles, eligibles,
    filter_congr fun other hother => by rw [hsame other hother]]
  refine map_congr_left fun other hother => ?_
  rw [tokens, tokens, hsame other (mem_filter.mp hother).1]

theorem collected_before : s.collected stakes (addr :: s.validatorList.erase addr) =
      ⟨addr, tokens stakes addr⟩ :: s.collected stakes (s.validatorList.erase addr) :=
  collected_cons (mem_filter.mp h.candidate).2

theorem collected_after : s.collected stakes' (addr :: s.validatorList.erase addr) =
      ⟨addr, tokens stakes' addr⟩ :: s.collected stakes (s.validatorList.erase addr) := by
  rw [collected_cons h.eligible_after, h.collected_erase]

theorem count_eq : s.candidateCount stakes =
    (s.collected stakes (s.validatorList.erase addr)).length + 1 := by
  rw [candidateCount, ← (eligibles_perm h.perm_cons_erase).length_eq, ← map_address_collected,
    length_map, h.collected_before, length_cons]

theorem share_before :
    share (⟨addr, tokens stakes addr⟩ :: s.collected stakes (s.validatorList.erase addr))
      (tokens stakes addr) = s.stakeShare stakes addr := by
  rw [share, ← h.collected_before, total_collected_eq h.perm_cons_erase]
  rfl

theorem isSome_after (hstakes : ∀ other ∈ s.validatorList, (stakes other).isSome) :
    ∀ other ∈ s.validatorList, (stakes' other).isSome := by
  intro other hother
  by_cases heq : other = addr
  · obtain ⟨stake, stake', -, hstake', -⟩ := h.higher
    rw [heq, hstake']
    rfl
  · rw [h.others other heq]
    exact hstakes other hother

theorem wholeStake_le : s.wholeStake stakes ≤ s.wholeStake stakes' := by
  have hbefore : total (s.collected stakes (addr :: s.validatorList.erase addr)) =
      s.wholeStake stakes := total_collected_eq h.perm_cons_erase
  have hafter : total (s.collected stakes' (addr :: s.validatorList.erase addr)) =
      s.wholeStake stakes' := total_collected_eq h.perm_cons_erase
  rw [h.collected_before, total_mk_cons] at hbefore
  rw [h.collected_after, total_mk_cons] at hafter
  have htokens := h.tokens_le
  omega

end

/-- Raising the stake of `addr` does not lower its frequency, if its share was at most the minimum,
or if nobody falls below the minimum inside the rounds of either allocation. -/
theorem frequency_le (h : s.Raises stakes stakes' addr) (hpos : 0 < s.wholeStake stakes)
    (hshares : s.stakeShare stakes addr ≤
        validatorFrequencyPrecision / (2 * s.candidateCount stakes) ∨
      NoneFalls (s.collected stakes s.validatorList) ∧
        NoneFalls (s.collected stakes' s.validatorList)) :
    frequencyOf (s.collected stakes (addr :: s.validatorList.erase addr)) (tokens stakes addr) ≤
      frequencyOf (s.collected stakes' (addr :: s.validatorList.erase addr))
        (tokens stakes' addr) := by
  have htotal : total (s.collected stakes (addr :: s.validatorList.erase addr)) =
      s.wholeStake stakes := total_collected_eq h.perm_cons_erase
  rw [noneFalls_perm (collected_perm h.perm_cons_erase).symm,
    noneFalls_perm (collected_perm h.perm_cons_erase).symm] at hshares
  rw [h.collected_before] at htotal hshares
  rw [h.collected_after] at hshares
  rw [h.collected_before, h.collected_after]
  refine frequencyOf_mono_of_raise (by exact_mod_cast h.tokens_le) collected_nonneg ?_ ?_
  · rw [htotal]
    exact_mod_cast hpos
  · rw [← h.count_eq, ← natCast_minFrequency, h.share_before]
    exact hshares.imp_left fun hlow => by exact_mod_cast hlow

end Raises

theorem frequency_of_mem_announced {order' : List Address} (horder : order.Perm s.validatorList)
    (horder' : order'.Perm s.validatorList) {entry : CandidateEntry}
    (hentry : entry ∈ announced (s.collected stakes order)) :
    entry.frequency = (frequencyOf (s.collected stakes order')
      (tokens stakes entry.address)).toNat := by
  rw [announced_perm (collected_perm (horder.trans horder'.symm)) (nodup_collected horder)]
    at hentry
  obtain ⟨c, hc, rfl⟩ := mem_announced.mp hentry
  rw [frequency_of_mem_collected hc]

/-- **Frequencies follow stakes.** Within one allocation a higher stake never has a lower
frequency. Raising the stake of one candidate does not lower its frequency, if its share was at
most the minimum before, or if neither before nor after a candidate whose share lies above the
minimum falls below it inside the rounds. -/
theorem frequencies_follow_stakes (s : Snapshot) :
    (∀ (stakes : Address → Option ℕ) (order : List Address), order.Perm s.validatorList →
      (∀ addr ∈ s.validatorList, (stakes addr).isSome) → 0 < s.wholeStake stakes →
      ∃ entries, s.Announces stakes order entries ∧ ∀ a ∈ entries, ∀ b ∈ entries,
        (stakes b.address).getD 0 ≤ (stakes a.address).getD 0 → b.frequency ≤ a.frequency) ∧
    ∀ (stakes stakes' : Address → Option ℕ) (order order' : List Address) (addr : Address),
      order.Perm s.validatorList → order'.Perm s.validatorList →
      (∀ addr ∈ s.validatorList, (stakes addr).isSome) → 0 < s.wholeStake stakes →
      s.Raises stakes stakes' addr →
      (s.stakeShare stakes addr ≤ validatorFrequencyPrecision / (2 * s.candidateCount stakes) ∨
        NoneFalls (s.collected stakes s.validatorList) ∧
          NoneFalls (s.collected stakes' s.validatorList)) →
      ∃ entries entries', s.Announces stakes order entries ∧ s.Announces stakes' order' entries' ∧
        ∀ a ∈ entries, ∀ a' ∈ entries', a.address = addr → a'.address = addr →
          a.frequency ≤ a'.frequency := by
  constructor
  · intro stakes order horder hstakes hpos
    exact ⟨_, announces_announced horder hstakes hpos, fun a ha b hb hstake =>
      announced_follow_stakes horder hpos ha hb hstake⟩
  · intro stakes stakes' order order' addr horder horder' hstakes hpos hraise hshares
    have hle := hraise.frequency_le hpos hshares
    refine ⟨_, _, announces_announced horder hstakes hpos, announces_announced horder'
      (hraise.isSome_after hstakes) (hpos.trans_le hraise.wholeStake_le), ?_⟩
    intro a ha a' ha' haddr haddr'
    rw [frequency_of_mem_announced horder hraise.perm_cons_erase ha,
      frequency_of_mem_announced horder' hraise.perm_cons_erase ha', haddr, haddr']
    exact Int.toNat_le_toNat hle

theorem raises_update {addr : Address} {stake stake' : ℕ}
    (hcandidate : addr ∈ s.eligibles stakes s.validatorList) (hstake : stakes addr = some stake)
    (hle : stake ≤ stake') : s.Raises stakes (update stakes addr (some stake')) addr where
  candidate := hcandidate
  others _ hne := update_of_ne hne _ _
  higher := ⟨stake, stake', hstake, update_self _ _ _, hle⟩

/-- Two of three candidates are lifted to the minimum and the rounds bring the richest down to the
rest, before and after one token more. -/
theorem frequencies_follow_stakes_three : ∃ entries entries',
      (ofValidators 3).Announces (stakesOf [900, 2, 1]) (ofValidators 3).validatorList entries ∧
      (ofValidators 3).Announces
        (Function.update (stakesOf [900, 2, 1]) (.ofBytes 20 [1]) (some (901 * decimals)))
        (ofValidators 3).validatorList entries' ∧
      ∀ a ∈ entries, ∀ a' ∈ entries', a.address = .ofBytes 20 [1] → a'.address = .ofBytes 20 [1] →
        a.frequency ≤ a'.frequency :=
  (frequencies_follow_stakes (ofValidators 3)).2 _ _ _ _ _ (List.Perm.refl _)
    (List.Perm.refl _) (fun _ _ => rfl) (by decide)
    (raises_update (by decide) rfl (by decide))
    (.inr ⟨by decide, by decide⟩)

/-- One token more costs the richest of four candidates a unit. Before, the third candidate starts
one above the minimum, is clamped in the first round, and a second round brings the richest from
600 down to 589. After, the third candidate starts at the minimum, and the only round brings the
richest from 684 down to 588. -/
theorem raised_stake_lowers_frequency : (ofValidators 4).Raises (stakesOf [977, 268, 180, 3])
      (Function.update (stakesOf [977, 268, 180, 3]) (.ofBytes 20 [1]) (some (978 * decimals)))
      (.ofBytes 20 [1]) ∧ (ofValidators 4).calcFrequencyRLP (stakesOf [977, 268, 180, 3])
        (ofValidators 4).validatorList = .ok (CandidateEntry.encodeAll
      [⟨.ofBytes 20 [1], 589⟩, ⟨.ofBytes 20 [2], 160⟩, ⟨.ofBytes 20 [3], 125⟩,
        ⟨.ofBytes 20 [4], 125⟩]) ∧ (ofValidators 4).calcFrequencyRLP
        (Function.update (stakesOf [977, 268, 180, 3]) (.ofBytes 20 [1]) (some (978 * decimals)))
        (ofValidators 4).validatorList = .ok (CandidateEntry.encodeAll
      [⟨.ofBytes 20 [1], 588⟩, ⟨.ofBytes 20 [2], 161⟩, ⟨.ofBytes 20 [3], 125⟩,
        ⟨.ofBytes 20 [4], 125⟩]) :=
  ⟨raises_update (by decide) rfl (by decide), by decide, by decide⟩

/-- That nobody falls before the raise is not enough. With one token more for the first of five, the
shares of the third and the fourth come down to 110, and both now fall in the first round. -/
theorem raised_stake_lets_others_fall :
    NoneFalls ((ofValidators 5).collected (stakesOf [2220, 5551, 1110, 1110, 9])
      (ofValidators 5).validatorList) ∧
    frequencyOf ((ofValidators 5).collected (stakesOf [2220, 5551, 1110, 1110, 9])
      (ofValidators 5).validatorList) 2220 = 200 ∧
    frequencyOf ((ofValidators 5).collected (stakesOf [2221, 5551, 1110, 1110, 9])
      (ofValidators 5).validatorList) 2221 = 199 := by
  decide

end Snapshot

end ChilizChain
