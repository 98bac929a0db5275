import ChilizChain.Parlia.Header

/-! The base fee along a chain of a Parlia network. `calcBaseFee` writes the divisions of the code
as divisions of naturals; here they are also made with the panic of a zero divisor, and along a
chain there is none. From London on the fee never leaves the floor, it grows with the gas that the
parent used, and it moves by about an eighth in a block. -/

namespace ChilizChain

open Relation Nat Option

variable {c : ChainConfig} {parent header start : Header} {fee : ℕ}

def minGasLimit : ℕ := 5000

/-- A division of big integers; `none` is the panic of a zero divisor. -/
def checkedDiv (a b : ℕ) : Option ℕ := if b = 0 then none else some (a / b)

theorem checkedDiv_pos {a b : ℕ} (hb : 0 < b) : checkedDiv a b = some (a / b) :=
  if_neg hb.ne'

/-- `CalcBaseFee` with its panics: a missing base fee of the parent, and a division by zero. -/
def calcBaseFeeChecked (c : ChainConfig) (parent : Header) : Option ℕ :=
  if !c.isLondon parent.number then some initialBaseFeeForBSC
  else do
    let parentBaseFee ← parent.baseFee
    let parentGasTarget ← checkedDiv parent.gasLimit elasticityMultiplier
    if parent.gasUsed = parentGasTarget then some parentBaseFee
    else if parentGasTarget < parent.gasUsed then
      let num ← checkedDiv ((parent.gasUsed - parentGasTarget) * parentBaseFee) parentGasTarget
      let delta ← checkedDiv num baseFeeChangeDenominator
      some (parentBaseFee + max delta 1)
    else
      let num ← checkedDiv ((parentGasTarget - parent.gasUsed) * parentBaseFee) parentGasTarget
      let delta ← checkedDiv num baseFeeChangeDenominator
      some (max (parentBaseFee - delta) initialBaseFeeForBSC)

def Header.gasTarget (header : Header) : ℕ := header.gasLimit / elasticityMultiplier

/-- The part of the base fee that `gas` more or less than the target moves it by. -/
def feeDelta (target fee gas : ℕ) : ℕ := gas * fee / target / baseFeeChangeDenominator

theorem feeDelta_mono (target fee : ℕ) : Monotone (feeDelta target fee) := by
  intro gas gas' hle
  exact Nat.div_le_div_right (Nat.div_le_div_right (Nat.mul_le_mul_right fee hle))

theorem feeDelta_target {target : ℕ} (htarget : 0 < target) (fee : ℕ) :
    feeDelta target fee target = fee / 8 := by
  rw [feeDelta, Nat.mul_div_cancel_left fee htarget]
  rfl

theorem feeDelta_target_succ {target : ℕ} (htarget : 0 < target) (fee : ℕ) :
    feeDelta target fee (target + 1) = (fee + fee / target) / 8 := by
  rw [feeDelta, add_mul, one_mul, mul_add_div htarget]
  rfl

theorem calcBaseFee_before_london (hlondon : ¬ c.isLondon parent.number) :
    calcBaseFee c parent = initialBaseFeeForBSC := by
  simp [calcBaseFee, hlondon]

section

variable (hlondon : c.isLondon parent.number)
include hlondon

theorem calcBaseFee_london (hfee : parent.baseFee = some fee) : calcBaseFee c parent =
      if parent.gasUsed = parent.gasTarget then fee
      else if parent.gasTarget < parent.gasUsed then
        fee + max (feeDelta parent.gasTarget fee (parent.gasUsed - parent.gasTarget)) 1
      else max (fee - feeDelta parent.gasTarget fee (parent.gasTarget - parent.gasUsed))
        initialBaseFeeForBSC := by
  simp only [calcBaseFee, hlondon, hfee, Bool.not_true, Bool.false_eq_true, if_false, getD_some]
  rfl

theorem calcBaseFee_of_le (hfee : parent.baseFee = some fee)
    (hfloor : initialBaseFeeForBSC ≤ fee) (hused : parent.gasUsed ≤ parent.gasTarget) :
    calcBaseFee c parent = max
      (fee - feeDelta parent.gasTarget fee (parent.gasTarget - parent.gasUsed))
      initialBaseFeeForBSC := by
  rw [calcBaseFee_london hlondon hfee]
  rcases hused.lt_or_eq with hlt | heq
  · rw [if_neg (Nat.ne_of_lt hlt), if_neg (Nat.not_lt.mpr hused)]
  · rw [if_pos heq, heq, Nat.sub_self, feeDelta, Nat.zero_mul, Nat.zero_div, Nat.zero_div,
      Nat.sub_zero, Nat.max_eq_left hfloor]

theorem calcBaseFee_of_gt (hfee : parent.baseFee = some fee)
    (hused : parent.gasTarget < parent.gasUsed) : calcBaseFee c parent =
      fee + max (feeDelta parent.gasTarget fee (parent.gasUsed - parent.gasTarget)) 1 := by
  rw [calcBaseFee_london hlondon hfee, if_neg (ne_of_gt hused), if_pos hused]

end

/-! ## No panic -/

theorem calcBaseFeeChecked_eq (hfee : c.isLondon header.number → header.baseFee.isSome)
    (htarget : 0 < header.gasTarget) :
    calcBaseFeeChecked c header = some (calcBaseFee c header) := by
  have hdenominator : 0 < baseFeeChangeDenominator := succ_pos _
  by_cases hlondon : c.isLondon header.number
  · obtain ⟨fee, hsome⟩ := isSome_iff_exists.mp (hfee hlondon)
    rw [Header.gasTarget] at htarget
    have helasticity : 0 < elasticityMultiplier := succ_pos _
    simp only [calcBaseFeeChecked, calcBaseFee, hlondon, hsome, Bool.not_true, Bool.false_eq_true,
      if_false, bind_eq_bind, bind_some, getD_some,
      checkedDiv_pos helasticity, checkedDiv_pos htarget, checkedDiv_pos hdenominator]
    split
    · rfl
    · split
      · rfl
      · rfl
  · simp [calcBaseFeeChecked, calcBaseFee, hlondon]

theorem gasTarget_pos (hlimit : minGasLimit ≤ header.gasLimit) : 0 < header.gasTarget := by
  have hpos : 2 ≤ header.gasLimit := le_trans (by decide) hlimit
  exact div_pos hpos (succ_pos _)

/-! ## One block -/

/-- From London on the header carries a base fee that is not below the floor. -/
def Floored (c : ChainConfig) (header : Header) : Prop :=
  c.isLondon header.number → ∃ fee, header.baseFee = some fee ∧ initialBaseFeeForBSC ≤ fee

variable (hfloored : Floored c parent)

include hfloored in
theorem calcBaseFee_floor : initialBaseFeeForBSC ≤ calcBaseFee c parent := by
  by_cases hlondon : c.isLondon parent.number
  · obtain ⟨fee, hfee, hfloor⟩ := hfloored hlondon
    rcases lt_or_ge parent.gasTarget parent.gasUsed with hgt | hle
    · rw [calcBaseFee_of_gt hlondon hfee hgt]
      exact hfloor.trans (Nat.le_add_right _ _)
    · rw [calcBaseFee_of_le hlondon hfee hfloor hle]
      exact le_max_right _ _
  · exact (calcBaseFee_before_london hlondon).ge

variable (hlondon : c.isLondon parent.number) (hfee : parent.baseFee = some fee)
  (hfloor : initialBaseFeeForBSC ≤ fee)

include hlondon hfee hfloor in
theorem calcBaseFee_le_fee (hused : parent.gasUsed ≤ parent.gasTarget) :
    calcBaseFee c parent ≤ fee := by
  rw [calcBaseFee_of_le hlondon hfee hfloor hused]
  exact Nat.max_le.mpr ⟨Nat.sub_le _ _, hfloor⟩

include hfloored in
/-- The fee grows with the gas that the parent used: on either side of the target by the rounded
product, and across it because the fee of the parent lies between. -/
theorem calcBaseFee_mono_gasUsed {gasUsed : ℕ}
    (hle : parent.gasUsed ≤ gasUsed) :
    calcBaseFee c parent ≤ calcBaseFee c { parent with gasUsed := gasUsed } := by
  by_cases hlondon : c.isLondon parent.number
  · obtain ⟨fee, hfee, hfloor⟩ := hfloored hlondon
    rcases lt_or_ge parent.gasTarget gasUsed with hgt | hbelow
    · have hmore : calcBaseFee c { parent with gasUsed := gasUsed } = _ :=
        calcBaseFee_of_gt hlondon hfee hgt
      rw [hmore]
      rcases lt_or_ge parent.gasTarget parent.gasUsed with hgt' | hbelow'
      · rw [calcBaseFee_of_gt hlondon hfee hgt']
        exact Nat.add_le_add_left (max_le_max_right 1
          (feeDelta_mono _ _ (Nat.sub_le_sub_right hle _))) fee
      · exact (calcBaseFee_le_fee hlondon hfee hfloor hbelow').trans (Nat.le_add_right _ _)
    · have hmore : calcBaseFee c { parent with gasUsed := gasUsed } = _ :=
        calcBaseFee_of_le hlondon hfee hfloor hbelow
      rw [calcBaseFee_of_le hlondon hfee hfloor (hle.trans hbelow), hmore]
      exact max_le_max_right _ (Nat.sub_le_sub_left
        (feeDelta_mono _ _ (Nat.sub_le_sub_left hle _)) fee)
  · have hmore : calcBaseFee c { parent with gasUsed := gasUsed } = _ :=
      calcBaseFee_before_london hlondon
    rw [calcBaseFee_before_london hlondon, hmore]

include hlondon hfee hfloor in
theorem fee_le_calcBaseFee_add (htarget : 0 < parent.gasTarget) :
    fee ≤ calcBaseFee c parent + fee / 8 := by
  rcases lt_or_ge parent.gasTarget parent.gasUsed with hgt | hle
  · rw [calcBaseFee_of_gt hlondon hfee hgt, add_assoc]
    exact Nat.le_add_right _ _
  · rw [calcBaseFee_of_le hlondon hfee hfloor hle]
    have hdelta : feeDelta parent.gasTarget fee (parent.gasTarget - parent.gasUsed) ≤ fee / 8 :=
      (feeDelta_mono _ _ (Nat.sub_le _ _)).trans_eq (feeDelta_target htarget fee)
    omega

include hlondon hfee hfloor in
theorem calcBaseFee_le_add {gas : ℕ} (hused : parent.gasUsed ≤ parent.gasTarget + gas) :
    calcBaseFee c parent ≤ fee + max (feeDelta parent.gasTarget fee gas) 1 := by
  rcases lt_or_ge parent.gasTarget parent.gasUsed with hgt | hle
  · rw [calcBaseFee_of_gt hlondon hfee hgt]
    exact Nat.add_le_add_left (max_le_max_right 1
      (feeDelta_mono _ _ (Nat.sub_le_iff_le_add'.mpr hused))) fee
  · exact (calcBaseFee_le_fee hlondon hfee hfloor hle).trans (Nat.le_add_right _ _)

/-! ## Along a chain -/

/-- From London on the child carries the base fee computed from the parent. -/
def FeeStep (c : ChainConfig) (parent child : Header) : Prop :=
  c.isLondon child.number → child.baseFee = some (calcBaseFee c parent)

include hfloored in
theorem Floored.step (hstep : FeeStep c parent header) : Floored c header :=
  fun hlondon => ⟨_, hstep hlondon, calcBaseFee_floor hfloored⟩

variable (hstart : Floored c start) (hchain : ReflTransGen (FeeStep c) start header)

include hstart hchain in
theorem Floored.chain : Floored c header := by
  induction hchain with
  | refl => exact hstart
  | tail _ hstep ih => exact ih.step hstep

/-- How far the base fee moves in one block: down by an eighth; up by an eighth and one if the
parent used at most twice its target, and by an eighth of `fee + fee / target` if it used the odd
unit of its gas limit as well. -/
structure Moves (c : ChainConfig) (header : Header) (fee : ℕ) : Prop where
  down : fee ≤ calcBaseFee c header + fee / 8
  up : calcBaseFee c header ≤ fee + max ((fee + fee / header.gasTarget) / 8) 1
  up_even : header.gasUsed ≤ 2 * header.gasTarget → calcBaseFee c header ≤ fee + fee / 8 + 1

theorem moves_of_floor (hlondon : c.isLondon header.number) (hfee : header.baseFee = some fee)
    (hfloor : initialBaseFeeForBSC ≤ fee) (htarget : 0 < header.gasTarget)
    (hused : header.gasUsed ≤ header.gasLimit) : Moves c header fee where
  down := fee_le_calcBaseFee_add hlondon hfee hfloor htarget
  up := by
    have hodd : header.gasLimit ≤ header.gasTarget + (header.gasTarget + 1) := by
      rw [Header.gasTarget, elasticityMultiplier]
      omega
    rw [← feeDelta_target_succ htarget]
    exact calcBaseFee_le_add hlondon hfee hfloor (hused.trans hodd)
  up_even := by
    intro heven
    have hle := calcBaseFee_le_add hlondon hfee hfloor (heven.trans_eq (two_mul _))
    rw [feeDelta_target htarget] at hle
    omega

include hstart hchain in
/-- Along a chain that starts before London, or with a base fee that is not below the floor: no
base fee from London on is below the floor, and from a header with at least the minimal gas limit
that used no more than its limit the next fee is computed without a panic, grows with the gas used
and moves by the bounds of `Moves`. -/
theorem calcBaseFee_along_chain (hlimit : minGasLimit ≤ header.gasLimit)
    (hused : header.gasUsed ≤ header.gasLimit) :
    Floored c header ∧ calcBaseFeeChecked c header = some (calcBaseFee c header) ∧
      initialBaseFeeForBSC ≤ calcBaseFee c header ∧
      (∀ gasUsed, header.gasUsed ≤ gasUsed →
        calcBaseFee c header ≤ calcBaseFee c { header with gasUsed := gasUsed }) ∧
      (c.isLondon header.number → ∀ fee, header.baseFee = some fee → Moves c header fee) := by
  have hfloored := hstart.chain hchain
  have htarget := gasTarget_pos hlimit
  refine ⟨hfloored, ?_, calcBaseFee_floor hfloored,
    fun gasUsed hle => calcBaseFee_mono_gasUsed hfloored hle, ?_⟩
  · refine calcBaseFeeChecked_eq (fun hlondon => ?_) htarget
    obtain ⟨fee, hfee, _⟩ := hfloored hlondon
    exact Option.isSome_iff_exists.mpr ⟨fee, hfee⟩
  · intro hlondon fee hfee
    obtain ⟨fee', hfee', hfloor⟩ := hfloored hlondon
    obtain rfl : fee = fee' := Option.some.inj (hfee.symm.trans hfee')
    exact moves_of_floor hlondon hfee hfloor htarget hused

/-- A network with London from the first block on. -/
def londonConfig : ChainConfig :=
  { (default : ChainConfig) with londonBlock := some 1 }

/-- The first London block, with an odd gas limit that it uses up. -/
def fullHeader : Header :=
  { (default : Header) with
    number := 1, gasLimit := 5001, gasUsed := 5001, baseFee := some initialBaseFeeForBSC }

theorem fullHeader_chain : ReflTransGen (FeeStep londonConfig) default fullHeader := by
  refine .single (fun _ => ?_)
  rw [calcBaseFee_before_london (by decide)]
  rfl

theorem calcBaseFee_along_chain_full : Floored londonConfig fullHeader ∧
    calcBaseFeeChecked londonConfig fullHeader = some (calcBaseFee londonConfig fullHeader) :=
  have hstart : Floored londonConfig default := fun hlondon => absurd hlondon (by decide)
  let ⟨hfloored, hchecked, _⟩ :=
    calcBaseFee_along_chain hstart fullHeader_chain (by decide) (by decide)
  ⟨hfloored, hchecked⟩

/-- The full block of odd gas limit is one unit of gas above twice its target, and the fee rises
by more than an eighth and one. -/
theorem calcBaseFee_rises_more : ReflTransGen (FeeStep londonConfig) default fullHeader ∧
    minGasLimit ≤ fullHeader.gasLimit ∧ fullHeader.gasUsed ≤ fullHeader.gasLimit ∧
    fullHeader.baseFee = some initialBaseFeeForBSC ∧
    initialBaseFeeForBSC + initialBaseFeeForBSC / 8 + 1 < calcBaseFee londonConfig fullHeader :=
  ⟨fullHeader_chain, by decide, by decide, rfl, by decide⟩

end ChilizChain
