import ChilizChain.Parlia.Applied
import ChilizChain.Parlia.Rotation
import ChilizChain.Parlia.Selection

/-! The next blocks of a validator: `nextProposalBlock`, which a stopping miner asks for. It counts
turns from the block of the snapshot, where the selection of a block counts them from the block
itself, takes the position of the validator from the stored index, and cuts the range at the next
validator-set switch. -/

namespace ChilizChain

open List Nat Snapshot

open Std (ExtTreeMap)

/-- The errors of `nextProposalBlock`; a division by zero panics. -/
inductive ProposalErr
  | notInValidatorSet
  | outOfCurrentEpoch
  | panicked
deriving DecidableEq

namespace Snapshot

variable {s : Snapshot} {k : Crypto} {proposer : Address} {start stop : ℕ}

/-- The stored index if there is one, else the position in the sorted list; `none` for -1. -/
def indexOfVal (s : Snapshot) (validator : Address) : Option ℕ :=
  match s.validators[validator]? with
  | some info =>
    if 0 < info.index then some (info.index - 1) else s.validatorList.idxOf? validator
  | none => s.validatorList.idxOf? validator

def nexValidatorsChangeBlock (s : Snapshot) : ℕ :=
  let currentEpoch := s.number - s.number % s.epochLength
  let checkLen := s.minerHistoryCheckLen
  if s.number % s.epochLength < checkLen then add64 currentEpoch checkLen
  else add64 (add64 currentEpoch s.epochLength) checkLen

def nextProposalBlock (s : Snapshot) (proposer : Address) : Except ProposalErr (ℕ × ℕ) :=
  let validators := s.validatorList
  if s.turnLength = 0 ∨ validators.length = 0 then throw .panicked
  else
    let currentIndex := s.number / s.turnLength % validators.length
    match s.indexOfVal proposer with
    | none => throw .notInValidatorSet
    | some expectIndex =>
      let startBlock := add64 s.number
        ((expectIndex + validators.length - currentIndex) % validators.length * s.turnLength)
      let startBlock := startBlock - startBlock % s.turnLength
      let endBlock := sub64 (add64 startBlock s.turnLength) 1
      if s.epochLength = 0 then throw .panicked
      else if s.nexValidatorsChangeBlock ≤ startBlock then throw .outOfCurrentEpoch
      else if s.nexValidatorsChangeBlock ≤ endBlock then
        pure (startBlock, s.nexValidatorsChangeBlock)
      else pure (startBlock, endBlock)

/-! ## Indices of validators -/

/-- An assigned index is the position among the sorted validators, offset by one. -/
def Indexed (validators : ExtTreeMap Address ValidatorInfo) : Prop :=
  ∀ v info, validators[v]? = some info → 0 < info.index →
    validators.keys[info.index - 1]? = some v

variable {vals : ExtTreeMap Address ValidatorInfo}

theorem keys_congr {vals' : ExtTreeMap Address ValidatorInfo} (hmem : ∀ v, v ∈ vals ↔ v ∈ vals') :
    vals.keys = vals'.keys := by
  refine List.Perm.eq_of_pairwise ?_ ExtTreeMap.ordered_keys ExtTreeMap.ordered_keys
    ((perm_ext_iff_of_nodup ExtTreeMap.nodup_keys ExtTreeMap.nodup_keys).mpr (fun v => ?_))
  · intro a b _ _ hab hba
    exact absurd hba (Std.OrientedCmp.not_lt_of_lt hab)
  · rw [ExtTreeMap.mem_keys, ExtTreeMap.mem_keys, hmem]

theorem getElem?_foldl_modify_of_notMem {f : Address × ℕ → ValidatorInfo → ValidatorInfo}
    {v : Address} {l : List (Address × ℕ)} (hv : v ∉ l.map Prod.fst) :
    (l.foldl (fun vals entry => vals.modify entry.1 (f entry)) vals)[v]? = vals[v]? := by
  induction l generalizing vals with
  | nil => rfl
  | cons entry l ih =>
    have hne : entry.1 ≠ v := fun heq => hv (heq ▸ mem_cons_self)
    have hl : v ∉ l.map Prod.fst := fun hmem => hv (mem_cons_of_mem _ hmem)
    rw [foldl_cons, ih hl, ExtTreeMap.getElem?_modify,
      if_neg (fun heq => hne (Std.LawfulEqCmp.compare_eq_iff_eq.mp heq))]

theorem getElem?_foldl_modify {f : Address × ℕ → ValidatorInfo → ValidatorInfo}
    {entry : Address × ℕ} {l : List (Address × ℕ)} (hnodup : (l.map Prod.fst).Nodup)
    (hmem : entry ∈ l) :
    (l.foldl (fun vals entry => vals.modify entry.1 (f entry)) vals)[entry.1]? =
      vals[entry.1]?.map (f entry) := by
  induction l generalizing vals with
  | nil => cases hmem
  | cons first l ih =>
    obtain ⟨hfirst, hnodup⟩ := nodup_cons.mp hnodup
    rw [foldl_cons]
    rcases mem_cons.mp hmem with rfl | hrest
    · rw [getElem?_foldl_modify_of_notMem hfirst, ExtTreeMap.getElem?_modify,
        if_pos (Std.LawfulEqCmp.compare_eq_iff_eq.mpr rfl)]
    · have hne : first.1 ≠ entry.1 := fun heq => hfirst (heq ▸ mem_map_of_mem hrest)
      rw [ih hnodup hrest, ExtTreeMap.getElem?_modify,
        if_neg (fun heq => hne (Std.LawfulEqCmp.compare_eq_iff_eq.mp heq))]

theorem assignIndices_indexed (vals : ExtTreeMap Address ValidatorInfo) :
    Indexed (assignIndices vals) := by
  intro v info hinfo _
  have hkeys : (assignIndices vals).keys = vals.keys := keys_congr (fun v => mem_foldl_modify)
  have hv : v ∈ vals.keys := by
    rw [← hkeys, ExtTreeMap.mem_keys]
    exact ExtTreeMap.mem_iff_isSome_getElem?.mpr (by rw [hinfo]; rfl)
  obtain ⟨i, hi⟩ := mem_iff_getElem?.mp hv
  have hentry : (v, i) ∈ vals.keys.zipIdx := mk_mem_zipIdx_iff_getElem?.mpr hi
  have hget : (assignIndices vals)[v]? = vals[v]?.map (fun info => { info with index := i + 1 }) :=
    getElem?_foldl_modify (by rw [zipIdx_map_fst]; exact ExtTreeMap.nodup_keys) hentry
  rw [hinfo] at hget
  obtain ⟨old, -, rfl⟩ := Option.map_eq_some_iff.mp hget.symm
  rw [hkeys]
  exact hi

theorem validatorMap_indexed (validators : List Address) (voteAddrs : List BLSPublicKey) :
    Indexed (validatorMap validators voteAddrs) := by
  -- no index is assigned at all
  suffices hzero : ∀ (l : List (Address × ℕ)) (vals : ExtTreeMap Address ValidatorInfo),
      (∀ v (info : ValidatorInfo), vals[v]? = some info → info.index = 0) →
        ∀ v (info : ValidatorInfo),
        (l.foldl (fun vals entry => vals.insert entry.1
          ⟨0, voteAddrs.getD entry.2 (FixedBytes.zero 48)⟩) vals)[v]? = some info →
        info.index = 0 by
    intro v info hinfo hpos
    have hempty : ∀ (v : Address) (info : ValidatorInfo),
        (∅ : ExtTreeMap Address ValidatorInfo)[v]? = some info → info.index = 0 := by
      intro v info h
      simp at h
    exact absurd (hzero _ ∅ hempty v info hinfo) hpos.ne'
  intro l
  induction l with
  | nil => exact fun vals hvals => hvals
  | cons entry l ih =>
    intro vals hvals
    refine ih _ (fun v info hinfo => ?_)
    rw [ExtTreeMap.getElem?_insert] at hinfo
    split at hinfo
    · rw [← Option.some.inj hinfo]
    · exact hvals v info hinfo

theorem announcedValidators_indexed {c : ChainConfig} {hd : Header} {vals : List Address}
    {keys : List BLSPublicKey} {newVals : ExtTreeMap Address ValidatorInfo}
    (h : announcedValidators c hd vals keys = .ok newVals) : Indexed newVals := by
  unfold announcedValidators at h
  split_ifs at h
  · rw [← Except.ok.inj h]
    exact validatorMap_indexed vals []
  · rw [← Except.ok.inj h]
    exact assignIndices_indexed _

theorem newSnapshot_indexed (c : ChainConfig) (number : ℕ) (hash : Hash)
    (validators : List Address) (voteAddrs : List BLSPublicKey) (isSnake8Fork : Bool) :
    Indexed (newSnapshot c number hash validators voteAddrs isSnake8Fork).validators := by
  rw [newSnapshot]
  split
  · exact assignIndices_indexed _
  · exact validatorMap_indexed validators []

theorem applyHeader_indexed {c : ChainConfig} {chain : ChainStore} {ps : List Header}
    {s' : Snapshot} {hd : Header} (hindexed : Indexed s.validators)
    (h : applyHeader k c chain ps s hd = .ok s') : Indexed s'.validators := by
  obtain ⟨validator, -, -, -, h⟩ := applyHeader_eq_ok h
  have hrecorded := recorded c s hd validator
  rcases changeValidators_ok h with ⟨rfl, -⟩ | ⟨-, checkpoint, -, ⟨hswitch⟩⟩
  · rw [hrecorded.validators]
    exact hindexed
  · rw [hswitch.eq]
    exact announcedValidators_indexed hswitch.announced

variable {index : ℕ}

theorem indexOfVal_eq_some (hindexed : Indexed s.validators)
    (h : s.indexOfVal proposer = some index) : s.validatorList[index]? = some proposer := by
  have hsearch : s.validatorList.idxOf? proposer = some index →
      s.validatorList[index]? = some proposer := by
    intro hidx
    obtain ⟨hlt, heq, -⟩ := idxOf?_eq_some_iff.mp hidx
    rw [getElem?_eq_getElem hlt, heq]
  unfold indexOfVal at h
  split at h
  · rename_i info hinfo
    split at h
    · rename_i hpos
      rw [← Option.some.inj h]
      exact hindexed proposer info hinfo hpos
    · exact hsearch h
  · exact hsearch h

/-! ## Turns -/

theorem turn_mod_eq {turn length : ℕ} (hindex : index < length) :
    (turn + (index + length - turn % length) % length) % length = index := by
  have hcurrent := mod_lt turn (zero_lt_of_lt hindex)
  rw [add_mod_mod, ← mod_add_mod, show turn % length + (index + length - turn % length) =
    index + length by omega, add_mod_right, mod_eq_of_lt hindex]

theorem turn_mod_ne {turn next length : ℕ} (hindex : index < length) (hle : turn ≤ next)
    (hlt : next < turn + (index + length - turn % length) % length) : next % length ≠ index := by
  intro heq
  have hmod : (turn + (index + length - turn % length) % length) % length = index :=
    turn_mod_eq hindex
  have hsmall := mod_lt (index + length - turn % length) (zero_lt_of_lt hindex)
  generalize (index + length - turn % length) % length = ahead at hlt hmod hsmall
  have hdvd : length ∣ turn + ahead - next :=
    (modEq_iff_dvd' hlt.le).mp (heq.trans hmod.symm)
  exact absurd (le_of_dvd (by omega) hdvd) (by omega)

/-! ## The next validator-set switch -/

/-- The sums of `nextProposalBlock` stay below `2 ^ 64`. -/
structure Fits (s : Snapshot) : Prop where
  turns : s.number + s.validatorList.length * s.turnLength < 2 ^ 64
  switch : s.number + s.epochLength + s.minerHistoryCheckLen < 2 ^ 64

theorem Fits.nexValidatorsChangeBlock (h : s.Fits) : s.nexValidatorsChangeBlock =
    s.number - s.number % s.epochLength + s.minerHistoryCheckLen +
      if s.number % s.epochLength < s.minerHistoryCheckLen then 0 else s.epochLength := by
  have hlt := h.switch
  have hepoch : s.number - s.number % s.epochLength ≤ s.number := Nat.sub_le _ _
  unfold Snapshot.nexValidatorsChangeBlock
  dsimp only
  split
  · exact if_pos (by omega)
  · have hsum : add64 (s.number - s.number % s.epochLength) s.epochLength =
        s.number - s.number % s.epochLength + s.epochLength := if_pos (by omega)
    rw [hsum, add_right_comm]
    exact if_pos (by omega)

theorem nexValidatorsChangeBlock_le {number : ℕ} (hfits : s.Fits) (hafter : s.number < number)
    (hswitch : number % s.epochLength = s.minerHistoryCheckLen) :
    s.nexValidatorsChangeBlock ≤ number := by
  have hsnapshot := Nat.div_add_mod s.number s.epochLength
  have hnumber := Nat.div_add_mod number s.epochLength
  have hle : s.number / s.epochLength ≤ number / s.epochLength := Nat.div_le_div_right hafter.le
  have hmul := Nat.mul_le_mul_left s.epochLength hle
  rw [hfits.nexValidatorsChangeBlock]
  split
  · omega
  · -- the switch of the current epoch has passed
    have hlt : s.number / s.epochLength < number / s.epochLength := by
      refine lt_of_le_of_ne hle (fun heq => ?_)
      rw [heq] at hsnapshot
      omega
    have hmul' := Nat.mul_le_mul_left s.epochLength (succ_le_of_lt hlt)
    rw [mul_succ] at hmul'
    omega

/-! ## The proposal -/

theorem nextProposalBlock_ok (hfits : s.Fits)
    (h : s.nextProposalBlock proposer = .ok (start, stop)) :
    0 < s.turnLength ∧ ∃ index, s.indexOfVal proposer = some index ∧
      start = (s.number / s.turnLength + (index + s.validatorList.length -
        s.number / s.turnLength % s.validatorList.length) % s.validatorList.length) * s.turnLength ∧
      start + s.turnLength < 2 ^ 64 ∧
      stop = min (start + s.turnLength - 1) s.nexValidatorsChangeBlock ∧ start ≤ stop := by
  unfold nextProposalBlock at h
  dsimp only at h
  split at h
  · cases h
  · rename_i hpanic
    have hturn : 0 < s.turnLength := pos_of_ne_zero (fun hzero => hpanic (.inl hzero))
    have hlen : 0 < s.validatorList.length := pos_of_ne_zero (fun hzero => hpanic (.inr hzero))
    split at h
    · cases h
    · rename_i index hindex
      -- the turn of the proposer is less than a round ahead
      have hahead := Nat.mod_lt (index + s.validatorList.length -
        s.number / s.turnLength % s.validatorList.length) hlen
      generalize hdef : (index + s.validatorList.length -
        s.number / s.turnLength % s.validatorList.length) %
          s.validatorList.length = ahead at h hahead
      have hmul : (ahead + 1) * s.turnLength ≤ s.validatorList.length * s.turnLength :=
        Nat.mul_le_mul_right _ hahead
      have hturns := hfits.turns
      have hround : add64 s.number (ahead * s.turnLength) -
          add64 s.number (ahead * s.turnLength) % s.turnLength =
            (s.number / s.turnLength + ahead) * s.turnLength := by
        have hsum : add64 s.number (ahead * s.turnLength) = s.number + ahead * s.turnLength :=
          if_pos (by rw [Nat.add_one_mul] at hmul; omega)
        have hdiv := Nat.div_add_mod (s.number + ahead * s.turnLength) s.turnLength
        rw [add_mul_div_right _ _ hturn, mul_comm] at hdiv
        rw [hsum]
        omega
      rw [hround] at h
      have hstart : (s.number / s.turnLength + ahead) * s.turnLength + s.turnLength < 2 ^ 64 := by
        have hle := Nat.div_mul_le_self s.number s.turnLength
        rw [Nat.add_one_mul] at hmul
        rw [Nat.add_mul]
        omega
      have hend : sub64 (add64 ((s.number / s.turnLength + ahead) * s.turnLength) s.turnLength) 1 =
          (s.number / s.turnLength + ahead) * s.turnLength + s.turnLength - 1 := by
        rw [add64, if_pos hstart, sub64, if_pos (by omega)]
      rw [hend] at h
      split at h
      · cases h
      · split at h
        · cases h
        · rename_i hbefore
          refine ⟨hturn, index, hindex, ?_⟩
          rw [hdef]
          split at h
          · rename_i hcut
            obtain ⟨rfl, rfl⟩ := Prod.mk.inj (Except.ok.inj h)
            exact ⟨rfl, hstart, (min_eq_right hcut).symm, (not_le.mp hbefore).le⟩
          · rename_i hcut
            obtain ⟨rfl, rfl⟩ := Prod.mk.inj (Except.ok.inj h)
            exact ⟨rfl, hstart, (min_eq_left (not_le.mp hcut).le).symm, by omega⟩

/-- The selection goes round robin: before Snake8, or without frequency data. -/
def RoundRobin (s : Snapshot) : Prop := s.isSnake8Fork = false ∨ s.frequencyRLP = []

theorem inturnValidator_eq_iff (hrobin : s.RoundRobin) (hturn : 0 < s.turnLength)
    (hindex : s.validatorList[index]? = some proposer) {number : ℕ} (hlt64 : number + 1 < 2 ^ 64) :
    { s with number := number }.inturnValidator k = .ok proposer ↔
      (number + 1) / s.turnLength % s.validatorList.length = index := by
  have hlt : index < s.validatorList.length := (List.getElem?_eq_some_iff.mp hindex).1
  have hselect : { s with number := number }.inturnValidator k =
      { s with number := number }.selectValidatorRoundRobin := by
    unfold inturnValidator
    rcases hrobin with hfork | hempty
    · rw [if_pos (.inr (by simp [hfork]))]
    · rw [if_pos hempty, ite_self]
  have hnext := mod_lt ((number + 1) / s.turnLength) (zero_lt_of_lt hlt)
  have hget := getElem?_eq_getElem hnext
  have hvalue : { s with number := number }.selectValidatorRoundRobin =
      .ok s.validatorList[(number + 1) / s.turnLength % s.validatorList.length] := by
    have hadd : add64 number 1 = number + 1 := if_pos hlt64
    rw [selectValidatorRoundRobin, if_neg hturn.ne']
    simp only [validatorList, hadd] at hget ⊢
    rw [hget]
    rfl
  have hnodup : s.validatorList.Nodup := ExtTreeMap.nodup_keys
  rw [hselect, hvalue]
  constructor
  · intro heq
    have hsame : s.validatorList[(number + 1) / s.turnLength % s.validatorList.length] =
        s.validatorList[index] :=
      (Except.ok.inj heq).trans (List.getElem?_eq_some_iff.mp hindex).2.symm
    exact hnodup.getElem_inj_iff.mp hsame
  · intro heq
    have hsome := (List.getElem?_eq_some_iff.mp hindex).2
    subst heq
    rw [hsome]

/-- `nextProposalBlock` is right: in a range that it returns, which is not empty, every block has
the proposer as its in-turn validator, no block between the snapshot and the range has, and the
range ends at the next switch block at the latest. -/
theorem nextProposalBlock_spec (hrobin : s.RoundRobin) (hindexed : Indexed s.validators)
    (hfits : s.Fits) (h : s.nextProposalBlock proposer = .ok (start, stop)) :
    start ≤ stop ∧
      (∀ number, start ≤ number + 1 → number + 1 ≤ stop →
        { s with number := number }.inturnValidator k = .ok proposer) ∧
      (∀ number, s.number < number + 1 → number + 1 < start →
        { s with number := number }.inturnValidator k ≠ .ok proposer) ∧
      (∀ number, s.number < number → number % s.epochLength = s.minerHistoryCheckLen →
        stop ≤ number) := by
  obtain ⟨hturn, index, hsome, hstart, hlt64, hstop, hle⟩ := nextProposalBlock_ok hfits h
  have hindex := indexOfVal_eq_some hindexed hsome
  have hlt : index < s.validatorList.length := (List.getElem?_eq_some_iff.mp hindex).1
  have hend : stop ≤ start + s.turnLength - 1 := by rw [hstop]; exact Nat.min_le_left _ _
  refine ⟨hle, fun number hge hle => ?_, fun number hafter hlow => ?_,
    fun number hafter hswitch => ?_⟩
  · -- all blocks of the range lie in the turn that starts it
    have hdiv : (number + 1) / s.turnLength = start / s.turnLength := by
      rw [hstart, Nat.mul_div_cancel _ hturn]
      refine Nat.div_eq_of_lt_le (by rw [← hstart]; exact hge) ?_
      rw [Nat.add_one_mul, ← hstart]
      omega
    rw [inturnValidator_eq_iff hrobin hturn hindex (by omega), hdiv, hstart,
      Nat.mul_div_cancel _ hturn]
    exact turn_mod_eq hlt
  · rw [Ne, inturnValidator_eq_iff hrobin hturn hindex (by omega)]
    refine turn_mod_ne hlt (Nat.div_le_div_right hafter.le) ((Nat.div_lt_iff_lt_mul hturn).mpr ?_)
    rw [← hstart]
    exact hlow
  · rw [hstop]
    exact (Nat.min_le_right _ _).trans (nexValidatorsChangeBlock_le hfits hafter hswitch)

/-- Three validators at block 10, in epochs of 200 blocks. -/
def threeValidators : Snapshot :=
  newSnapshot default 10 default
    [FixedBytes.ofBytes 20 [1], FixedBytes.ofBytes 20 [2], FixedBytes.ofBytes 20 [3]] [] false

theorem nextProposalBlock_spec_three :
    threeValidators.nextProposalBlock (FixedBytes.ofBytes 20 [1]) = .ok (12, 12) ∧
      { threeValidators with number := 11 }.inturnValidator default =
        .ok (FixedBytes.ofBytes 20 [1]) := by
  have hcall : threeValidators.nextProposalBlock (FixedBytes.ofBytes 20 [1]) = .ok (12, 12) := by
    decide
  have hspec := nextProposalBlock_spec (k := default) (s := threeValidators) (.inl rfl)
    (newSnapshot_indexed _ _ _ _ _ _) ⟨by decide, by decide⟩ hcall
  exact ⟨hcall, hspec.2.1 11 (by decide) (by decide)⟩

end Snapshot

theorem Applied.indexed {p : Parlia} {g : Header} {U : Set Header}
    {H : List Header} {s : Snapshot} (h : Applied p g U H s) : Indexed s.validators := by
  induction h with
  | @genesis isSnake8Fork s h =>
    unfold Parlia.checkpointSnapshot at h
    obtain ⟨⟨validators, voteAddrs⟩, -, h⟩ := Except.bind_eq_ok.mp h
    obtain ⟨turnLength, -, h⟩ := Except.bind_eq_ok.mp h
    rw [← Except.ok.inj h]
    exact newSnapshot_indexed p.c 0 (p.k.hash g) validators voteAddrs isSnake8Fork
  | block below branch within parents_mem h ih => exact applyHeader_indexed ih h
  | imposed below h ih => rw [h]; exact ih

end ChilizChain
