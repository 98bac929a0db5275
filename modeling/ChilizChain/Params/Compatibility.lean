import Mathlib.Tactic.FinCases
import ChilizChain.Params.Config

/-! # What the compatibility check does not compare

`CheckCompatible` always comes to an end, because a conflict rewinds the block or the time below
the forks that caused it. When it finds none, the forks that it compares switch at the same
places up to the head. It does not compare the forks that are specific to Chiliz nor the presence
of the `Parlia` section, and it compares Petersburg without regard to the block at which a
configuration that leaves it out makes the switch. What has to be equal besides is stated field
by field in `UncheckedAgree`. -/

namespace ChilizChain.Params

open Bool Option Rules List

variable {s : Option ℤ}

theorem isBlockForked_iff {head : ℤ} : isBlockForked s head = true ↔ ∃ a ∈ s, a ≤ head := by
  cases s <;> simp [isBlockForked]

variable {head : ℕ}

theorem isTimestampForked_iff {s : Option ℕ} :
    isTimestampForked s head = true ↔ ∃ a ∈ s, a ≤ head := by
  cases s <;> simp [isTimestampForked]

/-- A fork by time is a fork by number on the clock. -/
theorem isTimestampForked_eq (s : Option ℕ) (t : ℕ) :
    isTimestampForked s t = isBlockForked (s.map Nat.cast) t := by
  cases s <;> simp [isTimestampForked, isBlockForked]

theorem isBlockForked_mono {m n : ℤ} (hmn : m ≤ n) (h : isBlockForked s m = true) :
    isBlockForked s n = true := by
  obtain ⟨a, ha, hle⟩ := isBlockForked_iff.mp h
  exact isBlockForked_iff.mpr ⟨a, ha, le_trans hle hmn⟩

/-! ## Termination -/

/-- A conflict rewinds below the head: a block conflict the block, a time conflict the time. At
zero there is nothing left to rewind. -/
structure ConfigCompatError.Rewinds (err : ConfigCompatError) (bhead btime : ℕ) : Prop where
  block_le : err.rewindToBlock ≤ bhead - 1
  time_le : err.rewindToTime ≤ btime - 1

theorem earlier_le {α : Type} [LinearOrder α] {stored new : Option α} {head : α}
    (h : (∃ a ∈ stored, a ≤ head) ∨ ∃ a ∈ new, a ≤ head) :
    ∃ rew, earlier stored new = some rew ∧ rew ≤ head := by
  cases stored with
  | none => simpa [earlier] using h
  | some s =>
    cases new with
    | none => simpa [earlier] using h
    | some n =>
      simp only [mem_some_iff, exists_eq_left'] at h
      by_cases hlt : s < n
      · exact ⟨s, if_pos hlt, h.elim id fun hn => le_trans (le_of_lt hlt) hn⟩
      · exact ⟨n, if_neg hlt, h.elim (le_trans (le_of_not_gt hlt)) id⟩

theorem newBlockCompatError_rewinds {stored new : Option ℤ} {bhead : ℕ} (what : String)
    (btime : ℕ) (h : isBlockForked stored bhead = true ∨ isBlockForked new bhead = true) :
    (newBlockCompatError what stored new).Rewinds bhead btime := by
  simp only [isBlockForked_iff] at h
  obtain ⟨rew, hrew, hle⟩ := earlier_le h
  refine ⟨?_, Nat.zero_le _⟩
  simp only [newBlockCompatError, hrew, toUint64]
  split
  · -- Taking one away wraps at most at a multiple of `2 ^ 64`, and stays below it.
    omega
  · exact Nat.zero_le _

theorem newTimestampCompatError_rewinds {stored new : Option ℕ} {btime : ℕ} (what : String)
    (bhead : ℕ) (h : isTimestampForked stored btime = true ∨ isTimestampForked new btime = true) :
    (newTimestampCompatError what stored new).Rewinds bhead btime := by
  simp only [isTimestampForked_iff] at h
  obtain ⟨rew, hrew, hle⟩ := earlier_le h
  refine ⟨Nat.zero_le _, ?_⟩
  simp only [newTimestampCompatError, hrew, elim_some]
  omega

namespace ChainConfig

variable {c newcfg : ChainConfig}

variable {bhead btime : ℕ} {err : ConfigCompatError}

theorem checkStep_rewinds {check : CompatCheck}
    (h : c.checkStep newcfg bhead btime check = some err) : err.Rewinds bhead btime := by
  cases check with
  | block what fork =>
    simp only [checkStep, isForkBlockIncompatible, ite_none_right_eq_some,
      and_eq_true, or_eq_true, Option.some.injEq] at h
    exact h.2 ▸ newBlockCompatError_rewinds _ _ h.1.1
  | daoForkSupport =>
    simp only [checkStep, isDAOFork, ite_none_right_eq_some, and_eq_true, Option.some.injEq] at h
    exact h.2 ▸ newBlockCompatError_rewinds _ _ (.inl h.1.1)
  | chainID =>
    simp only [checkStep, isEIP158, ite_none_right_eq_some, and_eq_true, Option.some.injEq] at h
    exact h.2 ▸ newBlockCompatError_rewinds _ _ (.inl h.1.1)
  | petersburg =>
    simp only [checkStep, isForkBlockIncompatible, ite_none_right_eq_some,
      and_eq_true, or_eq_true, Option.some.injEq] at h
    exact h.2 ▸ newBlockCompatError_rewinds _ _ h.1.1.1
  | time what fork =>
    simp only [checkStep, isForkTimestampIncompatible, ite_none_right_eq_some,
      and_eq_true, or_eq_true, Option.some.injEq] at h
    exact h.2 ▸ newTimestampCompatError_rewinds _ _ h.1.1

theorem checkCompatible_rewinds (h : c.checkCompatible newcfg bhead btime = some err) :
    err.Rewinds bhead btime := by
  obtain ⟨check, -, hcheck⟩ := exists_of_findSome?_eq_some h
  exact checkStep_rewinds hcheck

/-- A round that meets the conflict of the round before is the last one. -/
theorem checkCompatibleLoop_repeated (fuel : ℕ)
    (h : c.checkCompatible newcfg bhead btime = some err) :
    c.checkCompatibleLoop newcfg (fuel + 1) bhead btime (some err) = some (some err) := by
  simp [checkCompatibleLoop, h]

variable (c newcfg) in
/-- The loop ends: a round lowers the block or the time, or repeats the one before. -/
theorem checkCompatibleLoop_terminates (bhead btime : ℕ) (lasterr : Option ConfigCompatError) :
    ∃ r, ∀ fuel, bhead + btime + 2 ≤ fuel →
      c.checkCompatibleLoop newcfg fuel bhead btime lasterr = some r := by
  induction hm : bhead + btime using Nat.strong_induction_on generalizing bhead btime lasterr with
  | _ m ih =>
    subst hm
    -- The first round, with the rest of the fuel.
    suffices ∃ r, ∀ fuel, bhead + btime + 1 ≤ fuel →
        c.checkCompatibleLoop newcfg (fuel + 1) bhead btime lasterr = some r by
      obtain ⟨r, hr⟩ := this
      refine ⟨r, fun fuel hfuel => ?_⟩
      obtain ⟨fuel, rfl⟩ := Nat.exists_eq_add_of_le' (show 1 ≤ fuel by omega)
      exact hr fuel (by omega)
    cases hconflict : c.checkCompatible newcfg bhead btime with
    | none => exact ⟨lasterr, fun fuel _ => by simp [checkCompatibleLoop, hconflict]⟩
    | some err =>
      have hrewinds := checkCompatible_rewinds hconflict
      by_cases hlast : lasterr.any fun last =>
          err.rewindToBlock == last.rewindToBlock && err.rewindToTime == last.rewindToTime
      · exact ⟨lasterr, fun fuel _ => by simp [checkCompatibleLoop, hconflict, hlast]⟩
      by_cases htime : 0 < err.rewindToTime
      · obtain ⟨r, hr⟩ := ih _ (by have := hrewinds.time_le; omega) bhead err.rewindToTime
          (some err) rfl
        refine ⟨r, fun fuel hfuel => ?_⟩
        simp only [checkCompatibleLoop, hconflict, hlast, htime, if_true]
        exact hr fuel (by have := hrewinds.time_le; omega)
      by_cases hblock : err.rewindToBlock < bhead
      · obtain ⟨r, hr⟩ := ih _ (by omega) err.rewindToBlock btime (some err) rfl
        refine ⟨r, fun fuel hfuel => ?_⟩
        simp only [checkCompatibleLoop, hconflict, hlast, htime, if_false]
        exact hr fuel (by omega)
      · -- Nothing is left to rewind, and the next round meets the same conflict.
        have heq : err.rewindToBlock = bhead := by have := hrewinds.block_le; omega
        refine ⟨some err, fun fuel hfuel => ?_⟩
        obtain ⟨fuel, rfl⟩ := Nat.exists_eq_add_of_le' (show 1 ≤ fuel by omega)
        rw [checkCompatibleLoop]
        simp only [hconflict, hlast, htime, if_false]
        rw [heq]
        exact checkCompatibleLoop_repeated fuel hconflict

theorem checkCompatibleLoop_eq_none {fuel : ℕ}
    (h : c.checkCompatibleLoop newcfg fuel bhead btime none = some none) :
    c.checkCompatible newcfg bhead btime = none := by
  have hsome : ∀ (fuel bhead btime : ℕ) (err : ConfigCompatError),
      c.checkCompatibleLoop newcfg fuel bhead btime (some err) ≠ some none := by
    intro fuel
    induction fuel with
    | zero => simp [checkCompatibleLoop]
    | succ fuel ih =>
      intro bhead btime err
      simp only [checkCompatibleLoop]
      grind
  cases fuel with
  | zero => simp [checkCompatibleLoop] at h
  | succ fuel =>
    cases hconflict : c.checkCompatible newcfg bhead btime with
    | none => rfl
    | some err =>
      simp only [checkCompatibleLoop, hconflict, any_none, false_eq_true, if_false] at h
      split at h
      · exact absurd h (hsome _ _ _ _)
      · exact absurd h (hsome _ _ _ _)

end ChainConfig

/-! ## Where forks switch -/

/-- The first block of the chain, up to its head, at which a fork is active. -/
def firstActive (s : Option ℤ) (head : ℕ) : Option ℕ :=
  s.bind fun a => if a ≤ head then some a.toNat else none

/-- The first time up to that of the head. -/
def firstActiveTime (s : Option ℕ) (head : ℕ) : Option ℕ := firstActive (s.map Nat.cast) head

theorem isBlockForked_iff_firstActive {n : ℕ} (hn : n ≤ head) :
    isBlockForked s n = true ↔ ∃ a ∈ firstActive s head, a ≤ n := by
  cases s with
  | none => simp [isBlockForked, firstActive]
  | some a =>
    simp only [isBlockForked, firstActive, decide_eq_true_eq, bind_some, mem_def,
      ite_none_right_eq_some, Option.some.injEq]
    grind

theorem firstActive_eq_iff {s' : Option ℤ} : firstActive s head = firstActive s' head ↔
      ∀ n ≤ head, isBlockForked s n = isBlockForked s' n := by
  constructor
  · intro h n hn
    rw [Bool.eq_iff_iff, isBlockForked_iff_firstActive hn, isBlockForked_iff_firstActive hn, h]
  · intro h
    have hle : ∀ {r : Option ℤ} {a : ℕ}, firstActive r head = some a → a ≤ head := by
      intro r a ha
      cases r <;> simp [firstActive] at ha
      grind
    have key : ∀ n ≤ head, (∃ a ∈ firstActive s head, a ≤ n) ↔
        ∃ a ∈ firstActive s' head, a ≤ n := by
      intro n hn
      rw [← isBlockForked_iff_firstActive hn, ← isBlockForked_iff_firstActive hn, h n hn]
    cases hs : firstActive s head with
    | none =>
      cases hs' : firstActive s' head with
      | none => rfl
      | some b => simpa [hs, hs'] using key b (hle hs')
    | some a =>
      cases hs' : firstActive s' head with
      | none => simpa [hs, hs'] using key a (hle hs)
      | some b =>
        have ha := key a (hle hs)
        have hb := key b (hle hs')
        simp only [hs, hs', mem_some_iff, exists_eq_left'] at ha hb
        congr 1
        omega

theorem firstActiveTime_eq_iff {s s' : Option ℕ} :
    firstActiveTime s head = firstActiveTime s' head ↔
      ∀ t ≤ head, isTimestampForked s t = isTimestampForked s' t := by
  simp only [firstActiveTime, firstActive_eq_iff, isTimestampForked_eq]

theorem firstActive_eq_of_compatible {s' : Option ℤ}
    (h : isForkBlockIncompatible s s' head = false) :
    firstActive s head = firstActive s' head := by
  simp only [isForkBlockIncompatible, and_eq_false_iff, or_eq_false_iff, bne_eq_false_iff_eq] at h
  rcases h with ⟨hs, hs'⟩ | rfl
  · rw [firstActive_eq_iff]
    intro n hn
    have hmono : ∀ r, isBlockForked r head = false → isBlockForked r n = false := fun r hr =>
      eq_false_iff.mpr fun h => eq_false_iff.mp hr (isBlockForked_mono (mod_cast hn) h)
    rw [hmono s hs, hmono s' hs']
  · rfl

theorem firstActiveTime_eq_of_compatible {s s' : Option ℕ}
    (h : isForkTimestampIncompatible s s' head = false) :
    firstActiveTime s head = firstActiveTime s' head := by
  refine firstActive_eq_of_compatible (h ▸ ?_)
  have hinj : Function.Injective (Option.map (Nat.cast : ℕ → ℤ)) :=
    Option.map_injective fun _ _ => Int.ofNat_inj.mp
  simp only [isForkBlockIncompatible, isForkTimestampIncompatible, isTimestampForked_eq, bne,
    hinj.beq_eq]

/-! ## Flags up to the head -/

namespace ChainConfig

/-- The block at which a network switches to Petersburg. -/
def petersburgSwitch (c : ChainConfig) : Option ℤ :=
  (c.block .petersburg).or (c.block .constantinople)

theorem isPetersburg_eq (c : ChainConfig) (num : ℤ) :
    c.isPetersburg num = isBlockForked c.petersburgSwitch num := by
  unfold isPetersburg petersburgSwitch
  cases c.block .petersburg <;> simp [isBlockForked]

end ChainConfig

/-- The flags of a set of rules; the chain id is not one. -/
def Rules.flags (r : Rules) : Rules := { r with chainID := 0 }

/-- Two configurations put the same rules in force at every block number and time up to the
head. The mints of Pepper8 and Pipe8 have no flag in the rules and are tested by themselves. -/
structure RulesAgree (c newcfg : ChainConfig) (height time : ℕ) : Prop where
  flags_eq : ∀ n ≤ height, ∀ t ≤ time, ∀ merge,
    (c.rules n merge t).flags = (newcfg.rules n merge t).flags
  pepper8_eq : ∀ t ≤ time, c.isPepper8Time t = newcfg.isPepper8Time t
  pipe8_eq : ∀ t ≤ time, c.isPipe8Time t = newcfg.isPipe8Time t

/-- The forks whose flags a network without a `Parlia` section raises only after the merge. -/
def mergeForks : List TimeFork := [.shanghai, .cancun, .prague, .osaka, .amsterdam]

/-- What the check does not see. -/
structure UncheckedAgree (c newcfg : ChainConfig) (height time : ℕ) : Prop where
  block_eq : ∀ fork ∈ [BlockFork.runtimeUpgrade, .deployOrigin, .deploymentHookFix,
    .deployerFactory], firstActive (c.block fork) height = firstActive (newcfg.block fork) height
  time_eq : ∀ fork ∈ [TimeFork.dragon8, .dragon8Fix, .snake8, .pepper8, .pipe8,
    .deployerProxySunset], firstActiveTime (c.time fork) time =
      firstActiveTime (newcfg.time fork) time
  petersburg_eq : firstActive c.petersburgSwitch height = firstActive newcfg.petersburgSwitch height
  parlia_eq : c.parlia = newcfg.parlia ∨
    ∀ fork ∈ mergeForks, c.isForkedAfterLondon fork height time = false

namespace ChainConfig

variable {c newcfg : ChainConfig} {height time : ℕ}

/-- The forks by block that the check compares on their own. -/
def comparedBlocks : List BlockFork :=
  compatChecks.filterMap fun
    | .block _ fork => some fork
    | _ => none

def comparedTimes : List TimeFork :=
  compatChecks.filterMap fun
    | .time _ fork => some fork
    | _ => none

variable {n : ℕ}

variable (h : c.checkCompatible newcfg height time = none)

include h in
theorem comparedBlock_eq {fork : BlockFork} (hfork : fork ∈ comparedBlocks) (hn : n ≤ height) :
    isBlockForked (c.block fork) n = isBlockForked (newcfg.block fork) n := by
  obtain ⟨check, hmem, hcheck⟩ := mem_filterMap.mp hfork
  have hstep := findSome?_eq_none_iff.mp h check hmem
  cases check <;> simp only [Option.some.injEq, reduceCtorEq] at hcheck
  subst hcheck
  simp only [checkStep, ite_eq_right_iff, reduceCtorEq, imp_false, not_eq_true] at hstep
  exact firstActive_eq_iff.mp (firstActive_eq_of_compatible hstep) n hn

variable {fork : TimeFork} {t : ℕ}

variable (hfork : fork ∈ comparedTimes)

include h hfork in
theorem comparedTime_eq (ht : t ≤ time) :
    isTimestampForked (c.time fork) t = isTimestampForked (newcfg.time fork) t := by
  obtain ⟨check, hmem, hcheck⟩ := mem_filterMap.mp hfork
  have hstep := findSome?_eq_none_iff.mp h check hmem
  cases check <;> simp only [Option.some.injEq, reduceCtorEq] at hcheck
  subst hcheck
  simp only [checkStep, ite_eq_right_iff, reduceCtorEq, imp_false, not_eq_true] at hstep
  exact firstActiveTime_eq_iff.mp (firstActiveTime_eq_of_compatible hstep) t ht

include h hfork in
theorem comparedAfterLondon_eq (hn : n ≤ height) (ht : t ≤ time) :
    c.isForkedAfterLondon fork n t = newcfg.isForkedAfterLondon fork n t := by
  rw [isForkedAfterLondon, isForkedAfterLondon, isLondon, isLondon, comparedTime_eq h hfork ht,
    comparedBlock_eq h (by decide) hn]

theorem mergeForks_compared : ∀ fork ∈ mergeForks, fork ∈ comparedTimes := by decide

section

variable (h : c.checkCompatible newcfg height time = none)
include h

theorem mergeFlag_eq (hu : UncheckedAgree c newcfg height time) (hfork : fork ∈ mergeForks)
    (hn : n ≤ height)
    (ht : t ≤ time) (merge : Bool) :
    ((merge && c.isLondon n || c.isInBSC) && c.isForkedAfterLondon fork n t) =
      ((merge && newcfg.isLondon n || newcfg.isInBSC) && newcfg.isForkedAfterLondon fork n t) := by
  rw [← comparedAfterLondon_eq h (mergeForks_compared fork hfork) hn ht]
  rcases hu.parlia_eq with hparlia | hinactive
  · have hlondon : c.isLondon n = newcfg.isLondon n := comparedBlock_eq h (by decide) hn
    rw [isInBSC, isInBSC, hparlia, hlondon]
  · have hfalse : c.isForkedAfterLondon fork n t = false := by
      refine eq_false_iff.mpr fun hactive => eq_false_iff.mp (hinactive fork hfork) ?_
      rw [isForkedAfterLondon, and_eq_true] at hactive ⊢
      rw [isTimestampForked_eq] at hactive ⊢
      exact ⟨isBlockForked_mono (mod_cast hn) hactive.1, isBlockForked_mono (mod_cast ht) hactive.2⟩
    rw [hfalse, Bool.and_false, Bool.and_false]

theorem rulesAgree_of_unchecked (hu : UncheckedAgree c newcfg height time) :
    RulesAgree c newcfg height time where
  pepper8_eq := firstActiveTime_eq_iff.mp (hu.time_eq .pepper8 (by decide))
  pipe8_eq := firstActiveTime_eq_iff.mp (hu.time_eq .pipe8 (by decide))
  flags_eq n hn t ht merge := by
    have hblock : ∀ fork ∈ comparedBlocks, isBlockForked (c.block fork) n =
        isBlockForked (newcfg.block fork) n := fun fork hfork => comparedBlock_eq h hfork hn
    have hlater : ∀ fork ∈ comparedTimes, c.isForkedAfterLondon fork n t =
        newcfg.isForkedAfterLondon fork n t :=
          fun fork hfork => comparedAfterLondon_eq h hfork hn ht
    have hmerge := fun (fork : TimeFork) (hfork : fork ∈ mergeForks) =>
      mergeFlag_eq h hu hfork hn ht merge
    have hother := fun fork hfork => firstActive_eq_iff.mp (hu.block_eq fork hfork) n hn
    have hchiliz := fun fork hfork => firstActiveTime_eq_iff.mp (hu.time_eq fork hfork) t ht
    have hberlin : c.isBerlin n = newcfg.isBerlin n := hblock .berlin (by decide)
    have hlondon : c.isLondon n = newcfg.isLondon n := hblock .london (by decide)
    have hverkle : c.isVerkle n t = newcfg.isVerkle n t := hlater .verkle (by decide)
    apply Rules.ext
    case isPetersburg =>
      change c.isPetersburg n = newcfg.isPetersburg n
      rw [isPetersburg_eq, isPetersburg_eq]
      exact firstActive_eq_iff.mp hu.petersburg_eq n hn
    case isEIP2929 | isEIP4762 | isMerge =>
      simp only [flags, rules, hberlin, hlondon, hverkle]
    -- Every other flag belongs to one of the families of forks above.
    all_goals first
      | rfl
      | exact hblock _ (by decide)
      | exact hlater _ (by decide)
      | exact hmerge _ (by decide)
      | exact hother _ (by decide)
      | exact hchiliz _ (by decide)

theorem unchecked_of_rulesAgree (ha : RulesAgree c newcfg height time) :
    UncheckedAgree c newcfg height time where
  block_eq fork hfork := by
    rw [firstActive_eq_iff]
    intro n hn
    have hflags := ha.flags_eq n hn 0 (Nat.zero_le _) false
    fin_cases hfork
    · exact congrArg hasRuntimeUpgrade hflags
    · exact congrArg hasDeployOrigin hflags
    · exact congrArg hasDeploymentHookFix hflags
    · exact congrArg deployerFactory hflags
  time_eq fork hfork := by
    rw [firstActiveTime_eq_iff]
    intro t ht
    have hflags := ha.flags_eq 0 (Nat.zero_le _) t ht false
    fin_cases hfork
    · exact congrArg dragon8 hflags
    · exact congrArg dragon8Fix hflags
    · exact congrArg snake8 hflags
    · exact ha.pepper8_eq t ht
    · exact ha.pipe8_eq t ht
    · exact congrArg deployerProxySunset hflags
  petersburg_eq := by
    rw [firstActive_eq_iff]
    intro n hn
    rw [← isPetersburg_eq, ← isPetersburg_eq]
    exact congrArg Rules.isPetersburg (ha.flags_eq n hn 0 (Nat.zero_le _) false)
  parlia_eq := by
    by_cases hparlia : c.parlia = newcfg.parlia
    · exact .inl hparlia
    · refine .inr fun fork hfork => ?_
      have hflags := ha.flags_eq height le_rfl time le_rfl false
      -- With one of the two sections missing, the flag is down on one side, the fork on the other.
      have hdown : (c.parlia && c.isForkedAfterLondon fork height time) =
          (newcfg.parlia && newcfg.isForkedAfterLondon fork height time) := by
        fin_cases hfork
        · exact congrArg Rules.isShanghai hflags
        · exact congrArg Rules.isCancun hflags
        · exact congrArg Rules.isPrague hflags
        · exact congrArg Rules.isOsaka hflags
        · exact congrArg Rules.isAmsterdam hflags
      rw [← comparedAfterLondon_eq h (mergeForks_compared fork hfork) le_rfl le_rfl] at hdown
      revert hparlia hdown
      cases c.parlia <;> cases newcfg.parlia <;> simp

end

end ChainConfig

/-- The check ends on every pair of configurations and every head, and when it finds no conflict the
rules agree up to the head exactly if what it does not look at agrees. -/
theorem checkCompatible_sound_iff (c newcfg : ChainConfig) (height time : ℕ) :
    ∃ r, (∀ fuel, height + time + 2 ≤ fuel →
        c.checkCompatibleLoop newcfg fuel height time none = some r) ∧
      (r = none → (RulesAgree c newcfg height time ↔ UncheckedAgree c newcfg height time)) := by
  obtain ⟨r, hr⟩ := c.checkCompatibleLoop_terminates newcfg height time none
  refine ⟨r, hr, fun hnone => ?_⟩
  have h := ChainConfig.checkCompatibleLoop_eq_none (hnone ▸ hr _ le_rfl)
  exact ⟨ChainConfig.unchecked_of_rulesAgree h, ChainConfig.rulesAgree_of_unchecked h⟩

namespace Sample

/-- A network that switches to Snake8 at time 5. -/
def snake8At5 : ChainConfig := { (default : ChainConfig) with
  time := fun fork => if fork = .snake8 then some 5 else none }

end Sample

/-- A node at block 7 and time 10 that moves Snake8 into its past is told that nothing changes. -/
theorem snake8_not_compared :
    (default : ChainConfig).checkCompatibleLoop Sample.snake8At5 19 7 10 none = some none ∧
    ¬ RulesAgree default Sample.snake8At5 7 10 := by
  refine ⟨by decide, fun h => ?_⟩
  have hflag := congrArg Rules.snake8 (h.flags_eq 7 le_rfl 10 le_rfl false)
  revert hflag
  decide

end ChilizChain.Params
