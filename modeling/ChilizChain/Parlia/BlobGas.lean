import ChilizChain.Parlia.Header

/-! # The excess blob gas along a chain

A block's excess is computed from its parent, and from the Mendel fork on only when the parent
is a block that may carry blobs: on the other blocks the excess is handed on unchanged. The
parent's `BlobGasUsed` then has no further chance to be counted, so what is left to check is
that it was zero. That holds between two blocks after the fork, where the header check forbids
blobs outside the interval, but not across the fork itself. -/

namespace ChilizChain

open Option

/-- Blob gas used, with a missing field read as zero. -/
def Header.usedBlobGas (h : Header) : ℕ := h.blobGasUsed.getD 0

/-- Excess blob gas, with a missing field read as zero. -/
def Header.excess (h : Header) : ℕ := h.excessBlobGas.getD 0

/-- An accepted child of `parent` that lives under the Cancun rules. -/
structure AcceptedCancun (c : ChainConfig) (parent header : Header) : Prop where
  cancun : c.isCancun header.number header.time = true
  number_eq : header.number = parent.number + 1
  verified : verifyEIP4844Header c parent header = .ok ()

variable (c : ChainConfig)

variable (block : ℕ → Header)

/-- Blocks `1, …, n` are accepted, each as the child of the block before. Block `0` is only the
parent of the first one. -/
def AcceptedBlocks (n : ℕ) : Prop :=
  ∀ i < n, AcceptedCancun c (block i) (block (i + 1))

/-- A child at `headTimestamp` computes its excess from the parent's blob gas instead of
inheriting the parent's excess. -/
def countsParent (parent : Header) (headTimestamp : ℕ) : Bool :=
  !(c.isMendel headTimestamp && parent.number % blobEligibleBlockInterval != 0)

/-- The target in force at a time, in gas. -/
def targetBlobGas (time : ℕ) : ℕ :=
  ((c.latestBlobConfig time).map (·.target)).getD 0 * blobTxBlobGasPerBlob

/-- One term of the running sum: the blob gas of `parent` comes in, and where it is counted the
target goes out, never below zero. -/
def addBlobGas (excess : ℕ) (parent child : Header) : ℕ :=
  excess + parent.usedBlobGas -
    if countsParent c parent child.time then targetBlobGas c child.time else 0

/-- The truncated sum of the blob gas used in the `count` blocks from `a` on. -/
def blobGasSum (a count : ℕ) : ℕ :=
  (List.range' a count).foldl (fun e i => addBlobGas c e (block i) (block (i + 1)))
    (block a).excess

/-- The blob gas of block `i` is part of the computation of the excess of block `j`. -/
def CountedBy (i j : ℕ) : Prop :=
  j = i + 1 ∧ countsParent c (block i) (block j).time = true

/-- No blob gas is lost between blocks `1` and `n`: what a block used is counted by exactly one
later block, and any excess is the truncated sum over the blocks since any earlier one. -/
structure BlobGasKept (c : ChainConfig) (block : ℕ → Header) (n : ℕ) : Prop where
  counted_once : ∀ i, 1 ≤ i → i < n → (block i).usedBlobGas ≠ 0 →
    ∃! j, i < j ∧ j ≤ n ∧ CountedBy c block i j
  excess_eq : ∀ a b, 1 ≤ a → a < b → b ≤ n → (block b).excess = blobGasSum c block a (b - a)

/-- `parent` is the last block before Mendel, carries blobs, and lies outside the interval that
starts to matter with its child. -/
def DroppedAtMendel (parent child : Header) : Prop :=
  c.isMendel child.time = true ∧ c.isMendel parent.time = false ∧
    parent.number % blobEligibleBlockInterval ≠ 0 ∧ parent.usedBlobGas ≠ 0

/-- The sum that a counting child forms leaves the range of `uint64`, and not only to be cut to
zero by the target. -/
def Overflows (parent child : Header) : Prop :=
  countsParent c parent child.time = true ∧ 2 ^ 64 ≤ parent.excess + parent.usedBlobGas ∧
    targetBlobGas c child.time < parent.excess + parent.usedBlobGas

/-! ## What the header check leaves of a block -/

theorem unless_ok {cond : Prop} [Decidable cond] {e : Err} {rest : Except Err Unit}
    (h : (if cond then throw e >>= fun _ : PUnit => rest else rest) = .ok ()) :
    ¬ cond ∧ rest = .ok () := by
  by_cases hcond : cond
  · rw [if_pos hcond] at h
    cases h
  · rw [if_neg hcond] at h
    exact ⟨hcond, h⟩

theorem verifyEIP4844Header_ok {c : ChainConfig} {parent hd : Header}
    (h : verifyEIP4844Header c parent hd = .ok ()) :
    ∃ bcfg, c.latestBlobConfig hd.time = some bcfg ∧
      hd.excessBlobGas = some (calcExcessBlobGas c bcfg parent hd.time) ∧
      (isBlobEligibleBlock c hd.number hd.time = false → hd.usedBlobGas = 0) := by
  unfold verifyEIP4844Header at h
  cases hbcfg : c.latestBlobConfig hd.time with
  | none => simp [hbcfg, throw, throwThe, MonadExceptOf.throw] at h
  | some bcfg =>
    cases hexcess : hd.excessBlobGas with
    | none => simp [hbcfg, hexcess, throw, throwThe, MonadExceptOf.throw] at h
    | some excess =>
      cases hused : hd.blobGasUsed with
      | none => simp [hbcfg, hexcess, hused, throw, throwThe, MonadExceptOf.throw] at h
      | some used =>
        simp only [hbcfg, hexcess, hused] at h
        obtain ⟨hblobs, h⟩ := unless_ok h
        obtain ⟨-, h⟩ := unless_ok h
        obtain ⟨-, h⟩ := unless_ok h
        obtain ⟨hcomputed, -⟩ := unless_ok h
        refine ⟨bcfg, rfl, congrArg some (not_not.mp hcomputed), fun heligible => ?_⟩
        rw [Header.usedBlobGas, hused, getD_some]
        by_contra hpos
        exact hblobs ⟨by rw [heligible]; rfl, hpos⟩

namespace AcceptedCancun

variable {c : ChainConfig} {grandparent parent child : Header}

theorem used_eq_zero (h : AcceptedCancun c grandparent parent)
    (hmendel : c.isMendel parent.time = true)
    (hnumber : parent.number % blobEligibleBlockInterval ≠ 0) : parent.usedBlobGas = 0 := by
  obtain ⟨bcfg, -, -, hused⟩ := verifyEIP4844Header_ok h.verified
  exact hused (by simp [isBlobEligibleBlock, hmendel, hnumber])

theorem child_excess (hparent : AcceptedCancun c grandparent parent)
    (hchild : AcceptedCancun c parent child) :
    child.excess = if countsParent c parent child.time then
      (parent.excess + parent.usedBlobGas) % 2 ^ 64 - targetBlobGas c child.time
    else parent.excess := by
  obtain ⟨_, -, hexcess, -⟩ := verifyEIP4844Header_ok hparent.verified
  obtain ⟨bcfg, hbcfg, hchildExcess, -⟩ := verifyEIP4844Header_ok hchild.verified
  simp only [Header.excess, Header.usedBlobGas, hchildExcess, calcExcessBlobGas, countsParent,
    targetBlobGas, hbcfg, hexcess, getD_some, isSome_some, map_some, if_true]
  grind

theorem countsParent_of_used (h : AcceptedCancun c grandparent parent)
    (hdropped : ¬ DroppedAtMendel c parent child) (hused : parent.usedBlobGas ≠ 0) :
    countsParent c parent child.time = true := by
  by_contra hcounts
  simp only [countsParent, Bool.not_eq_true', Bool.and_eq_false_iff, not_or, bne_eq_false_iff_eq,
    Bool.not_eq_false] at hcounts
  by_cases hmendel : c.isMendel parent.time = true
  · exact hused (h.used_eq_zero hmendel hcounts.2)
  · exact hdropped ⟨hcounts.1, by simpa using hmendel, hcounts.2, hused⟩

theorem link_iff (hparent : AcceptedCancun c grandparent parent)
    (hchild : AcceptedCancun c parent child) :
    child.excess = addBlobGas c parent.excess parent child ↔
      ¬ DroppedAtMendel c parent child ∧ ¬ Overflows c parent child := by
  rw [hparent.child_excess hchild, addBlobGas]
  by_cases hcounts : countsParent c parent child.time = true
  · have hdropped : ¬ DroppedAtMendel c parent child := by
      rintro ⟨hmendel, -, hnumber, -⟩
      simp [countsParent, hmendel, hnumber] at hcounts
    simp only [hcounts, if_true, hdropped, not_false_iff, true_and, Overflows]
    have hmod := Nat.mod_le (parent.excess + parent.usedBlobGas) (2 ^ 64)
    by_cases hfits : parent.excess + parent.usedBlobGas < 2 ^ 64
    · simp only [Nat.mod_eq_of_lt hfits, true_iff]
      omega
    · have hlt := Nat.mod_lt (parent.excess + parent.usedBlobGas) (show 2 ^ 64 > 0 by decide)
      omega
  · have hzero : ¬ DroppedAtMendel c parent child ↔ parent.usedBlobGas = 0 := by
      constructor
      · intro hdropped
        by_contra hused
        exact hcounts (hparent.countsParent_of_used hdropped hused)
      · exact fun hused h => h.2.2.2 hused
    simp [hcounts, Overflows, hzero]

end AcceptedCancun

/-! ## Whole chains -/

theorem blobGasSum_succ (c : ChainConfig) (block : ℕ → Header) (a count : ℕ) :
    blobGasSum c block a (count + 1) =
      addBlobGas c (blobGasSum c block a count) (block (a + count)) (block (a + count + 1)) := by
  simp [blobGasSum, List.range'_1_concat]

/-- If every link adds up, every excess is the sum since any earlier block. -/
theorem excess_eq_blobGasSum {c : ChainConfig} {block : ℕ → Header} {n a : ℕ}
    (hlink : ∀ i, a ≤ i → i < n →
      (block (i + 1)).excess = addBlobGas c (block i).excess (block i) (block (i + 1)))
    (count : ℕ) (hn : a + count ≤ n) : (block (a + count)).excess = blobGasSum c block a count := by
  induction count with
  | zero => rfl
  | succ count ih =>
    rw [blobGasSum_succ, ← ih (by omega), ← hlink (a + count) (by omega) (by omega)]
    rfl

/-- Along a chain of accepted Cancun headers no blob gas is lost exactly when the last block before
Mendel either may be counted or carries no blobs, and no sum of excess and blob gas wraps. -/
theorem blobGasKept_iff (c : ChainConfig) (block : ℕ → Header) (n : ℕ)
    (hchain : AcceptedBlocks c block n) : BlobGasKept c block n ↔ ∀ i, 1 ≤ i → i < n →
      ¬ DroppedAtMendel c (block i) (block (i + 1)) ∧ ¬ Overflows c (block i) (block (i + 1)) := by
  have hparent : ∀ i, 1 ≤ i → i < n → AcceptedCancun c (block (i - 1)) (block i) := by
    intro i hi hin
    have h := hchain (i - 1) (by omega)
    rwa [Nat.sub_add_cancel hi] at h
  have hlink := fun i hi hin => (hparent i hi hin).link_iff (hchain i hin)
  constructor
  · intro hkept i hi hin
    rw [← hlink i hi hin, hkept.excess_eq i (i + 1) hi (by omega) (by omega),
      Nat.add_sub_cancel_left]
    exact blobGasSum_succ c block i 0
  · intro h
    refine ⟨fun i hi hin hused => ⟨i + 1, ?_, fun j hj => hj.2.2.1⟩, fun a b ha hab hbn => ?_⟩
    · exact ⟨by omega, by omega, rfl, (hparent i hi hin).countsParent_of_used (h i hi hin).1 hused⟩
    · obtain ⟨count, rfl⟩ := Nat.exists_eq_add_of_lt hab
      rw [show a + count + 1 - a = count + 1 by omega]
      exact excess_eq_blobGasSum
        (fun i hai hin => (hlink i (ha.trans hai) hin).mpr (h i (ha.trans hai) hin)) (count + 1) hbn

namespace Sample

/-- Cancun from the genesis block on, Mendel from time 100, three blobs aimed at and six allowed. -/
def blobConfig : ChainConfig := { (default : ChainConfig) with
  londonBlock := some 0, cancunTime := some 0, mendelTime := some 100,
  latestBlobConfig := fun _ => some ⟨3, 6⟩ }

/-- A block with `blobs` blobs on top of `excess` blob gas. -/
def blobBlock (number time blobs excess : ℕ) : Header := { (default : Header) with
  number := number, time := time, blobGasUsed := some (blobs * blobTxBlobGasPerBlob),
  excessBlobGas := some excess }

/-- The last block before the fork has a number that is no multiple of five, and six blobs. -/
def mendelAtSeven (i : ℕ) : Header :=
  blobBlock (i + 5) (if i < 2 then 97 else 100) (if i = 1 then 6 else 0) 0

/-- The fork one block earlier, right after a block that may be counted. -/
def mendelAtSix (i : ℕ) : Header :=
  blobBlock (i + 4) (if i < 2 then 97 else 100) (if i = 1 then 6 else 0)
    (if i < 2 then 0 else 3 * blobTxBlobGasPerBlob)

theorem mendelAtSix_accepted : AcceptedBlocks blobConfig mendelAtSix 3 := by
  intro i hi
  interval_cases i <;> exact ⟨by decide, by decide, by decide⟩

end Sample

theorem blobGasKept_iff_mendelAtSix : BlobGasKept Sample.blobConfig Sample.mendelAtSix 3 := by
  refine (blobGasKept_iff _ _ _ Sample.mendelAtSix_accepted).mpr fun i hi hin => ?_
  interval_cases i <;> simp [DroppedAtMendel, Overflows] <;> decide

/-- Six blobs in the last block before Mendel vanish: the fork block inherits the excess of its
parent, and no later block looks at that parent again. -/
theorem blobs_dropped_at_mendel : AcceptedBlocks Sample.blobConfig Sample.mendelAtSeven 2 ∧
    ¬ BlobGasKept Sample.blobConfig Sample.mendelAtSeven 2 := by
  constructor
  · intro i hi
    interval_cases i <;> exact ⟨by decide, by decide, by decide⟩
  · intro hkept
    have h := hkept.excess_eq 1 2 (by decide) (by decide) (by decide)
    revert h
    decide

end ChilizChain
