import ChilizChain.Lib.Rlp

/-! Chain configuration, block headers and the header checks that need only the parent.
Block numbers and `uint64` quantities are natural numbers; arithmetic that the code lets
wrap is written with an explicit `% 2 ^ 64`. -/

namespace ChilizChain

abbrev Address := FixedBytes 20
abbrev Hash := FixedBytes 32
abbrev BLSPublicKey := FixedBytes 48
abbrev BLSSignature := FixedBytes 96

instance : Std.TransOrd Address := inferInstance
instance : Std.TransOrd Hash := inferInstance
instance : Std.LawfulEqOrd Address := inferInstance
instance : Std.LawfulEqOrd Hash := inferInstance
instance : LawfulBEq Address := inferInstance
instance : LawfulBEq Hash := inferInstance

/-! ## Chain configuration -/

structure BlobConfig where
  target : ℕ
  max : ℕ
deriving DecidableEq

/-- The fork schedule, with the epoch length of the `Parlia` section. A missing entry means
that the fork is not scheduled. -/
structure ChainConfig where
  epoch : ℕ
  epoch_pos : 0 < epoch
  ramanujanBlock : Option ℕ
  planckBlock : Option ℕ
  lubanBlock : Option ℕ
  platoBlock : Option ℕ
  londonBlock : Option ℕ
  cancunTime : Option ℕ
  bohrTime : Option ℕ
  pragueTime : Option ℕ
  lorentzTime : Option ℕ
  maxwellTime : Option ℕ
  fermiTime : Option ℕ
  mendelTime : Option ℕ
  snake8Time : Option ℕ
  /-- The blob parameters in force at a time (`latestBlobConfig`). -/
  latestBlobConfig : ℕ → Option BlobConfig

/-- No fork scheduled, epochs of 200 blocks. -/
instance : Inhabited ChainConfig where
  default :=
    { epoch := 200, epoch_pos := by decide, ramanujanBlock := none, planckBlock := none,
      lubanBlock := none, platoBlock := none, londonBlock := none, cancunTime := none,
      bohrTime := none, pragueTime := none, lorentzTime := none, maxwellTime := none,
      fermiTime := none, mendelTime := none, snake8Time := none,
      latestBlobConfig := fun _ => none }

/-- `isBlockForked` and `isTimestampForked`. -/
def isForked (fork : Option ℕ) (head : ℕ) : Bool :=
  match fork with
  | none => false
  | some s => decide (s ≤ head)

theorem isForked_mono {fork : Option ℕ} {a b : ℕ} (hab : a ≤ b) (h : isForked fork a = true) :
    isForked fork b = true := by
  cases fork with
  | none => simp [isForked] at h
  | some s =>
    simp only [isForked, decide_eq_true_eq] at h ⊢
    omega

namespace ChainConfig

variable (c : ChainConfig)

variable (num : ℕ)

def isRamanujan : Bool := isForked c.ramanujanBlock num
def isPlanck : Bool := isForked c.planckBlock num
def isLuban : Bool := isForked c.lubanBlock num
def isOnLuban : Bool := c.lubanBlock == some num
def isPlato : Bool := isForked c.platoBlock num
def isLondon : Bool := isForked c.londonBlock num
def isCancun (num time : ℕ) : Bool := c.isLondon num && isForked c.cancunTime time
def isBohr (num time : ℕ) : Bool := c.isLondon num && isForked c.bohrTime time
def isPrague (num time : ℕ) : Bool := c.isLondon num && isForked c.pragueTime time
def isLorentz (num time : ℕ) : Bool := c.isLondon num && isForked c.lorentzTime time
def isMaxwell (num time : ℕ) : Bool := c.isLondon num && isForked c.maxwellTime time
def isFermi (num time : ℕ) : Bool := c.isLondon num && isForked c.fermiTime time
def isSnake8 (time : ℕ) : Bool := isForked c.snake8Time time

/-- Asked at the London block itself, so only the time matters once London is scheduled. -/
def isMendel (time : ℕ) : Bool := c.londonBlock.isSome && isForked c.mendelTime time

end ChainConfig

/-! ## Headers -/

/-- The header fields that the consensus code reads. `root` stands for the state, transaction
and receipt commitments, which only enter the hash. -/
structure Header where
  parentHash : Hash
  uncleHash : Hash
  coinbase : Address
  root : Hash
  difficulty : Option ℕ
  number : ℕ
  gasLimit : ℕ
  gasUsed : ℕ
  time : ℕ
  extra : Bytes
  mixDigest : Hash
  baseFee : Option ℕ
  withdrawalsHash : Option Hash
  blobGasUsed : Option ℕ
  excessBlobGas : Option ℕ
  parentBeaconRoot : Option Hash
  requestsHash : Option Hash
deriving DecidableEq, Inhabited

namespace Header

/-- Seconds of `Time` and the milliseconds kept in the low word of `MixDigest`. -/
def milliTimestamp (h : Header) : ℕ :=
  (h.time * 1000 + Bytes.beNat h.mixDigest.bytes % 2 ^ 64) % 2 ^ 64

end Header

/-! ## Errors -/

/-- The errors of header verification and snapshot retrieval, under the names the code gives
them; an error formatted on the spot is named after its text and carries the values that the
text prints. -/
inductive Err
  | errUnknownBlock
  | errFutureBlock
  | errUnknownAncestor
  | errMissingVanity
  | errMissingSignature
  | errSignature
  | errExtraValidators
  | errInvalidSpanValidators
  | errInvalidTurnLength
  | errInvalidSnake8Extra
  | errMismatchedSnake8ParentTime
  | errInvalidMixDigest
  | errMixDigestMilliseconds (mixDigest : Hash)
  | errInvalidUncleHash
  | errInvalidDifficulty
  | errWrongDifficulty
  | errOutOfRangeChain
  | errBlockHashInconsistent
  | errUnauthorizedValidator (validator : Address)
  | errCoinBaseMisMatch
  | errRecentlySigned
  | errBaseFeeBeforeFork (baseFee : ℕ)
  | errMissingBaseFee
  | errInvalidBaseFee (baseFee expected gasUsed : ℕ)
  | errExcessBlobGasBeforeFork (excessBlobGas : ℕ)
  | errBlobGasUsedBeforeFork (blobGasUsed : ℕ)
  | errWithdrawalsHashBeforeFork (withdrawalsHash : Hash)
  | errWithdrawalsHash
  | errMissingExcessBlobGas
  | errMissingBlobGasUsed
  | errBlobsNotAllowed (number : ℕ)
  | errBlobGasUsedTooLarge (blobGasUsed allowed : ℕ)
  | errBlobGasUsedNotMultiple (blobGasUsed : ℕ)
  | errInvalidExcessBlobGas (excessBlobGas expected : ℕ)
  | errInvalidParentBeaconRoot (parentBeaconRoot : Option Hash)
  | errRequestsHashBeforeFork (requestsHash : Hash)
  | errMissingRequestsHash
  | errGasLimitTooLarge (gasLimit : ℕ)
  | errGasUsed (gasUsed gasLimit : ℕ)
  | errInvalidGasLimit (gasLimit parentGasLimit limit : ℕ)
  | errInvalidValidatorsBytes
  | errNotSnake8Block (number : ℕ)
  | errMalformedSnake8Extra (number : ℕ)
  | errNoFrequencies (number : ℕ)
  | errMissingFrequencyPrefix (number : ℕ)
  | errDecodeAttestation (number : ℕ) (reason : Rlp.Error)
  | errAttestationExtra (length : ℕ)
  | errAttestationSourceNotLower
  | errJustified
  | errAttestationSource (justified : ℕ) (justifiedHash : Hash) (source : ℕ) (sourceHash : Hash)
  | errAttestationTarget (target : ℕ) (targetHash : Hash)
  | errTooManyVotes
  | errBLSPublicKey
  | errNotEnoughVotes
  | errBLSSignature
  | errVoteSignature
  /-- A run-time panic of the host language. -/
  | panicked
deriving DecidableEq

/-! ## Fee and blob checks against the parent -/

def initialBaseFeeForBSC : ℕ := 2500000000000
def elasticityMultiplier : ℕ := 2
def baseFeeChangeDenominator : ℕ := 8
def blobTxBlobGasPerBlob : ℕ := 2 ^ 17
def blobEligibleBlockInterval : ℕ := 5

variable (c : ChainConfig)

/-- The base fee a child of `parent` has to carry, floored at the initial base fee. A parent
after London carries a base fee itself; a missing one counts as zero. -/
def calcBaseFee (parent : Header) : ℕ :=
  if !c.isLondon parent.number then initialBaseFeeForBSC
  else
    let parentBaseFee := parent.baseFee.getD 0
    let parentGasTarget := parent.gasLimit / elasticityMultiplier
    if parent.gasUsed = parentGasTarget then parentBaseFee
    else if parentGasTarget < parent.gasUsed then
      let delta := (parent.gasUsed - parentGasTarget) * parentBaseFee / parentGasTarget /
        baseFeeChangeDenominator
      parentBaseFee + max delta 1
    else
      let delta := (parentGasTarget - parent.gasUsed) * parentBaseFee / parentGasTarget /
        baseFeeChangeDenominator
      max (parentBaseFee - delta) initialBaseFeeForBSC

/-- `VerifyEIP1559Header` on a network with a `Parlia` section, where the gas-limit check is
left to the engine. -/
def verifyEIP1559Header (parent header : Header) : Except Err Unit :=
  match header.baseFee with
  | none => throw .errMissingBaseFee
  | some baseFee =>
    if baseFee ≠ calcBaseFee c parent then
      throw (.errInvalidBaseFee baseFee (calcBaseFee c parent) parent.gasUsed)
    else pure ()

def isBlobEligibleBlock (number time : ℕ) : Bool :=
  !c.isMendel time || number % blobEligibleBlockInterval == 0

/-- The excess blob gas a child at `headTimestamp` has to carry. -/
def calcExcessBlobGas (bcfg : BlobConfig) (parent : Header)
    (headTimestamp : ℕ) : ℕ :=
  if c.isMendel headTimestamp ∧ parent.number % blobEligibleBlockInterval ≠ 0 then
    parent.excessBlobGas.getD 0
  else
    let parentBlobGasUsed :=
      if parent.excessBlobGas.isSome then parent.blobGasUsed.getD 0 else 0
    let excessBlobGas := (parent.excessBlobGas.getD 0 + parentBlobGasUsed) % 2 ^ 64
    excessBlobGas - bcfg.target * blobTxBlobGasPerBlob

/-- `VerifyEIP4844Header`; it panics when no blob parameters are scheduled. -/
def verifyEIP4844Header (parent header : Header) : Except Err Unit := do
  let some bcfg := c.latestBlobConfig header.time | throw .panicked
  let some excessBlobGas := header.excessBlobGas | throw .errMissingExcessBlobGas
  let some blobGasUsed := header.blobGasUsed | throw .errMissingBlobGasUsed
  if !isBlobEligibleBlock c header.number header.time ∧ blobGasUsed ≠ 0 then
    throw (.errBlobsNotAllowed header.number)
  if bcfg.max * blobTxBlobGasPerBlob < blobGasUsed then
    throw (.errBlobGasUsedTooLarge blobGasUsed (bcfg.max * blobTxBlobGasPerBlob))
  if blobGasUsed % blobTxBlobGasPerBlob ≠ 0 then
    throw (.errBlobGasUsedNotMultiple blobGasUsed)
  if excessBlobGas ≠ calcExcessBlobGas c bcfg parent header.time then
    throw (.errInvalidExcessBlobGas excessBlobGas (calcExcessBlobGas c bcfg parent header.time))

end ChilizChain
