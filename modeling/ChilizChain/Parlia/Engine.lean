import ChilizChain.Lib.Lru
import ChilizChain.Lib.Stateful
import ChilizChain.Parlia.Snapshot

/-! The Parlia engine: snapshot retrieval through the in-memory cache and the checkpoint
database, and header verification on top of it. A failing operation keeps the cache and
database changes it has made, as the code does. Snapshots are shared by reference in the code:
what `snapshot` and `apply` write into a snapshot that is already cached is written back to the
cache here. -/

namespace ChilizChain

open Bytes

/-! ## Engine state -/

def inMemorySnapshots : ℕ := 1280

/-- What an engine is configured with. -/
structure Parlia where
  k : Crypto
  c : ChainConfig
  fullImmutabilityThreshold : ℕ
  /-- Skip the difficulty check; a testing option. -/
  fakeDiff : Bool

/-- The recent snapshots in memory and the checkpoint snapshots on disk. The caches of
recovered signers and of seen proposals influence no result. -/
structure Engine where
  recentSnaps : Lru Hash Snapshot
  db : Std.ExtTreeMap Hash Snapshot

def Engine.fresh : Engine := ⟨Lru.empty inMemorySnapshots, ∅⟩

abbrev EngineM := Stateful Engine Err

/-- `recentSnaps.Get`. -/
def getRecent (hash : Hash) : EngineM (Option Snapshot) := do
  let e ← get
  let (found, recentSnaps) := e.recentSnaps.get hash
  set { e with recentSnaps := recentSnaps }
  return found

/-- `recentSnaps.Add`. -/
def addRecent (hash : Hash) (s : Snapshot) : EngineM Unit :=
  modify fun e => { e with recentSnaps := e.recentSnaps.add hash s }

/-- `store`: the database key is the snapshot's own hash. -/
def storeSnapshot (s : Snapshot) : EngineM Unit :=
  modify fun e => { e with db := e.db.insert s.hash s }

def loadSnapshot (c : ChainConfig) (hash : Hash) (isSnake8Fork : Bool) :
    EngineM (Option Snapshot) := do
  let e ← get
  return (e.db[hash]?).map (·.loaded c isSnake8Fork)

namespace Parlia

variable (p : Parlia) (chain : ChainStore)

/-! ## Parents and the Snake8 flag -/

variable (header : Header) (parents : List Header) (number : ℕ) (s : Snapshot) (hash : Hash)
  (isSnake8Fork : Bool)

/-- The parent of a header: the last of the given parents, else the stored one. -/
def getParent : Except Err Header :=
  let parent :=
    match parents.getLast? with
    | some parent => some parent
    | none => chain.getHeader p.k header.parentHash (sub64 header.number 1)
  match parent with
  | none => throw .errUnknownAncestor
  | some parent =>
    if parent.number ≠ sub64 header.number 1 ∨ p.k.hash parent ≠ header.parentHash then
      throw .errUnknownAncestor
    else pure parent

/-- Decided by the stored parent's time; by the timestamp in the header's own extra-data field
when the parent is not stored. -/
def isSnake8Enabled : Bool :=
  match chain.getHeaderByHash p.k header.parentHash with
  | some parent => p.c.isSnake8 parent.time
  | none =>
    match extractSnake8ParentTimestamp header p.c with
    | none => false
    | some ts => p.c.isSnake8 ts

def verifySnake8Extra (header parent : Header) : Except Err Unit :=
  match extractSnake8ParentTimestamp header p.c with
  | none => if p.c.isSnake8 parent.time then throw .errInvalidSnake8Extra else pure ()
  | some ts =>
    if !p.c.isSnake8 parent.time then throw .errInvalidSnake8Extra
    else if ts ≠ parent.time then throw .errMismatchedSnake8ParentTime
    else pure ()

/-- `trimParents`. -/
def trimParents : List Header := parents.dropLast

/-! ## Snapshot retrieval -/

/-- Where the walk back from a block ended: at a snapshot, which may be one that is cached
under `cachedAt`, with the headers still to be applied and the parents not consumed. -/
structure Base where
  snap : Snapshot
  cachedAt : Option Hash
  headers : List Header
  parents : List Header

/-- The trusted checkpoint the code falls back to: the genesis block, or a block at offset 200
of a Maxwell epoch when more headers than may be reorganised have been collected. Returns the
header with the validators, the hash of the snapshot's block, its block interval and its
epoch length. -/
def checkpointFor : Option (Header × Hash × ℕ × ℕ) := do
  if number = 0 then
    return (chain.genesis, p.k.hash chain.genesis, defaultBlockInterval, p.c.epoch)
  let offset := 200
  let checkpoint ← chain.getHeaderByNumber (number - offset)
  let blockHeader ← chain.getHeaderByNumber number
  let blockInterval :=
    if p.c.isFermi blockHeader.number blockHeader.time then fermiBlockInterval
    else if p.c.isMaxwell blockHeader.number blockHeader.time then maxwellBlockInterval
    else if p.c.isLorentz blockHeader.number blockHeader.time then lorentzBlockInterval
    else defaultBlockInterval
  let epochLength :=
    if offset < number then
      match chain.getHeaderByNumber (number - offset - 1) with
      | some before =>
        if p.c.isMaxwell before.number before.time then maxwellEpochLength
        else if p.c.isLorentz before.number before.time then lorentzEpochLength
        else p.c.epoch
      | none => p.c.epoch
    else p.c.epoch
  return (checkpoint, p.k.hash blockHeader, blockInterval, epochLength)

/-- A new snapshot from a trusted checkpoint header. -/
def checkpointSnapshot (checkpoint : Header)
    (blockHash : Hash) (blockInterval epochLength : ℕ) : Except Err Snapshot := do
  let (validators, voteAddrs) ← parseValidators checkpoint p.c epochLength
  let snap := Snapshot.newSnapshot p.c number blockHash validators voteAddrs isSnake8Fork
  let turnLength ← parseTurnLength checkpoint p.c epochLength
  return { snap with
    turnLength := (turnLength.map UInt8.toNat).getD snap.turnLength
    blockInterval := blockInterval
    epochLength := epochLength }

/-- The header of a block: the last explicit parent (enforced), else from the store. Returns
it with the parents that remain. -/
def gatherHeader (parents : List Header) :
    Except Err (Header × List Header) :=
  match parents.getLast? with
  | some header =>
    if p.k.hash header ≠ hash ∨ header.number ≠ number then throw .errUnknownAncestor
    else pure (header, parents.dropLast)
  | none =>
    match chain.getHeader p.k hash number with
    | some header => pure (header, [])
    | none => throw .errUnknownAncestor

/-- A snapshot from the disk; only checkpoint blocks are looked up. -/
def storedBase : EngineM (Option Snapshot) :=
  if number % checkpointInterval = 0 then loadSnapshot p.c hash isSnake8Fork else pure none

/-- A new snapshot, written to the disk, if the block is a trusted checkpoint. `collected` is the
number of headers gathered so far. -/
def trustedBase (number collected : ℕ) (isSnake8Fork : Bool) : EngineM (Option Snapshot) :=
  if number = 0 ∨
      (number % maxwellEpochLength = 200 ∧ p.fullImmutabilityThreshold < collected) then
    match p.checkpointFor chain number with
    | none => pure none
    | some (checkpoint, blockHash, blockInterval, epochLength) =>
      if blockHash = FixedBytes.zero 32 then pure none
      else do
        let snap ← Stateful.ofExcept
          (p.checkpointSnapshot number isSnake8Fork checkpoint blockHash blockInterval epochLength)
        storeSnapshot snap
        return some snap
  else pure none

/-- The snapshots the walk can stop at for one block: in memory, on disk, or a new one from a
trusted checkpoint. -/
def findBase (collected : ℕ) (isSnake8Fork : Bool) :
    EngineM (Option (Snapshot × Option Hash)) := do
  if let some snap ← getRecent hash then return some (snap, some hash)
  if let some snap ← p.storedBase number hash isSnake8Fork then return some (snap, none)
  return (← p.trustedBase chain number collected isSnake8Fork).map (·, none)

/-- The walk back from a block. Past the genesis block the code goes on with the wrapped block
number, for which no header is stored. -/
def walk (isSnake8Fork : Bool) : ℕ → Hash → List Header → List Header → EngineM Base
  | number, hash, parents, headers => do
    match ← p.findBase chain number hash headers.length isSnake8Fork with
    | some (snap, cachedAt) => return ⟨snap, cachedAt, headers, parents⟩
    | none =>
      let (header, parents) ← Stateful.ofExcept (p.gatherHeader chain number hash parents)
      match number with
      | 0 => throw .errUnknownAncestor
      | number + 1 => walk isSnake8Fork number header.parentHash parents (header :: headers)

/-- The Snake8 data that a call imposes on the snapshot it returns. -/
def imposeSnake8 (extraHeader : Option Header) (s : Snapshot) : Snapshot :=
  if isSnake8Fork then
    { s with
      frequencyRLP :=
        match extraHeader with
        | none => s.frequencyRLP
        | some header =>
          match parseValidatorFrequencies header p.c with
          | .ok freq => freq
          | .error _ => s.frequencyRLP
      turnLength := snake8TurnLength }
  else s

/-- `apply` sets the fork flag on the snapshot it starts from, which may be a cached one. -/
def touchBase (base : Base) : EngineM Unit :=
  match base.cachedAt with
  | some key => addRecent key { base.snap with isSnake8Fork := isSnake8Fork }
  | none => pure ()

/-- Cache a snapshot, and write a new one at a checkpoint block to the disk. -/
def keepSnapshot (snap : Snapshot) (isNew : Bool) : EngineM Unit := do
  addRecent snap.hash snap
  if snap.number % checkpointInterval = 0 ∧ isNew then storeSnapshot snap

/-- The snapshot of a block with its last headers applied, and whether there were any. -/
def appliedSnapshot (parents : List Header) (isSnake8Fork : Bool) :
    EngineM (Snapshot × Bool) := do
  let base ← p.walk chain isSnake8Fork number hash parents []
  touchBase isSnake8Fork base
  let snap ← Stateful.ofExcept
    (base.snap.apply p.k p.c chain base.parents base.headers isSnake8Fork)
  return (snap, base.headers ≠ [])

/-- `Parlia.snapshot`. -/
def snapshot (parents : List Header) (isSnake8Fork : Bool)
    (extraHeader : Option Header) : EngineM Snapshot := do
  let (snap, isNew) ← p.appliedSnapshot chain number hash parents isSnake8Fork
  let snap := p.imposeSnake8 isSnake8Fork extraHeader snap
  keepSnapshot snap isNew
  return snap

/-- The epoch length that applies to a header, from the snapshot of its parent. -/
def epochLength (header : Header) (parents : List Header) : EngineM ℕ := do
  if header.number = 0 then return p.c.epoch
  let snap ← p.snapshot chain (header.number - 1) header.parentHash parents
    (p.isSnake8Enabled chain header) none
  return snap.epochLength

/-! ## Vote attestations -/

def kAncestorGenerationDepth : ℕ := 3
def maxAttestationExtraLength : ℕ := 256

def getAncestorGenerationDepth : ℕ :=
  if p.c.isFermi header.number header.time then kAncestorGenerationDepth else 1

/-- Number and hash of the block that a snapshot justifies; the genesis block at first. -/
def justified : ℕ × Hash :=
  match s.attestation with
  | none => (0, p.k.hash chain.genesis)
  | some data => (data.targetNumber.toNat, data.targetHash)

/-- `GetJustifiedNumberAndHash` for the branch that ends in `head`. -/
def getJustifiedNumberAndHash (head : Header) (headers : List Header) : EngineM (ℕ × Hash) := do
  let snap ← p.snapshot chain head.number (p.k.hash head) headers (p.isSnake8Enabled chain head)
    (some head)
  return p.justified chain snap

/-- Look for the target among the nearest ancestors. Returns it with the parents below it. -/
def findTarget (targetNumber : ℕ) (targetHash : Hash) :
    ℕ → Header → List Header → Except Err (Option (Header × List Header))
  | 0, _, _ => pure none
  | depth + 1, ancestor, ancestorParents => do
    if targetNumber = ancestor.number ∧ targetHash = p.k.hash ancestor then
      return some (ancestor, ancestorParents)
    let parent ← p.getParent chain ancestor ancestorParents
    findTarget targetNumber targetHash depth parent (trimParents ancestorParents)

/-- The vote keys that the bit set selects, in the order of the validators. -/
def votedAddrs (voteAddressSet : UInt64) (s : Snapshot) : List BLSPublicKey :=
  (s.validators.toList.zipIdx.filter fun entry => voteAddressSet.toNat.testBit entry.2).map
    fun entry => entry.1.2.voteAddress

def bitCount (bits : UInt64) : ℕ := ((List.range 64).filter bits.toNat.testBit).length

/-- Quorum and signature of an attestation against the validators of a snapshot. -/
def checkVotes (attestation : VoteAttestation) (s : Snapshot) : Except Err Unit := do
  if s.validators.size < bitCount attestation.voteAddressSet then throw .errTooManyVotes
  let voted := votedAddrs attestation.voteAddressSet s
  if voted.any fun key => !p.k.validBLSKey key then throw .errBLSPublicKey
  if voted.length < (s.validators.size * 2 + 2) / 3 then throw .errNotEnoughVotes
  if !p.k.validBLSSignature attestation.aggSignature then throw .errBLSSignature
  if !p.k.fastAggregateVerify attestation.aggSignature voted (p.k.voteHash attestation.data) then
    throw .errVoteSignature

/-- The checks on an attestation that need no snapshot. -/
def checkAttestation (attestation : VoteAttestation) : Except Err Unit := do
  if maxAttestationExtraLength < attestation.extra.length then
    throw (.errAttestationExtra attestation.extra.length)
  if attestation.data.targetNumber ≤ attestation.data.sourceNumber then
    throw .errAttestationSourceNotLower

def verifyVoteAttestation : EngineM Unit := do
  let epochLength ← p.epochLength chain header parents
  match ← Stateful.ofExcept (getVoteAttestationFromHeader header p.c epochLength) with
  | none => return
  | some attestation =>
    let data := attestation.data
    Stateful.ofExcept (checkAttestation attestation)
    let parent ← Stateful.ofExcept (p.getParent chain header parents)
    let headers := if parents = [] then [parent] else parents
    let (justifiedNumber, justifiedHash) ← Stateful.mapError (fun _ => .errJustified)
      (p.getJustifiedNumberAndHash chain parent headers)
    if data.sourceNumber.toNat ≠ justifiedNumber ∨ data.sourceHash ≠ justifiedHash then
      throw (.errAttestationSource justifiedNumber justifiedHash data.sourceNumber.toNat
        data.sourceHash)
    match ← Stateful.ofExcept (p.findTarget chain data.targetNumber.toNat data.targetHash
        (p.getAncestorGenerationDepth header) parent (trimParents parents)) with
    | none => throw (.errAttestationTarget data.targetNumber.toNat data.targetHash)
    | some (ancestor, ancestorParents) =>
      let snap ← p.snapshot chain (ancestor.number - 1) ancestor.parentHash ancestorParents
        (p.isSnake8Enabled chain ancestor) (some ancestor)
      Stateful.ofExcept (p.checkVotes attestation snap)

/-! ## Block times -/

def wiggleTime : ℕ := 1000
def defaultInitialBackOffTime : ℕ := 1000
def lorentzInitialBackOffTime : ℕ := 2000

/-- The validators that share out the back-off slots of a header. -/
def backOffValidators (header : Header) (inTurnAddr : Address) : List Address :=
  if p.c.isPlanck header.number then
    s.validatorList.filter fun addr => !s.signRecently addr &&
      !(p.c.isBohr header.number header.time && addr == inTurnAddr)
  else s.validatorList

def backOffTime (parent header : Header) (val : Address) : Except Err ℕ := do
  let inTurnAddr ← s.inturnValidator p.k
  if inTurnAddr = val then return 0
  let isParentLorentz := p.c.isLorentz parent.number parent.time
  let delay := if isParentLorentz then lorentzInitialBackOffTime else defaultInitialBackOffTime
  if p.c.isPlanck header.number ∧ s.signRecently val then return 0
  let delay := if p.c.isPlanck header.number ∧ s.signRecently inTurnAddr then 0 else delay
  let validators := p.backOffValidators s header inTurnAddr
  if val ∉ validators then return 0
  -- the seed of the shuffle divides by the turn length
  if p.c.isBohr header.number header.time ∧ s.turnLength = 0 then throw .panicked
  let randSeed :=
    if p.c.isBohr header.number header.time then header.number / s.turnLength else s.number
  let backOffStep := (p.k.shuffle randSeed validators.length).getD (validators.idxOf val) 0
  if delay = 0 ∧ isParentLorentz then
    return if backOffStep = 0 then 0 else lorentzInitialBackOffTime + (backOffStep - 1) * wiggleTime
  return delay + backOffStep * wiggleTime

def blockTimeVerifyForRamanujanFork (header parent : Header) :
    Except Err Unit := do
  if p.c.isRamanujan header.number then
    let backOff ← p.backOffTime s parent header header.coinbase
    if header.milliTimestamp < (parent.milliTimestamp + s.blockInterval + backOff) % 2 ^ 64 then
      throw .errFutureBlock

/-! ## Header verification -/

def diffInTurn : ℕ := 2
def diffNoTurn : ℕ := 1
def gasLimitBoundDivisorBeforeLorentz : ℕ := 256
def gasLimitBoundDivisor : ℕ := 1024
def minGasLimit : ℕ := 5000

/-- Distance of two `uint64` values through a signed 64-bit difference. -/
def absDiff64 (a b : ℕ) : ℕ :=
  let diff := sub64 a b
  if 2 ^ 63 ≤ diff then 2 ^ 64 - diff else diff

def verifyGasLimit (header parent : Header) : Except Err Unit := do
  if 2 ^ 63 - 1 < header.gasLimit then throw (.errGasLimitTooLarge header.gasLimit)
  if header.gasLimit < header.gasUsed then throw (.errGasUsed header.gasUsed header.gasLimit)
  let divisor :=
    if p.c.isLorentz header.number header.time then gasLimitBoundDivisor
    else gasLimitBoundDivisorBeforeLorentz
  let limit := parent.gasLimit / divisor
  if limit ≤ absDiff64 parent.gasLimit header.gasLimit ∨ header.gasLimit < minGasLimit then
    throw (.errInvalidGasLimit header.gasLimit parent.gasLimit (sub64 limit 1))

/-- The decision of `verifySeal` once the snapshot is known. -/
def checkSeal : Except Err Unit := do
  let signer ← ecrecover p.k header
  if signer ≠ header.coinbase then throw .errCoinBaseMisMatch
  if signer ∉ s.validators then throw (.errUnauthorizedValidator signer)
  if s.signRecently signer then throw .errRecentlySigned
  if !p.fakeDiff then
    let inTurnAddr ← s.inturnValidator p.k
    if inTurnAddr = signer ∧ header.difficulty ≠ some diffInTurn then throw .errWrongDifficulty
    if inTurnAddr ≠ signer ∧ header.difficulty ≠ some diffNoTurn then throw .errWrongDifficulty

def verifySeal : EngineM Unit := do
  if header.number = 0 then throw .errUnknownBlock
  let snap ← p.snapshot chain (header.number - 1) header.parentHash parents
    (p.isSnake8Enabled chain header) (some header)
  Stateful.ofExcept (p.checkSeal header snap)

/-- Before Plato a bad attestation is only logged. -/
def checkAttestationOutcome (outcome : Except Err Unit) : Except Err Unit :=
  if p.c.isPlato header.number then outcome else pure ()

def verifyCascadingFields : EngineM Unit := do
  -- the genesis block is the always valid dead-end
  if header.number = 0 then return
  let parent ← Stateful.ofExcept (p.getParent chain header parents)
  Stateful.ofExcept (p.verifySnake8Extra header parent)
  let snap ← p.snapshot chain (header.number - 1) header.parentHash parents
    (p.isSnake8Enabled chain header) (some header)
  Stateful.ofExcept (p.blockTimeVerifyForRamanujanFork snap header parent)
  Stateful.ofExcept (p.verifyGasLimit header parent)
  let outcome ← Stateful.attempt (p.verifyVoteAttestation chain header parents)
  Stateful.ofExcept (p.checkAttestationOutcome header outcome)
  p.verifySeal chain header parents

/-- Checks of `verifyHeader` before the first snapshot lookup. -/
def verifyStandalone (now : ℕ) (header : Header) : Except Err Unit := do
  if now + 1 < header.time then throw .errFutureBlock
  if header.extra.length < extraVanity then throw .errMissingVanity
  if header.extra.length < extraVanity + extraSeal then throw .errMissingSignature

/-- A signer list belongs on epoch blocks and nowhere else. -/
def verifySignersBytes (epochLength : ℕ) : Except Err Unit := do
  let signersBytes := getValidatorBytesFromHeader header p.c epochLength
  let isEpoch := header.number % epochLength = 0
  if ¬isEpoch ∧ signersBytes ≠ [] ∧ !validatorFrequencyDataPrefix.isPrefixOf signersBytes then
    throw .errExtraValidators
  if isEpoch ∧ signersBytes = [] then throw .errInvalidSpanValidators

/-- The fixed-value fields. -/
def verifyFixedFields : Except Err Unit := do
  if !p.c.isLorentz header.number header.time then
    if header.mixDigest ≠ FixedBytes.zero 32 then throw .errInvalidMixDigest
  else if header.milliTimestamp / 1000 ≠ header.time then
    throw (.errMixDigestMilliseconds header.mixDigest)
  if header.uncleHash ≠ p.k.emptyUncleHash then throw .errInvalidUncleHash
  if 0 < header.number ∧ header.difficulty = none then throw .errInvalidDifficulty

/-- The fields introduced by later forks, against the parent where they depend on it. -/
def verifyForkFields (header parent : Header) : Except Err Unit := do
  if !p.c.isLondon header.number then
    if let some baseFee := header.baseFee then throw (.errBaseFeeBeforeFork baseFee)
  else verifyEIP1559Header p.c parent header
  if !p.c.isCancun header.number header.time then
    if let some excessBlobGas := header.excessBlobGas then
      throw (.errExcessBlobGasBeforeFork excessBlobGas)
    if let some blobGasUsed := header.blobGasUsed then
      throw (.errBlobGasUsedBeforeFork blobGasUsed)
    if let some withdrawalsHash := header.withdrawalsHash then
      throw (.errWithdrawalsHashBeforeFork withdrawalsHash)
  else
    if header.withdrawalsHash ≠ some p.k.emptyWithdrawalsHash then throw .errWithdrawalsHash
    verifyEIP4844Header p.c parent header
  if !p.c.isPrague header.number header.time then
    if header.parentBeaconRoot ≠ none then
      throw (.errInvalidParentBeaconRoot header.parentBeaconRoot)
    if let some requestsHash := header.requestsHash then
      throw (.errRequestsHashBeforeFork requestsHash)
  else
    if header.parentBeaconRoot ≠ some (FixedBytes.zero 32) then
      throw (.errInvalidParentBeaconRoot header.parentBeaconRoot)
    if header.requestsHash = none then throw .errMissingRequestsHash

/-- `verifyHeader` at clock time `now` (in seconds). -/
def verifyHeader (now : ℕ) (header : Header) (parents : List Header) : EngineM Unit := do
  Stateful.ofExcept (verifyStandalone now header)
  let epochLength ← p.epochLength chain header parents
  Stateful.ofExcept (p.verifySignersBytes header epochLength)
  Stateful.ofExcept (p.verifyFixedFields header)
  let parent ← Stateful.ofExcept (p.getParent chain header parents)
  Stateful.ofExcept (p.verifyForkFields header parent)
  p.verifyCascadingFields chain header parents

end Parlia

end ChilizChain
