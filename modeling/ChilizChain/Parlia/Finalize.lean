import ChilizChain.Params.Config
import ChilizChain.Parlia.Engine
import ChilizChain.Vm.Evm

/-! Finalising a block. The engine ends every block with system transactions: calls from the
coinbase to the system contracts that initialise them, slash the validator whose turn was missed
and distribute the income of the block. A producer creates and signs them; an importing node
creates the same ones and matches them against those it received.

The world state is used through its interface only. What an execution keeps for itself (access
list, transient storage, refunds, the transaction context) is reset by the next one and is not
part of it. -/

namespace ChilizChain

/-! ## Transactions, messages and receipts -/

/-- What the sender of a transaction signs. -/
structure TxData where
  txType : ℕ
  nonce : ℕ
  toAddress : Option Address
  value : ℕ
  gas : ℕ
  gasPrice : ℕ
  data : Bytes
deriving DecidableEq

structure Tx where
  content : TxData
  signature : Bytes
deriving DecidableEq

structure Message where
  fromAddress : Address
  toAddress : Address
  value : ℕ
  gasLimit : ℕ
  gasPrice : ℕ
  data : Bytes
deriving DecidableEq

structure LogEntry where
  address : Address
  topics : List Hash
  data : Bytes
deriving DecidableEq

/-- The bloom is a function of the logs; the hash of the block is filled in when it is sealed. -/
structure Receipt where
  postState : Option Hash
  cumulativeGasUsed : ℕ
  txHash : Hash
  gasUsed : ℕ
  logs : List LogEntry
  blockNumber : ℕ
  transactionIndex : ℕ
deriving DecidableEq

/-- The calls that the engine packs for the system contracts. -/
inductive SystemCall
  | init
  | initializeFeynman
  | slash (spoiledVal : Address)
  | deposit (validator : Address)
  | tokenomicsDeposit (validator : Address) (newTotalSupply inflationPct : ℕ)
  | distributeFinalityReward (validators : List Address) (weights : List ℕ)
  | updateValidatorSetV2 (validators : List (Address × ℕ × Bytes))
deriving DecidableEq

inductive FinalizeError
  | engine (e : Err)
  | errMismatchingEpochValidators
  | errMismatchingEpochTurnLength
  | errUnknownAncestor
  | errParentNotFound
  | errHeaderIsNil (height : ℕ)
  | errInitFeynman (e : FinalizeError)
  /-- A call to a contract in the state of the parent block failed. -/
  | errContractCall
  | errSigning
  | errNoTransaction
  | errUnexpectedTransaction (expected actual : TxData)
  | errExecution (e : VmError)
  | errSystemTxsLength
  | errGasLimitExceeded
  | errUnauthorizedTransaction
  | errNormalAfterSystem (index : ℕ)
deriving DecidableEq

/-! ## Addresses and amounts -/

def validatorContract : Address := FixedBytes.ofBytes 20 [0x10, 0x00]
def slashContract : Address := FixedBytes.ofBytes 20 [0x10, 0x01]
def systemRewardContract : Address := FixedBytes.ofBytes 20 [0x10, 0x02]
def stakingPoolContract : Address := FixedBytes.ofBytes 20 [0x70, 0x01]
def governanceContract : Address := FixedBytes.ofBytes 20 [0x70, 0x02]
def chainConfigContract : Address := FixedBytes.ofBytes 20 [0x70, 0x03]
def tokenomicsContract : Address := FixedBytes.ofBytes 20 [0x70, 0x06]
def stakeHubContract : Address := FixedBytes.ofBytes 20 [0x20, 0x02]
def governorContract : Address := FixedBytes.ofBytes 20 [0x20, 0x04]
def govTokenContract : Address := FixedBytes.ofBytes 20 [0x20, 0x05]
def timelockContract : Address := FixedBytes.ofBytes 20 [0x20, 0x06]
def tokenRecoverPortalContract : Address := FixedBytes.ofBytes 20 [0x30, 0x00]

def pepper8RecipientAddress : Address := FixedBytes.ofBytes 20
  [0xe0, 0xd1, 0x7a, 0x41, 0xc1, 0xa4, 0xfe, 0x52, 0x7e, 0x37, 0x5c, 0x64, 0x4f, 0x9d, 0x2a, 0x02,
    0xe9, 0x61, 0x11, 0xed]

/-- The same account as for Pepper8. -/
def pipe8RecipientAddress : Address := FixedBytes.ofBytes 20
  [0xe0, 0xd1, 0x7a, 0x41, 0xc1, 0xa4, 0xfe, 0x52, 0x7e, 0x37, 0x5c, 0x64, 0x4f, 0x9d, 0x2a, 0x02,
    0xe9, 0x61, 0x11, 0xed]

def deterministicDeploymentProxyAddress : Address := FixedBytes.ofBytes 20
  [0x4e, 0x59, 0xb4, 0x48, 0x47, 0xb3, 0x79, 0x57, 0x85, 0x88, 0x92, 0x0c, 0xa7, 0x8f, 0xbf, 0x26,
    0xc0, 0xb4, 0x95, 0x6c]

def deterministicDeploymentProxyBytecode : Bytes :=
  0x7f :: List.replicate 31 0xff ++
    [0xe0, 0x36, 0x01, 0x60, 0x00, 0x81, 0x60, 0x20, 0x82, 0x37, 0x80, 0x35, 0x82, 0x82, 0x34, 0xf5,
      0x80, 0x15, 0x15, 0x60, 0x39, 0x57, 0x81, 0x82, 0xfd, 0x5b, 0x80, 0x82, 0x52, 0x50, 0x50,
      0x50, 0x60, 0x14, 0x60, 0x0c, 0xf3]

def pepper8MintAmount : ℕ := 148600000000000000000000000
def pipe8MintAmount : ℕ := 455700467000000000000000000

def systemRewardPercent : ℕ := 5
def maxSystemBalance : ℕ := 100 * 10 ^ 18
def finalityRewardInterval : ℕ := 200
def collectAdditionalVotesRewardRatio : ℕ := 100
def breatheBlockInterval : ℕ := 86400

def isToSystemContract (address : Address) : Bool :=
  isSystemContract address || address = pepper8RecipientAddress || address = pipe8RecipientAddress

def sameDayInUTC (first second : ℕ) : Bool :=
  first / breatheBlockInterval = second / breatheBlockInterval

def isBreatheBlock (lastBlockTime blockTime : ℕ) : Bool :=
  lastBlockTime ≠ 0 && !sameDayInUTC lastBlockTime blockTime

/-- `math.MaxUint64 / 2` units of gas at price zero. -/
def getSystemMessage (fromAddress toAddress : Address) (data : Bytes) (value : ℕ) : Message where
  fromAddress := fromAddress
  toAddress := toAddress
  value := value
  gasLimit := 2 ^ 63 - 1
  gasPrice := 0
  data := data

/-- `types.NewTransaction` for a message. -/
def expectedTx (msg : Message) (nonce : ℕ) : TxData where
  txType := 0
  nonce := nonce
  toAddress := some msg.toAddress
  value := msg.value
  gas := msg.gasLimit
  gasPrice := msg.gasPrice
  data := msg.data

/-! ## Inflation -/

/-- Per year since the fork: inflation, supply and amount per block. -/
def dragon8FixSchedule : List (ℕ × ℕ × ℕ) :=
  [(87961192355797800, 8888888888000000000000000000, 74379496319128800000),
    (72043432957447300, 9670766153000000000000000000, 66278081527102500000),
    (55304937824698300, 10516081346000000000000000000, 55326410292998500000),
    (46543801590000000, 11097672571000000000000000000, 49136973934551000000),
    (39673708820000000, 11614200441000000000000000000, 43833562214611900000),
    (39673708820000000, 12074978847000000000000000000, 39395232686453600000),
    (34295934680000000, 12489101533000000000000000000, 35751611491628600000),
    (30091911660000000, 12864922473000000000000000000, 34885308219178100000),
    (25738888349516300, 13231636833000000000000000000, 32397985455982600000),
    (23584653872848300, 13572204456000000000000000000, 30450508407284500000),
    (21906934375499800, 13892300200000000000000000000, 28951456317173600000),
    (20600325117190600, 14196637909000000000000000000, 27821095556737700000),
    (19582736803651100, 14489093265000000000000000000, 26991638121944800000),
    (18800000000000000, 14772829365000000000000000000, 26420204724736900000)]

def yearInSecs : ℕ := 31536000

/-- Inflation, supply and amount for the block; the last year repeats for ever. -/
def getNewSupplyForBlockDragon8Fix (forkTime currentTime : ℕ) : ℕ × ℕ × ℕ :=
  let year := sub64 currentTime forkTime / yearInSecs
  dragon8FixSchedule.getD (min year 13) (0, 0, 0)

/-- Amount and inflation for the block. `getInflationPct` is computed in floating point. -/
def getNewSupplyForBlock (getInflationPct : ℕ → ℕ) (forkTs currentTs lastSupply : ℕ) : ℕ × ℕ :=
  let inflationPct := getInflationPct (sub64 currentTs forkTs)
  let newIntroducedSupply := lastSupply * inflationPct / 10 ^ 18 / 100
  (newIntroducedSupply / 10512000, inflationPct)

/-! ## The engine -/

/-- The part of a header that is settled when its block is finalised; the gas used, the
commitments and the uncle hash are written afterwards. -/
structure BlockHead where
  parentHash : Hash
  coinbase : Address
  difficulty : Option ℕ
  number : ℕ
  gasLimit : ℕ
  time : ℕ
  extra : Bytes
  mixDigest : Hash
  baseFee : Option ℕ
  excessBlobGas : Option ℕ

def Header.head (h : Header) : BlockHead where
  parentHash := h.parentHash
  coinbase := h.coinbase
  difficulty := h.difficulty
  number := h.number
  gasLimit := h.gasLimit
  time := h.time
  extra := h.extra
  mixDigest := h.mixDigest
  baseFee := h.baseFee
  excessBlobGas := h.excessBlobGas

/-- The interface `vm.StateDB`, as far as it is used here. -/
structure StateOps (σ : Type) where
  getNonce : σ → Address → ℕ
  setNonce : σ → Address → ℕ → σ
  getBalance : σ → Address → ℕ
  setBalance : σ → Address → ℕ → σ
  addBalance : σ → Address → ℕ → σ
  setCode : σ → Address → Bytes → σ
  finalise : Bool → σ → σ
  intermediateRoot : Bool → σ → Hash × σ

/-- What an engine finalises blocks with. Signer hashes are compared and nothing else, so their
type is left open. -/
structure Finalizer (σ δ : Type) where
  k : Crypto
  c : ChainConfig
  /-- The forks that only finalisation asks for. -/
  forks : Params.ChainConfig
  chain : ChainStore
  db : StateOps σ
  /-- `applyMessage`: the gas used and the logs, or the error, and the state left behind. -/
  applyMessage : BlockHead → Message → σ → Except VmError (ℕ × List LogEntry) × σ
  /-- Writes the new code of the system contracts that a fork replaces. -/
  upgradeBuildInSystemContract : ℕ → ℕ → ℕ → σ → σ
  signerHash : TxData → δ
  txHash : Tx → Hash
  sender : Tx → Option Address
  pack : SystemCall → Bytes
  getInflationPct : ℕ → ℕ
  /-- The snapshot of a block, with the fork flag and the frequency data of a header. -/
  snapshot : ℕ → Hash → BlockHead → Except Err Snapshot
  epochLength : BlockHead → Except Err ℕ
  /-- Calls to contracts in the state of the parent block. -/
  getCurrentValidators : BlockHead → Except FinalizeError (List Address × (Address → BLSPublicKey))
  getTurnLength : BlockHead → Except FinalizeError UInt8
  getLastSupplyFromTokenomics : BlockHead → Except FinalizeError ℕ
  getElectedValidators : BlockHead → Except FinalizeError (List (Address × ℕ × Bytes))

/-- The account that a node signs with while it assembles a block: `val` and `signTxFn` of the
engine. -/
structure Author where
  val : Address
  signTxFn : TxData → Except FinalizeError Tx

/-- The flag `mining` of the code, together with the account: none on import. -/
abbrev Mining := Option Author

/-- What finalisation reads and writes. `systemTxs` are the received system transactions, none
when the block is being assembled. -/
structure Work (σ : Type) where
  state : σ
  txs : List Tx
  receipts : List Receipt
  systemTxs : Option (List Tx)
  usedGas : ℕ

structure Block where
  header : Header
  transactions : List Tx

abbrev FinalizeM (σ : Type) := Stateful (Work σ) FinalizeError

/-- An operation on the world state. -/
def stateStep {σ α : Type} (f : σ → α × σ) : FinalizeM σ α := do
  let w ← get
  set { w with state := (f w.state).2 }
  return (f w.state).1

def modifyState {σ : Type} (f : σ → σ) : FinalizeM σ Unit := stateStep fun s => ((), f s)

def liftErr {α : Type} (r : Except Err α) : Except FinalizeError α := r.mapError .engine

namespace Finalizer

variable {σ δ : Type} [DecidableEq δ] (p : Finalizer σ δ)

/-! ## Applying a system message -/

/-- The transaction for a message: signed by this node when it assembles the block and the message
is its own, else the next of the received ones. -/
def takeTx (msg : Message) (expected : TxData) (mining : Mining) : FinalizeM σ Tx :=
  match mining.filter (·.val = msg.fromAddress) with
  | some author => Stateful.ofExcept (author.signTxFn expected)
  | none => do
    let w ← get
    match w.systemTxs with
    | none | some [] => throw .errNoTransaction
    | some (actual :: rest) =>
      if p.signerHash actual.content ≠ p.signerHash expected then
        throw (.errUnexpectedTransaction expected actual.content)
      else do
        set { w with systemTxs := some rest }
        return actual

variable (header : BlockHead)

/-- The end of a transaction in the world state. -/
def finaliseTx (state : σ) : Option Hash × σ :=
  if p.forks.isByzantium header.number then (none, p.db.finalise true state)
  else
    let (root, state) := p.db.intermediateRoot (p.forks.isEIP158 header.number) state
    (some root, state)

variable (mining : Mining) (parent : Header) (val : Address) (msg : Message)

/-- Record a transaction that has been executed, with the state its execution left. -/
def recordTx (nonce : ℕ) (tx : Tx) (gasUsed : ℕ)
    (logs : List LogEntry) (state : σ) (w : Work σ) : Work σ :=
  let closed := p.finaliseTx header (p.db.setNonce state msg.fromAddress (add64 nonce 1))
  let usedGas := add64 w.usedGas gasUsed
  let receipt : Receipt :=
    { postState := closed.1, cumulativeGasUsed := usedGas, txHash := p.txHash tx,
      gasUsed := gasUsed, logs := logs, blockNumber := header.number,
      transactionIndex := w.txs.length }
  { w with
    state := closed.2, txs := w.txs ++ [tx], receipts := w.receipts ++ [receipt],
    usedGas := usedGas }

/-- Execute a message. A failed execution records nothing. -/
def executeTx (nonce : ℕ) (tx : Tx) : FinalizeM σ Unit := do
  let w ← get
  match p.applyMessage header msg w.state with
  | (.error e, state) => do
    set { w with state := state }
    throw (.errExecution e)
  | (.ok (gasUsed, logs), state) => set (p.recordTx header msg nonce tx gasUsed logs state w)

def applyTransaction (mining : Mining) : FinalizeM σ Unit := do
  let w ← get
  let nonce := p.db.getNonce w.state msg.fromAddress
  let tx ← p.takeTx msg (expectedTx msg nonce) mining
  p.executeTx header msg nonce tx

/-- A message of the coinbase. -/
def systemTransaction (toAddress : Address) (data : Bytes) (value : ℕ)
    (mining : Mining) : FinalizeM σ Unit :=
  p.applyTransaction header (getSystemMessage header.coinbase toAddress data value) mining

/-! ## System transactions -/

def slash (spoiledVal : Address) (header : BlockHead) (mining : Mining) : FinalizeM σ Unit :=
  p.systemTransaction header slashContract (p.pack (.slash spoiledVal)) 0 mining

/-- The same call to one contract after the other. -/
def callAll (header : BlockHead) (data : Bytes) (mining : Mining) : List Address → FinalizeM σ Unit
  | [] => pure ()
  | c :: contracts => do
    p.systemTransaction header c data 0 mining
    callAll header data mining contracts

def initContracts : List Address :=
  [validatorContract, slashContract, systemRewardContract, stakingPoolContract, governanceContract,
    chainConfigContract, runtimeUpgradeContract] ++
  (if p.forks.isDeployerProxySunsetTime header.time then [] else [deployerProxyContractAddress]) ++
  if p.forks.isDragon8 header.time || p.forks.isDragon8Fix header.time then [tokenomicsContract]
  else []

def initContract : FinalizeM σ Unit :=
  p.callAll header (p.pack .init) mining (p.initContracts header)

def feynmanContracts : List Address :=
  [stakeHubContract, governorContract, govTokenContract, timelockContract,
    tokenRecoverPortalContract]

def initializeFeynmanContract : FinalizeM σ Unit :=
  p.callAll header (p.pack .initializeFeynman) mining feynmanContracts

def distributeToSystem (amount : ℕ) (header : BlockHead) (mining : Mining) : FinalizeM σ Unit :=
  p.systemTransaction header systemRewardContract [] amount mining

def distributeToValidator (amount : ℕ) (validator : Address) (header : BlockHead)
    (mining : Mining) :
    FinalizeM σ Unit :=
  p.systemTransaction header validatorContract (p.pack (.deposit validator)) amount mining

def distributeToTokenomics (amount inflationPct : ℕ) (validator : Address) (newTotalSupply : ℕ)
    (header : BlockHead) (mining : Mining) : FinalizeM σ Unit :=
  p.systemTransaction header tokenomicsContract
    (p.pack (.tokenomicsDeposit validator newTotalSupply inflationPct)) amount mining

def distributePepper8 : FinalizeM σ Unit :=
  p.systemTransaction header pepper8RecipientAddress [] pepper8MintAmount mining

def distributePipe8Mint : FinalizeM σ Unit :=
  p.systemTransaction header pipe8RecipientAddress [] pipe8MintAmount mining

/-- An election in the state of the parent, written to the validator contract. -/
def updateValidatorSetV2 (header : BlockHead) (mining : Mining) : FinalizeM σ Unit := do
  let elected ← Stateful.ofExcept (p.getElectedValidators header)
  p.systemTransaction header validatorContract (p.pack (.updateValidatorSetV2 elected)) 0 mining

/-! ## Finality rewards -/

/-- The weights that one attestation adds: one for each voter, and for the block that carries it
the votes beyond the quorum. -/
def addVotes (head : Header) (attestation : VoteAttestation) (snap : Snapshot)
    (weights : Std.ExtTreeMap Address ℕ) : Std.ExtTreeMap Address ℕ :=
  let validators := snap.validators.keys
  if validators.length < Parlia.bitCount attestation.voteAddressSet then weights
  else
    let voters := (validators.zipIdx.filter fun entry =>
      attestation.voteAddressSet.toNat.testBit entry.2).map Prod.fst
    let weights := voters.foldl (fun ws v => ws.insert v (ws.getD v 0 + 1)) weights
    let quorum := (snap.validators.size * 2 + 2) / 3
    if quorum < voters.length then
      weights.insert head.coinbase (weights.getD head.coinbase 0 +
        (voters.length - quorum) * collectAdditionalVotesRewardRatio / 100)
    else weights

/-- The weights of the attestations in `count` ancestors of `child`. -/
def accumulateWeights : ℕ → BlockHead → Std.ExtTreeMap Address ℕ →
    Except FinalizeError (Std.ExtTreeMap Address ℕ)
  | 0, _, weights => pure weights
  | count + 1, child, weights => do
    let some head := p.chain.getHeaderByHash p.k child.parentHash
      | throw (.errHeaderIsNil (child.number - 1))
    let epochLength ← liftErr (p.epochLength head.head)
    let attestation ← liftErr (getVoteAttestationFromHeader head p.c epochLength)
    match attestation with
    | none => accumulateWeights count head.head weights
    | some attestation =>
      match p.chain.getHeaderByHash p.k attestation.data.targetHash with
      | none => accumulateWeights count head.head weights
      | some justifiedBlock =>
        if (p.chain.getHeaderByHash p.k justifiedBlock.parentHash).isNone then
          throw .errUnknownAncestor
        let snap ← liftErr
          (p.snapshot (sub64 justifiedBlock.number 1) justifiedBlock.parentHash head.head)
        accumulateWeights count head.head (addVotes head attestation snap weights)

def finalityReward : Except FinalizeError SystemCall := do
  let weights ← p.accumulateWeights (min (header.number - 1) finalityRewardInterval) header ∅
  return .distributeFinalityReward weights.keys weights.values

def distributeFinalityReward : FinalizeM σ Unit :=
  if header.number % finalityRewardInterval ≠ 0 then pure ()
  else do
    let call ← Stateful.ofExcept (p.finalityReward header)
    p.systemTransaction header validatorContract (p.pack call) 0 mining

/-! ## The income of a block -/

def isPepper8Block (currentBlockTime parentBlockTime : ℕ) : Bool :=
  !p.forks.isPepper8Time parentBlockTime && p.forks.isPepper8Time currentBlockTime

def isPipe8Block (currentBlockTime parentBlockTime : ℕ) : Bool :=
  !p.forks.isPipe8Time parentBlockTime && p.forks.isPipe8Time currentBlockTime

/-- The Pepper8 branch of `distributeIncoming`. -/
def mintPepper8 (mining : Mining) : FinalizeM σ Unit :=
  if p.isPepper8Block header.time parent.time then do
    modifyState fun s =>
      p.db.setCode s deterministicDeploymentProxyAddress deterministicDeploymentProxyBytecode
    modifyState fun s => p.db.addBalance s header.coinbase pepper8MintAmount
    p.distributePepper8 header mining
  else pure ()

/-- The Pipe8 branch. -/
def mintPipe8 (mining : Mining) : FinalizeM σ Unit :=
  if p.isPipe8Block header.time parent.time then do
    modifyState fun s => p.db.addBalance s header.coinbase pipe8MintAmount
    p.distributePipe8Mint header mining
  else pure ()

def isDragon8Block : Bool :=
  p.forks.isDragon8 header.time || p.forks.isDragon8Fix header.time

/-- Inflation, new total supply and amount of a Dragon8 block. -/
def newSupply (lastSupply : ℕ) : ℕ × ℕ × ℕ :=
  if p.forks.isDragon8Fix header.time then
    getNewSupplyForBlockDragon8Fix ((p.forks.time .dragon8Fix).getD 0) header.time
  else
    let (blockAmount, inflationPct) := getNewSupplyForBlock p.getInflationPct
      ((p.forks.time .dragon8).getD 0) header.time lastSupply
    (inflationPct, lastSupply + blockAmount, blockAmount)

/-- The inflation branch. -/
def mintInflation (header : BlockHead) (mining : Mining) : FinalizeM σ Unit :=
  if p.isDragon8Block header then do
    let lastSupply ← Stateful.ofExcept (p.getLastSupplyFromTokenomics header)
    let (inflationPct, newTotalSupply, blockAmount) := p.newSupply header lastSupply
    modifyState fun s => p.db.addBalance s header.coinbase blockAmount
    p.distributeToTokenomics blockAmount inflationPct val newTotalSupply header mining
  else pure ()

/-- Move the balance of the system address, where the fees of the block have been collected, to
the coinbase. -/
def sweepIncome (s : σ) : ℕ × σ :=
  let balance := p.db.getBalance s systemAddress
  if balance = 0 then (0, s)
  else (balance, p.db.addBalance (p.db.setBalance s systemAddress 0) header.coinbase balance)

/-- Before Dragon8 a fifth goes to the system reward contract until it is full. Returns what is
left for the validator. -/
def rewardSystem (balance : ℕ) (header : BlockHead) (mining : Mining) : FinalizeM σ ℕ := do
  let contractBalance ← stateStep fun s => (p.db.getBalance s systemRewardContract, s)
  let rewards := balance / systemRewardPercent
  if !p.isDragon8Block header ∧ contractBalance < maxSystemBalance ∧ 0 < rewards then do
    p.distributeToSystem rewards header mining
    return balance - rewards
  else return balance

/-- The fees of the block. -/
def shareIncome (header : BlockHead) (mining : Mining) : FinalizeM σ Unit := do
  let balance ← stateStep (p.sweepIncome header)
  if balance = 0 then pure ()
  else do
    let balance ← p.rewardSystem balance header mining
    p.distributeToValidator balance val header mining

def distributeIncoming (header : BlockHead) (mining : Mining) : FinalizeM σ Unit :=
  match p.chain.getHeader p.k header.parentHash (sub64 header.number 1) with
  | none => throw .errParentNotFound
  | some parent => do
    p.mintPepper8 header parent mining
    p.mintPipe8 header parent mining
    p.mintInflation val header mining
    p.shareIncome val header mining

/-! ## The checks on an epoch block -/

/-- The validators section that the contract's validators call for. -/
def validatorsBytes (number : ℕ) (newValidators : List Address)
    (voteAddressMap : Address → BLSPublicKey) : Bytes :=
  if !p.c.isLuban number then newValidators.flatMap (·.bytes)
  else newValidators.flatMap fun v =>
    v.bytes ++ (if p.c.isOnLuban number then FixedBytes.zero 48 else voteAddressMap v).bytes

def verifyValidators (header : Header) : Except FinalizeError Unit := do
  let epochLength ← liftErr (p.epochLength header.head)
  if header.number % epochLength ≠ 0 then return ()
  let (newValidators, voteAddressMap) ← p.getCurrentValidators header.head
  let newValidators := sortValidators newValidators
  if p.c.isLuban header.number ∧
      UInt8.ofNat newValidators.length ≠ header.extra.getD extraVanity 0 then
    throw .errMismatchingEpochValidators
  if getValidatorBytesFromHeader header p.c epochLength ≠
      p.validatorsBytes header.number newValidators voteAddressMap then
    throw .errMismatchingEpochValidators

def verifyTurnLength (header : Header) : Except FinalizeError Unit := do
  let epochLength ← liftErr (p.epochLength header.head)
  if header.number % epochLength ≠ 0 ∨ !p.c.isBohr header.number header.time then return ()
  let turnLengthFromHeader ← liftErr (parseTurnLength header p.c epochLength)
  let some turnLengthFromHeader := turnLengthFromHeader | throw .errMismatchingEpochTurnLength
  let turnLength ← p.getTurnLength header.head
  if turnLength ≠ turnLengthFromHeader then throw .errMismatchingEpochTurnLength

/-! ## Finalisation

`Finalize` and `FinalizeAndAssemble` go through the same three stages: upgrades and the first calls
of new contracts, the slash, the distribution. -/

def isOnFeynman : Bool :=
  !p.forks.isFeynman (header.number - 1 : ℕ) parent.time &&
    p.forks.isFeynman header.number header.time

/-- At the end of a block the contracts are upgraded only after Feynman. -/
def tryUpdateBuildInSystemContract (s : σ) : σ :=
  if p.forks.isFeynman header.number parent.time then
    p.upgradeBuildInSystemContract header.number parent.time header.time s
  else s

def initFeynman (mining : Mining) : FinalizeM σ Unit :=
  if p.isOnFeynman header parent then
    Stateful.mapError .errInitFeynman (p.initializeFeynmanContract header mining)
  else pure ()

def initFirst : FinalizeM σ Unit :=
  if header.number = 1 then p.initContract header mining else pure ()

def signedRecently (snap : Snapshot) (spoiledVal : Address) : Bool :=
  if p.c.isPlato header.number then snap.signRecently spoiledVal
  else snap.recents.values.any fun recent => recent = spoiledVal

/-- The validator to slash: the one in turn, when another one has made the block and it did not
sign recently. -/
def spoiledValidator : Except FinalizeError (Option Address) := do
  if header.difficulty = some Parlia.diffInTurn then return none
  let snap ← liftErr (p.snapshot (sub64 header.number 1) header.parentHash header)
  let spoiledVal ← liftErr (snap.inturnValidator p.k)
  return if p.signedRecently header snap spoiledVal then none else some spoiledVal

/-- An error of the slash is logged and otherwise ignored. -/
def slashSpoiled : FinalizeM σ Unit := do
  match ← Stateful.ofExcept (p.spoiledValidator header) with
  | none => pure ()
  | some spoiledVal =>
    let _ ← Stateful.attempt (p.slash spoiledVal header mining)
    pure ()

def rewardFinality : FinalizeM σ Unit :=
  if p.c.isPlato header.number then p.distributeFinalityReward header mining else pure ()

/-- Once a day, but not in the block that activates Feynman. -/
def updateValidators (mining : Mining) : FinalizeM σ Unit :=
  if p.forks.isFeynman header.number header.time && isBreatheBlock parent.time header.time &&
      !p.isOnFeynman header parent then
    p.updateValidatorSetV2 header mining
  else pure ()

/-- The first stage: upgrades and the first calls of new contracts. -/
def openBlock (mining : Mining) : FinalizeM σ Unit := do
  modifyState (p.tryUpdateBuildInSystemContract header parent)
  p.initFeynman header parent mining
  p.initFirst header mining

/-- The last stage: the distribution of what the block has earned. -/
def closeBlock (header : BlockHead) (parent : Header) (mining : Mining) : FinalizeM σ Unit := do
  p.distributeIncoming val header mining
  p.rewardFinality header mining
  p.updateValidators header parent mining

/-- Every received system transaction has been used. -/
def checkSystemTxs : FinalizeM σ Unit := do
  let w ← get
  if w.systemTxs.getD [] ≠ [] then throw .errSystemTxsLength

/-- `Finalize`: on import, with the system transactions of the block. -/
def finalize (header : Header) : FinalizeM σ Unit := do
  Stateful.ofExcept (p.verifyValidators header)
  Stateful.ofExcept (p.verifyTurnLength header)
  match p.chain.getHeaderByHash p.k header.parentHash with
  | none => throw .errUnknownAncestor
  | some parent => do
    p.openBlock header.head parent none
    p.slashSpoiled header.head none
    p.closeBlock header.coinbase header.head parent none
    checkSystemTxs

/-- The end of the assembly: the header gets what finalisation has settled. -/
def sealBody (header : Header) : FinalizeM σ Block := do
  let w ← get
  if header.gasLimit < w.usedGas then throw .errGasLimitExceeded
  let root := (p.db.intermediateRoot (p.forks.isEIP158 header.number) w.state).1
  return ⟨{ header with gasUsed := w.usedGas, uncleHash := p.k.emptyUncleHash, root := root },
    w.txs⟩

/-- `FinalizeAndAssemble`: on production. The receipts are left in the work. -/
def finalizeAndAssemble (author : Author) (header : Header) : FinalizeM σ Block :=
  match p.chain.getHeaderByHash p.k header.parentHash with
  | none => throw .errParentNotFound
  | some parent => do
    p.openBlock header.head parent (some author)
    p.slashSpoiled header.head (some author)
    p.closeBlock author.val header.head parent (some author)
    p.sealBody header

/-! ## Telling system transactions apart -/

def isSystemTransaction (tx : Tx) (header : BlockHead) : Except FinalizeError Bool :=
  match tx.content.toAddress with
  | none => .ok false
  | some address =>
    if !isToSystemContract address then .ok false
    else if tx.content.gasPrice ≠ 0 then .ok false
    else
      match p.sender tx with
      | none => .error .errUnauthorizedTransaction
      | some sender => .ok (sender = header.coinbase)

/-- How `Process` splits the transactions of a block while it runs through them. -/
def splitTxs (header : BlockHead) (commonTxs systemTxs : List Tx) :
    List Tx → Except FinalizeError (List Tx × List Tx)
  | [] => .ok (commonTxs, systemTxs)
  | tx :: txs => do
    if ← p.isSystemTransaction tx header then splitTxs header commonTxs (systemTxs ++ [tx]) txs
    else if p.forks.isCancun header.number header.time ∧ systemTxs ≠ [] then
      throw (.errNormalAfterSystem (commonTxs.length + systemTxs.length))
    else splitTxs header (commonTxs ++ [tx]) systemTxs txs

end Finalizer

end ChilizChain
