import ChilizChain.Parlia.Finalize

/-! # The transition of a message

`execute` checks a message, sells it gas, runs it and settles the account. Gas is counted in
`uint64` and money in `uint256`; overflow flags are dropped in several places. The model keeps the
results of the wrapping operations and, next to them, a note whether any of them has wrapped.

The EVM is a parameter: it takes the state and an amount of gas and returns what it left of both.
What only the EVM reads (access list, transient storage) is not part of the state here. -/

namespace ChilizChain.Transition

open Stateful

/-! ## Messages and states -/

structure SetCodeAuthorization where
  chainID : ℕ
  address : Address
  nonce : UInt64
  v : UInt8
  r : ℕ
  s : ℕ

structure Message where
  toAddress : Option Address
  fromAddress : Address
  nonce : UInt64
  value : ℕ
  gasLimit : UInt64
  gasPrice : ℕ
  gasFeeCap : ℕ
  gasTipCap : ℕ
  data : Bytes
  accessList : List (Address × List Hash)
  blobGasFeeCap : ℕ
  blobHashes : Option (List Hash)
  setCodeAuthorizations : Option (List SetCodeAuthorization)
  skipNonceChecks : Bool
  skipTransactionChecks : Bool

/-- The accounts of the state and the refund counter of the message. -/
structure World where
  balance : Address → ℕ
  nonce : Address → ℕ
  code : Address → Bytes
  exist : Address → Bool
  refund : ℕ

/-- The block and the rules a message runs under. -/
structure Env where
  chainID : ℕ
  coinbase : Address
  baseFee : ℕ
  blobBaseFee : ℕ
  noBaseFee : Bool
  isInBSC : Bool
  /-- There is a random value and the London rules hold; never so on this chain. -/
  isMerge : Bool
  isHomestead : Bool
  isIstanbul : Bool
  isLondon : Bool
  isShanghai : Bool
  isCancun : Bool
  isPrague : Bool
  isOsaka : Bool
  isNano : Bool
  /-- Who signed an authorization. -/
  authority : SetCodeAuthorization → Option Address

/-- A fork as `Rules` reports it. -/
def Env.rule (env : Env) (fork : Bool) : Bool := (env.isMerge || env.isInBSC) && fork

structure RunResult where
  ret : Bytes
  gas : ℕ
  failed : Bool
  world : World

structure Evm where
  create : Address → Bytes → ℕ → ℕ → World → RunResult
  call : Address → Address → Bytes → ℕ → ℕ → World → RunResult

inductive TransitionError
  | nonceTooHigh (tx state : ℕ)
  | nonceTooLow (tx state : ℕ)
  | nonceMax (nonce : ℕ)
  | gasLimitTooHigh (cap tx : ℕ)
  | senderNoEOA (length : ℕ)
  | feeCapVeryHigh
  | tipVeryHigh
  | tipAboveFeeCap (tip feeCap : ℕ)
  | feeCapTooLow (feeCap baseFee : ℕ)
  | blobTxCreate
  | missingBlobHashes
  | tooManyBlobs
  | blobHashVersion (index : ℕ)
  | blobFeeCapTooLow (feeCap baseFee : ℕ)
  | setCodeTxCreate
  | emptyAuthList
  | requiredBalanceTooHigh
  | insufficientFunds (owned want : ℕ)
  | gasLimitReached
  | blacklisted
  | gasUintOverflow
  | intrinsicGasTooHigh (owned want : ℕ)
  | floorDataGasTooHigh (owned want : ℕ)
  | insufficientFundsForTransfer
  | maxInitCodeSizeExceeded (size limit : ℕ)
  | panic (text : String)

/-- A `stateTransition`. The last two fields are notes: whether a fixed-width operation has
wrapped, and the run of the EVM, with the state it got, the state it left and the gas it left. -/
structure St where
  gp : ℕ
  gasRemaining : ℕ
  initialGas : ℕ
  world : World
  wrapped : Bool
  ran : Option (World × RunResult)

abbrev TransitionM := Stateful St TransitionError

structure ExecutionResult where
  usedGas : ℕ
  maxUsedGas : ℕ
  failed : Bool
  returnData : Bytes

/-! ## Fixed-width arithmetic -/

def noteWrap (wraps : Bool) : TransitionM Unit :=
  modify fun s => { s with wrapped := s.wrapped || wraps }

def add64 (a b : ℕ) : TransitionM ℕ := do
  noteWrap (2 ^ 64 ≤ a + b)
  return (a + b) % 2 ^ 64

def sub64 (a b : ℕ) : TransitionM ℕ := do
  noteWrap (a < b)
  return (a + (2 ^ 64 - b)) % 2 ^ 64

def mul256 (a b : ℕ) : TransitionM ℕ := do
  noteWrap (2 ^ 256 ≤ a * b)
  return a * b % 2 ^ 256

/-- `uint256.FromBig` with its overflow flag dropped. -/
def fromBig (a : ℕ) : TransitionM ℕ := do
  noteWrap (2 ^ 256 ≤ a)
  return a % 2 ^ 256

/-! ## The state -/

namespace World

variable (w : World) (address : Address)

def setBalance (amount : ℕ) : World :=
  { w with
    balance := Function.update w.balance address amount
    exist := Function.update w.exist address true }

def setNonce (nonce : ℕ) : World :=
  { w with
    nonce := Function.update w.nonce address nonce
    exist := Function.update w.exist address true }

def setCode (code : Bytes) : World :=
  { w with
    code := Function.update w.code address code
    exist := Function.update w.exist address true }

def addRefund (gas : ℕ) : World := { w with refund := (w.refund + gas) % 2 ^ 64 }

end World

def addBalance (address : Address) (amount : ℕ) : TransitionM Unit := do
  let s ← get
  noteWrap (2 ^ 256 ≤ s.world.balance address + amount)
  modify fun s =>
    { s with world := s.world.setBalance address ((s.world.balance address + amount) % 2 ^ 256) }

def subBalance (address : Address) (amount : ℕ) : TransitionM Unit := do
  let s ← get
  noteWrap (s.world.balance address < amount)
  modify fun s =>
    { s with
      world := s.world.setBalance address
        ((s.world.balance address + (2 ^ 256 - amount)) % 2 ^ 256) }

/-! ## Gas of the data -/

def maxUint64 : ℕ := 2 ^ 64 - 1

def toWordSize (size : ℕ) : ℕ :=
  if maxUint64 - 31 < size then maxUint64 / 32 + 1 else (size + 31) / 32

/-- `gas + n * price` where that is below the largest `uint64`. -/
def addCost (gas n price : ℕ) : Except TransitionError ℕ :=
  if (maxUint64 - gas) / price < n then .error .gasUintOverflow else .ok (gas + n * price)

def intrinsicGas (msg : Message) (isHomestead isEIP2028 isEIP3860 : Bool) :
    Except TransitionError ℕ := do
  let creation := msg.toAddress.isNone
  let base := if creation && isHomestead then 53000 else 21000
  let z := msg.data.count 0
  let nz := msg.data.length - z
  let gas ←
    if msg.data.length = 0 then pure base
    else do
      let gas ← addCost base nz (if isEIP2028 then 16 else 68)
      let gas ← addCost gas z 4
      if creation && isEIP3860 then addCost gas (toWordSize msg.data.length) 2
      else pure gas
  let keys := (msg.accessList.map fun entry => entry.2.length).sum
  let auths := (msg.setCodeAuthorizations.getD []).length
  return (gas + msg.accessList.length * 2400 + keys * 1900 + auths * 25000) % 2 ^ 64

def floorDataGas (data : Bytes) : Except TransitionError ℕ :=
  let z := data.count 0
  let nz := data.length - z
  let tokens := (nz * 4 + z) % 2 ^ 64
  if (maxUint64 - 21000) / 10 < tokens then .error .gasUintOverflow
  else .ok (21000 + tokens * 10)

/-! ## Checks -/

def nanoBlackList : List Address :=
  [FixedBytes.ofBytes 20 [0x48, 0x9A, 0x87, 0x56, 0xC1, 0x8C, 0x0b, 0x8B, 0x24, 0xEC, 0x2a, 0x2b,
      0x9F, 0xF3, 0xD4, 0xd4, 0x47, 0xF7, 0x9B, 0xEc],
    FixedBytes.ofBytes 20 [0xFd, 0x60, 0x42, 0xDf, 0x3D, 0x74, 0xce, 0x99, 0x59, 0x92, 0x2F, 0xeC,
      0x55, 0x9d, 0x79, 0x95, 0xF3, 0x93, 0x3c, 0x55],
    FixedBytes.ofBytes 20 [0xdb, 0x78, 0x9E, 0xb5, 0xBD, 0xb4, 0xE5, 0x59, 0xbe, 0xD1, 0x99, 0xB8,
      0xb8, 0x2d, 0xED, 0x94, 0xe1, 0xd0, 0x56, 0xC9]]

variable (env : Env) (evm : Evm) (msg : Message)

def blobGasUsed : ℕ := (msg.blobHashes.getD []).length * 2 ^ 17 % 2 ^ 64

/-- `ensure condition error` as the checks return their errors. -/
def ensure (ok : Bool) (e : TransitionError) : Except TransitionError Unit :=
  if ok then .ok () else .error e

variable (w : World)

def checkNonce : Except TransitionError Unit := do
  if msg.skipNonceChecks then return
  let stNonce := w.nonce msg.fromAddress
  let msgNonce := msg.nonce.toNat
  ensure (msgNonce ≤ stNonce) (.nonceTooHigh msgNonce stNonce)
  ensure (stNonce ≤ msgNonce) (.nonceTooLow msgNonce stNonce)
  ensure (stNonce ≤ (stNonce + 1) % 2 ^ 64) (.nonceMax stNonce)

def checkSender : Except TransitionError Unit := do
  if msg.skipTransactionChecks then return
  ensure (!(env.isOsaka && 2 ^ 24 < msg.gasLimit.toNat))
    (.gasLimitTooHigh (2 ^ 24) msg.gasLimit.toNat)
  let code := w.code msg.fromAddress
  ensure (code.length = 0 || (parseDelegation code).isSome) (.senderNoEOA code.length)

/-- Messages of the block producer that need not pay the base fee. -/
def isFree : Bool :=
  msg.toAddress.any (fun address => isSystemContract address ||
    address = pepper8RecipientAddress || address = pipe8RecipientAddress) &&
    msg.fromAddress = env.coinbase && msg.gasPrice = 0

def checkFees : Except TransitionError Unit := do
  if !env.isLondon then return
  if env.noBaseFee && msg.gasFeeCap = 0 && msg.gasTipCap = 0 then return
  ensure (msg.gasFeeCap < 2 ^ 256) .feeCapVeryHigh
  ensure (msg.gasTipCap < 2 ^ 256) .tipVeryHigh
  ensure (msg.gasTipCap ≤ msg.gasFeeCap) (.tipAboveFeeCap msg.gasTipCap msg.gasFeeCap)
  ensure (isFree env msg || env.baseFee ≤ msg.gasFeeCap) (.feeCapTooLow msg.gasFeeCap env.baseFee)

def checkBlobs : Except TransitionError Unit := do
  match msg.blobHashes with
  | none => return
  | some hashes =>
    ensure msg.toAddress.isSome .blobTxCreate
    ensure (hashes.length ≠ 0) .missingBlobHashes
    ensure (!(env.isOsaka && 6 < hashes.length)) .tooManyBlobs
    match hashes.findIdx? (fun hash => hash.bytes.head? ≠ some 0x01) with
    | some i => throw (.blobHashVersion i)
    | none => return

def checkBlobFee : Except TransitionError Unit := do
  if !env.isCancun || blobGasUsed msg = 0 then return
  if env.noBaseFee && msg.blobGasFeeCap = 0 then return
  ensure (env.blobBaseFee ≤ msg.blobGasFeeCap) (.blobFeeCapTooLow msg.blobGasFeeCap env.blobBaseFee)

def checkAuthorizations : Except TransitionError Unit := do
  match msg.setCodeAuthorizations with
  | none => return
  | some auths =>
    ensure msg.toAddress.isSome .setCodeTxCreate
    ensure (auths.length ≠ 0) .emptyAuthList

def checkMessage : Except TransitionError Unit := do
  checkNonce msg w
  checkSender env msg w
  checkFees env msg
  checkBlobs env msg
  checkBlobFee env msg
  checkAuthorizations msg

/-! ## Buying gas -/

/-- What the blobs cost at the fee of the block, and at the fee the sender is ready to pay. -/
def blobFee (price : ℕ) : ℕ := if env.isCancun then blobGasUsed msg * price else 0

/-- The price of the gas: `mgval`. -/
def gasCost : ℕ := msg.gasLimit.toNat * msg.gasPrice + blobFee env msg env.blobBaseFee

/-- What the sender must have: `balanceCheck`. -/
def requiredBalance : ℕ :=
  msg.gasLimit.toNat * msg.gasFeeCap + msg.value + blobFee env msg msg.blobGasFeeCap

def subGas (amount : ℕ) : TransitionM Unit := do
  let s ← get
  if s.gp < amount then throw .gasLimitReached
  else modify fun s => { s with gp := s.gp - amount }

def addGas (amount : ℕ) : TransitionM Unit := do
  let s ← get
  if maxUint64 - amount < s.gp then throw (.panic "gas pool pushed above uint64")
  else modify fun s => { s with gp := s.gp + amount }

def checkBalance : Except TransitionError Unit := do
  let want := requiredBalance env msg
  ensure (want < 2 ^ 256) .requiredBalanceTooHigh
  ensure (want ≤ w.balance msg.fromAddress) (.insufficientFunds (w.balance msg.fromAddress) want)

def buyGas : TransitionM Unit := do
  Stateful.ofExcept (checkBalance env msg (← get).world)
  subGas msg.gasLimit.toNat
  modify fun s =>
    { s with gasRemaining := msg.gasLimit.toNat, initialGas := msg.gasLimit.toNat }
  let mgval ← fromBig (gasCost env msg)
  subBalance msg.fromAddress mgval

def preCheck : TransitionM Unit := do
  Stateful.ofExcept (checkMessage env msg (← get).world)
  buyGas env msg

/-! ## Running -/

def checkBlackList : Except TransitionError Unit :=
  ensure (!(env.isNano && nanoBlackList.any fun address =>
    address = msg.fromAddress || msg.toAddress = some address)) .blacklisted

/-- The data floor, which is zero before Prague. -/
def floorOf : Except TransitionError ℕ := do
  if !env.rule env.isPrague then return 0
  let floor ← floorDataGas msg.data
  ensure (floor ≤ msg.gasLimit.toNat) (.floorDataGasTooHigh msg.gasLimit.toNat floor)
  return floor

def checkTransfer : Except TransitionError Unit := do
  ensure (msg.value < 2 ^ 256) .insufficientFundsForTransfer
  ensure (msg.value = 0 || msg.value ≤ w.balance msg.fromAddress) .insufficientFundsForTransfer
  ensure (!(env.rule env.isShanghai && msg.toAddress.isNone && 2 * 24576 < msg.data.length))
    (.maxInitCodeSizeExceeded msg.data.length (2 * 24576))

def validateAuthorization (auth : SetCodeAuthorization) (w : World) : Option Address := do
  if auth.chainID ≠ 0 ∧ auth.chainID ≠ env.chainID then failure
  if auth.nonce.toNat = maxUint64 then failure
  let authority ← env.authority auth
  if authority ∈ nanoBlackList then failure
  let code := w.code authority
  if code.length ≠ 0 ∧ (parseDelegation code).isNone then failure
  if w.nonce authority ≠ auth.nonce.toNat then failure
  return authority

/-- `applyAuthorization`; an authorization that is not valid is skipped. -/
def applyAuthorization (auth : SetCodeAuthorization) : World :=
  match validateAuthorization env auth w with
  | none => w
  | some authority =>
    let w := if w.exist authority then w.addRefund (25000 - 12500) else w
    let w := w.setNonce authority (auth.nonce.toNat + 1)
    if auth.address = FixedBytes.zero 20 then w.setCode authority []
    else w.setCode authority ([0xef, 0x01, 0x00] ++ auth.address.bytes)

/-- The state in which the call of a message starts. -/
def callWorld : World :=
  (msg.setCodeAuthorizations.getD []).foldl (applyAuthorization env)
    (w.setNonce msg.fromAddress ((w.nonce msg.fromAddress + 1) % 2 ^ 64))

def runMessage : TransitionM RunResult := do
  let s ← get
  let (start, result) :=
    match msg.toAddress with
    | none => (s.world, evm.create msg.fromAddress msg.data s.gasRemaining msg.value s.world)
    | some toAddress =>
      let w := callWorld env msg s.world
      (w, evm.call msg.fromAddress toAddress msg.data s.gasRemaining msg.value w)
  modify fun s => { s with
    gasRemaining := result.gas, world := result.world, ran := some (start, result) }
  return result

/-! ## Settling -/

def gasUsed : TransitionM ℕ := do
  let s ← get
  sub64 s.initialGas s.gasRemaining

def calcRefund : TransitionM ℕ := do
  let used ← gasUsed
  let s ← get
  return min (used / if env.isLondon then 5 else 2) s.world.refund

def returnGas : TransitionM Unit := do
  let s ← get
  if 2 ^ 256 ≤ msg.gasPrice then throw (.panic "overflow")
  let remaining ← mul256 s.gasRemaining msg.gasPrice
  addBalance msg.fromAddress remaining
  addGas s.gasRemaining

/-- The part of the price above the base fee, not below zero. -/
def effectiveTip : ℕ := if env.isLondon then msg.gasPrice - env.baseFee else msg.gasPrice

/-- The floor of the data cost, and the peak that follows it. -/
def applyFloor (floor peakGasUsed : ℕ) : TransitionM ℕ := do
  if !env.rule env.isPrague then return peakGasUsed
  let used ← gasUsed
  if used < floor then
    let s ← get
    let rest ← sub64 s.initialGas floor
    modify fun s => { s with gasRemaining := rest }
  return max peakGasUsed floor

/-- The fees go to the system address, from where the engine distributes them. -/
def payFees : TransitionM Unit := do
  let tip ← fromBig (effectiveTip env msg)
  let used ← gasUsed
  let fee ← mul256 used tip
  if env.isInBSC then
    addBalance systemAddress fee
    if env.rule env.isCancun then
      let blobFee ← fromBig (blobGasUsed msg * env.blobBaseFee)
      addBalance systemAddress blobFee
  else addBalance env.coinbase fee

def settle (floor : ℕ) (result : RunResult) : TransitionM ExecutionResult := do
  let peakGasUsed ← gasUsed
  let refund ← calcRefund env
  let gasRemaining ← add64 (← get).gasRemaining refund
  modify fun s => { s with gasRemaining := gasRemaining }
  let maxUsedGas ← applyFloor env floor peakGasUsed
  returnGas msg
  payFees env msg
  let usedGas ← gasUsed
  return ⟨usedGas, maxUsedGas, result.failed, result.ret⟩

/-- The checks between the purchase of the gas and the run; returns the data floor. -/
def admitMessage : TransitionM ℕ := do
  Stateful.ofExcept (checkBlackList env msg)
  let gas ← Stateful.ofExcept
    (intrinsicGas msg env.isHomestead env.isIstanbul (env.rule env.isShanghai))
  let s ← get
  if s.gasRemaining < gas then throw (.intrinsicGasTooHigh s.gasRemaining gas)
  let floor ← Stateful.ofExcept (floorOf env msg)
  modify fun s => { s with gasRemaining := s.gasRemaining - gas }
  Stateful.ofExcept (checkTransfer env msg s.world)
  return floor

def execute : TransitionM ExecutionResult := do
  preCheck env msg
  let floor ← admitMessage env msg
  let result ← runMessage env evm msg
  settle env msg floor result

end ChilizChain.Transition
