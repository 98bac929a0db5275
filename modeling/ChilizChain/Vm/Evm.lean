import ChilizChain.Lib.Acting
import ChilizChain.State.StateDB

/-! The calls and creations of the virtual machine, with the hooks of the chain: the runtime
upgrade, which is dispatched like a precompiled contract, and the check of the deployer proxy that
runs before a contract is called or deployed.

The instructions of a contract are not modelled one by one. The interpreter is any function from a
contract to a `Program`: what it asks of the state and of the machine, depending on the answers.
This covers both interpreters of the machine and every code. -/

namespace ChilizChain

/-- The chain rules that the calls depend on. -/
structure Rules where
  isHomestead : Bool
  isEIP158 : Bool
  isEIP2929 : Bool
  isEIP4762 : Bool
  isLondon : Bool
  isCancun : Bool
  isPrague : Bool
  hasRuntimeUpgrade : Bool
  hasDeployOrigin : Bool
  hasDeploymentHookFix : Bool
  deployerFactory : Bool
  deployerProxySunset : Bool

inductive VmError
  | outOfGas
  | codeStoreOutOfGas
  | depth
  | insufficientBalance
  | contractAddressCollision
  | executionReverted
  | maxCodeSizeExceeded
  | writeProtection
  | invalidCode
  | nonceUintOverflow
  | notAllowed
  /-- The errors of the runtime upgrade. -/
  | notSupported
  | invalidCaller
  | methodNotFound
  /-- Any other error of the interpreter or of a precompiled contract. -/
  | other (code : ℕ)
deriving DecidableEq

structure CallResult where
  ret : Bytes
  gas : UInt64
  err : Option VmError
deriving DecidableEq

structure CreateResult where
  ret : Bytes
  address : Address
  gas : UInt64
  err : Option VmError
deriving DecidableEq

def CallResult.failed (gas : UInt64) (err : VmError) : CallResult := ⟨[], gas, some err⟩

def CreateResult.failed (gas : UInt64) (err : VmError) : CreateResult :=
  ⟨[], FixedBytes.zero 20, gas, some err⟩

/-- A contract that is executed. -/
structure Contract where
  caller : Address
  address : Address
  value : Word
  gas : UInt64
  code : Bytes
  codeHash : Hash
  input : Bytes
  isDeployment : Bool
  isSystemCall : Bool

/-! ## Programs -/

/-- What the gas functions and the reading instructions do to the state. -/
inductive AccessOp
  | account (addr : Address)
  | code (addr : Address)
  | state (addr : Address) (key : Hash)
  | addRefund (gas : UInt64)
  | subRefund (gas : UInt64)
  | warmAddress (addr : Address)
  | warmSlot (addr : Address) (key : Hash)

/-- The instructions that write to the account of the contract. -/
inductive WriteOp
  | sstore (key value : Hash)
  | tstore (key value : Hash)
  | log (topics : List Hash) (data : Bytes)

inductive CallKind
  | call
  | callCode
  | delegateCall
  | staticCall
deriving DecidableEq

/-- An execution of the interpreter, as far as it concerns the state and the machine. -/
inductive Program
  | done (result : CallResult)
  | look (next : StateDB → Program)
  | access (op : AccessOp) (next : Program)
  | write (op : WriteOp) (next : Program)
  | selfdestruct (beneficiary : Address) (gas : UInt64)
  | create (code : Bytes) (gas : UInt64) (value : Word) (next : CreateResult → Program)
  | create2 (code : Bytes) (gas : UInt64) (endowment salt : Word) (next : CreateResult → Program)
  | call (kind : CallKind) (addr : Address) (input : Bytes) (gas : UInt64) (value : Word)
      (next : CallResult → Program)

def AccessOp.toStateOp : AccessOp → StateOp
  | account addr => .loadAccount addr
  | code addr => .loadCode addr
  | state addr key => .loadState addr key
  | addRefund gas => .addRefund gas
  | subRefund gas => .subRefund gas
  | warmAddress addr => .addAddressToAccessList addr
  | warmSlot addr key => .addSlotToAccessList addr key

def WriteOp.toStateOp (self : Address) : WriteOp → StateOp
  | sstore key value => .setState self key value
  | tstore key value => .setTransientState self key value
  | log topics data => .addLog self topics data

/-! ## The machine -/

/-- Computations of the machine, which act on the state by its calls. -/
abbrev EvmM := Acting StateDB

/-- The calls of the machine at some depth. The first argument is the read-only flag. -/
structure Calls where
  call (readOnly : Bool) (caller addr : Address) (input : Bytes) (gas : UInt64) (value : Word) :
    EvmM CallResult
  callCode (readOnly : Bool) (caller addr : Address) (input : Bytes) (gas : UInt64)
    (value : Word) : EvmM CallResult
  delegateCall (readOnly : Bool) (originCaller caller addr : Address) (input : Bytes)
    (gas : UInt64) (value : Word) : EvmM CallResult
  staticCall (readOnly : Bool) (caller addr : Address) (input : Bytes) (gas : UInt64) :
    EvmM CallResult
  create (readOnly : Bool) (caller : Address) (code : Bytes) (gas : UInt64) (value : Word) :
    EvmM CreateResult
  create2 (readOnly : Bool) (caller : Address) (code : Bytes) (gas : UInt64)
    (endowment salt : Word) : EvmM CreateResult

structure PrecompiledContract where
  requiredGas : Bytes → UInt64
  run : Bytes → Except VmError Bytes

/-- The context of a machine. The gas for the witness may depend on everything. -/
structure EVM (keccak : Bytes → Hash) where
  reader : Reader keccak
  rules : Rules
  coinbase : Address
  origin : Address
  precompiles : Address → Option PrecompiledContract
  interpreter : Contract → Program
  /-- `matchesMethod` for `upgradeTo(address,bytes)`. -/
  upgradeTo : Bytes → Option (Address × Bytes)
  /-- The packed call of `checkContractActive`. -/
  checkContractActive : Address → Option Bytes
  /-- The packed call of `registerDeployedContract`. -/
  registerDeployedContract : Address → Address → Option Bytes
  createAddress : Address → UInt64 → Address
  createAddress2 : Address → Word → Hash → Address
  codeHashGas : StateDB → Address → UInt64 → UInt64
  contractCreatePreCheckGas : StateDB → Address → UInt64 → UInt64
  contractCreateInitGas : StateDB → Address → UInt64 → UInt64 × UInt64
  codeChunksRangeGas : StateDB → Address → UInt64 → UInt64 → UInt64 × UInt64

def systemAddress : Address := FixedBytes.ofBytes 20 (List.replicate 19 0xff ++ [0xfe])

def isSystemCall (caller : Address) : Bool := caller = systemAddress

def evmHookRuntimeUpgradeAddress : Address := FixedBytes.ofBytes 20 [0x7f, 0x01]

def isEvmHook (address : Address) : Bool := address = evmHookRuntimeUpgradeAddress

def runtimeUpgradeContract : Address := FixedBytes.ofBytes 20 [0x70, 0x04]

def deployerProxyContractAddress : Address := FixedBytes.ofBytes 20 [0x70, 0x05]

/-- The addresses that `systemContracts` maps to true. -/
def systemContracts : List Address :=
  [[0x10, 0x00], [0x10, 0x01], [0x10, 0x02], [0x70, 0x01], [0x70, 0x02], [0x70, 0x03], [0x70, 0x04],
    [0x70, 0x05], [0x70, 0x06]].map (FixedBytes.ofBytes 20)

def isSystemContract (address : Address) : Bool := address ∈ systemContracts

def parseDelegation (b : Bytes) : Option Address :=
  if b.length = 23 ∧ b.take 3 = [0xef, 0x01, 0x00] then some (FixedBytes.ofBytes 20 (b.drop 3))
  else none

/-- `MaxCodeSize`. -/
def maxCodeSize : ℕ := 24576

/-- `CreateDataGas`. -/
def createDataGas : UInt64 := 200

namespace EVM

variable {keccak : Bytes → Hash} (evm : EVM keccak)

/-! ### The state -/

def perform (op : StateOp) : EvmM Unit := Acting.perform (StateDB.step evm.reader) op

/-- A getter that loads an account. -/
def load {α : Type} (addr : Address) (f : StateDB → α) : EvmM α := do
  evm.perform (.loadAccount addr)
  Acting.query f

section

variable (addr : Address)

def exist : EvmM Bool := evm.load addr (·.exist evm.reader addr)

def getNonce : EvmM UInt64 := evm.load addr (·.getNonce evm.reader addr)

def getCodeHash : EvmM Hash := evm.load addr (·.getCodeHash evm.reader addr)

def getStorageRoot : EvmM Hash := evm.load addr (·.getStorageRoot evm.reader addr)

def getCode : EvmM Bytes := do
  evm.perform (.loadCode addr)
  Acting.query (·.getCode evm.reader addr)

def snapshot : EvmM ℕ := do
  let id ← Acting.query (·.snapshot.1)
  evm.perform .snapshot
  return id

def canTransfer (amount : Word) : EvmM Bool :=
  evm.load addr fun s => decide (amount ≤ s.getBalance evm.reader addr)

/-- `Call` asks for the balance only if there is something to transfer. -/
def isFunded (amount : Word) : EvmM Bool :=
  if amount = 0 then return true else evm.canTransfer addr amount

def transfer (sender recipient : Address) (amount : Word) : EvmM Unit := do
  evm.perform (.subBalance sender amount)
  evm.perform (.addBalance recipient amount)

def resolveCode : EvmM Bytes := do
  let code ← evm.getCode addr
  if evm.rules.isPrague then
    match parseDelegation code with
    | some target => evm.getCode target
    | none => return code
  else return code

def resolveCodeHash : EvmM Hash := do
  if evm.rules.isPrague then
    let code ← evm.getCode addr
    match parseDelegation code with
    | some target => evm.getCodeHash target
    | none => evm.getCodeHash addr
  else evm.getCodeHash addr

end

/-! ### The interpreter -/

/-- Execute a program, where writing is refused under the read-only flag. -/
def run (inner : Calls) (readOnly : Bool) (contract : Contract) : Program → EvmM CallResult
  | .done result => return result
  | .look next => do
    let s ← Acting.query id
    run inner readOnly contract (next s)
  | .access op next => do
    evm.perform op.toStateOp
    run inner readOnly contract next
  | .write op next =>
    if readOnly then return .failed 0 .writeProtection
    else do
      evm.perform (op.toStateOp contract.address)
      run inner readOnly contract next
  | .selfdestruct beneficiary gas =>
    if readOnly then return .failed 0 .writeProtection
    else do
      let balance ← evm.load contract.address (·.getBalance evm.reader contract.address)
      if evm.rules.isCancun then
        evm.perform (.subBalance contract.address balance)
        evm.perform (.addBalance beneficiary balance)
        evm.perform (.selfDestruct6780 contract.address)
      else
        evm.perform (.addBalance beneficiary balance)
        evm.perform (.selfDestruct contract.address)
      return ⟨[], gas, none⟩
  | .create code gas value next =>
    if readOnly then return .failed 0 .writeProtection
    else do
      let result ← inner.create readOnly contract.address code gas value
      run inner readOnly contract (next result)
  | .create2 code gas endowment salt next =>
    if readOnly then return .failed 0 .writeProtection
    else do
      let result ← inner.create2 readOnly contract.address code gas endowment salt
      run inner readOnly contract (next result)
  | .call .call addr input gas value next =>
    if readOnly ∧ value ≠ 0 then return .failed 0 .writeProtection
    else do
      let result ← inner.call readOnly contract.address addr input gas value
      run inner readOnly contract (next result)
  | .call .callCode addr input gas value next => do
    let result ← inner.callCode readOnly contract.address addr input gas value
    run inner readOnly contract (next result)
  | .call .delegateCall addr input gas _ next => do
    let result ← inner.delegateCall readOnly contract.caller contract.address addr input gas
      contract.value
    run inner readOnly contract (next result)
  | .call .staticCall addr input gas _ next => do
    let result ← inner.staticCall readOnly contract.address addr input gas
    run inner readOnly contract (next result)

variable (inner : Calls) (readOnly : Bool)

/-- `EVMInterpreter.Run`. -/
def interpret (contract : Contract) : EvmM CallResult :=
  if contract.code = [] then return ⟨[], contract.gas, none⟩
  else evm.run inner readOnly contract (evm.interpreter contract)

/-! ### Precompiled contracts and hooks -/

variable (caller addr : Address) (code : Bytes) (gas : UInt64) (value : Word) (address : Address)

/-- `Run` of the runtime upgrade. -/
def evmHookRuntimeUpgrade (input : Bytes) : EvmM (Except VmError Bytes) :=
  if !evm.rules.hasRuntimeUpgrade then return .error .notSupported
  else if caller ≠ runtimeUpgradeContract then return .error .invalidCaller
  else
    match evm.upgradeTo input with
    | none => return .error .methodNotFound
    | some (contractAddress, byteCode) => do
      evm.perform (.setCode contractAddress byteCode)
      return .ok []

/-- Whether `precompileOrHook` finds something. -/
def isPrecompile : Bool := isEvmHook addr || (evm.precompiles addr).isSome

/-- `RunPrecompiledContract` of what `precompileOrHook` finds. The hook costs no gas. -/
def runPrecompiledContract (caller addr : Address) (input : Bytes) (gas : UInt64) :
    EvmM CallResult :=
  if isEvmHook addr then do
    match ← evm.evmHookRuntimeUpgrade caller input with
    | .ok output => return ⟨output, gas, none⟩
    | .error err => return .failed gas err
  else
    match evm.precompiles addr with
    | none => return ⟨[], gas, none⟩
    | some p =>
      if gas < p.requiredGas input then return .failed 0 .outOfGas
      else
        match p.run input with
        | .ok output => return ⟨output, gas - p.requiredGas input, none⟩
        | .error err => return .failed (gas - p.requiredGas input) err

def deployerProxyHooksActive : Bool :=
  evm.rules.hasRuntimeUpgrade && !evm.rules.deployerProxySunset

def warmDeployerProxyOnHookDispatch : EvmM Unit :=
  if isEvmHook addr && evm.rules.isEIP2929 && evm.deployerProxyHooksActive then
    evm.perform (.addAddressToAccessList deployerProxyContractAddress)
  else return

/-- The error of `applyChilizInvocationEvmHook`, which leaves the gas as it is. -/
def applyChilizInvocationEvmHook :
    EvmM (Option VmError) :=
  if isSystemContract addr then return none
  else
    match evm.checkContractActive addr with
    | none => return some .notAllowed
    | some input => do
      let result ← inner.call readOnly evm.coinbase deployerProxyContractAddress input 1000000 0
      return result.err.map fun _ => .notAllowed

def applyChilizDeploymentEvmHook (caller addr : Address)
    (gas : UInt64) : EvmM (UInt64 × Option VmError) :=
  if isSystemContract addr then return (gas, none)
  else
    let deployer :=
      if evm.rules.hasDeployOrigin && !evm.rules.deployerFactory then evm.origin else caller
    match evm.registerDeployedContract deployer addr with
    | none => return (gas, some .notAllowed)
    | some input => do
      let result ← inner.call readOnly evm.coinbase deployerProxyContractAddress input gas 0
      return (result.gas, result.err.map fun _ => .notAllowed)

/-! ### Calls -/

/-- Where the work of a call ends: at once, or at the place where errors are handled. -/
inductive Outcome
  | returned (result : CallResult)
  | executed (result : CallResult)

/-- How a call ends: an error takes the state back and, unless the code reverted, the gas. -/
def finish (snapshot : ℕ) (result : CallResult) : EvmM CallResult :=
  match result.err with
  | none => return result
  | some err => do
    evm.perform (.revertToSnapshot snapshot)
    return { result with gas := if err = .executionReverted then result.gas else 0 }

/-- The check of the invocation, where the hooks are active. -/
def checkInvocation : EvmM (Option VmError) :=
  if evm.deployerProxyHooksActive then evm.applyChilizInvocationEvmHook inner readOnly addr
  else return none

/-- The part of `Call` from the transfer on. An inactive contract is reported without taking the
state back. -/
def callTransfer (caller addr : Address) (input : Bytes)
    (gas : UInt64) (value : Word) : EvmM Outcome := do
  evm.transfer caller addr value
  if evm.isPrecompile addr then
    let result ← evm.runPrecompiledContract caller addr input gas
    return .executed result
  else
    let code ← evm.resolveCode addr
    if code = [] then return .executed ⟨[], gas, none⟩
    else
      let inactive ← evm.checkInvocation inner readOnly addr
      match inactive with
      | some err => return .returned (.failed gas err)
      | none =>
        let codeHash ← evm.resolveCodeHash addr
        let result ← evm.interpret inner readOnly
          ⟨caller, addr, value, gas, code, codeHash, input, false, isSystemCall caller⟩
        return .executed result

/-- The gas for the witness of a missing callee. -/
def missingAccountGas (caller addr : Address) (gas : UInt64) (s : StateDB) : UInt64 :=
  if !evm.isPrecompile addr && evm.rules.isEIP4762 && !isSystemCall caller then
    evm.codeHashGas s addr gas
  else 0

/-- The work of `Call` after the snapshot. -/
def callBody (caller addr : Address) (input : Bytes)
    (gas : UInt64) (value : Word) : EvmM Outcome := do
  evm.warmDeployerProxyOnHookDispatch addr
  let present ← evm.exist addr
  if present then evm.callTransfer inner readOnly caller addr input gas value
  else
    let wgas ← Acting.query (evm.missingAccountGas caller addr gas)
    if gas < wgas then return .executed (.failed 0 .outOfGas)
    else if !evm.isPrecompile addr && evm.rules.isEIP158 && value == 0 then
      return .returned ⟨[], gas - wgas, none⟩
    else do
      evm.perform (.createAccount addr)
      evm.callTransfer inner readOnly caller addr input (gas - wgas) value

/-- The part of `Call` from the snapshot on. -/
def callSnapshot (caller addr : Address) (input : Bytes)
    (gas : UInt64) (value : Word) : EvmM CallResult := do
  let snapshot ← evm.snapshot
  let outcome ← evm.callBody inner readOnly caller addr input gas value
  match outcome with
  | .returned result => return result
  | .executed result => evm.finish snapshot result

/-- `Call`. There are no inner calls beyond the depth limit. -/
def call (inner : Option Calls) (readOnly : Bool) (caller addr : Address) (input : Bytes)
    (gas : UInt64) (value : Word) : EvmM CallResult :=
  match inner with
  | none => return .failed gas .depth
  | some inner => do
    let funded ← evm.isFunded caller value
    if funded then evm.callSnapshot inner readOnly caller addr input gas value
    else return .failed gas .insufficientBalance

/-- The common part of `CallCode`, `DelegateCall` and `StaticCall`: run the code of `addr` as the
contract that is given. -/
def execute (caller addr : Address) (input : Bytes)
    (gas : UInt64) (contract : Bytes → Hash → Contract) : EvmM CallResult := do
  if evm.isPrecompile addr then evm.runPrecompiledContract caller addr input gas
  else
    let codeHash ← evm.resolveCodeHash addr
    let code ← evm.resolveCode addr
    evm.interpret inner readOnly (contract code codeHash)

def callCode (inner : Option Calls) (readOnly : Bool) (caller addr : Address) (input : Bytes)
    (gas : UInt64) (value : Word) : EvmM CallResult :=
  match inner with
  | none => return .failed gas .depth
  | some inner => do
    let funded ← evm.canTransfer caller value
    if funded then
      let snapshot ← evm.snapshot
      let result ← evm.execute inner readOnly caller addr input gas fun code codeHash =>
        ⟨caller, caller, value, gas, code, codeHash, input, false, false⟩
      evm.finish snapshot result
    else return .failed gas .insufficientBalance

def delegateCall (inner : Option Calls) (readOnly : Bool) (originCaller caller addr : Address)
    (input : Bytes) (gas : UInt64) (value : Word) : EvmM CallResult :=
  match inner with
  | none => return .failed gas .depth
  | some inner => do
    let snapshot ← evm.snapshot
    let result ← evm.execute inner readOnly caller addr input gas fun code codeHash =>
      ⟨originCaller, caller, value, gas, code, codeHash, input, false, false⟩
    evm.finish snapshot result

/-- `StaticCall`, which sets the read-only flag for the code that it runs. -/
def staticCall (inner : Option Calls) (_readOnly : Bool) (caller addr : Address) (input : Bytes)
    (gas : UInt64) : EvmM CallResult :=
  match inner with
  | none => return .failed gas .depth
  | some inner => do
    let snapshot ← evm.snapshot
    evm.perform (.addBalance addr 0)
    let result ← evm.execute inner true caller addr input gas fun code codeHash =>
      ⟨caller, addr, 0, gas, code, codeHash, input, false, false⟩
    evm.finish snapshot result

/-! ### Creations -/

/-- The checks of the code that a deployment returns, and its price. -/
def checkNewCode (result : CallResult) (consumed wanted : UInt64) : CallResult :=
  if result.err ≠ none then result
  else if evm.rules.isEIP158 ∧ maxCodeSize < result.ret.length then
    { result with err := some .maxCodeSizeExceeded }
  else if result.ret.head? = some 0xef ∧ evm.rules.isLondon then
    { result with err := some .invalidCode }
  else
    -- gas that is not there is not used
    let gas := if result.gas < consumed then result.gas else result.gas - consumed
    let short :=
      if evm.rules.isEIP4762 then result.ret ≠ [] ∧ consumed < wanted else result.gas < consumed
    { result with gas := gas, err := if short then some .codeStoreOutOfGas else none }

def initNewContract (contract : Contract) : EvmM CallResult := do
  let result ← evm.interpret inner readOnly contract
  let size := UInt64.ofNat result.ret.length
  let (consumed, wanted) ← Acting.query fun s =>
    if evm.rules.isEIP4762 then evm.codeChunksRangeGas s contract.address size result.gas
    else (size * createDataGas, size * createDataGas)
  let result := evm.checkNewCode result consumed wanted
  if result.err = none ∧ result.ret ≠ [] then
    evm.perform (.setCode contract.address result.ret)
  return result

/-- Make the account of a new contract. -/
def prepareContract : EvmM Unit := do
  let present ← evm.exist address
  if !present then evm.perform (.createAccount address)
  evm.perform (.createContract address)
  if evm.rules.isEIP158 then evm.perform (.setNonce address 1)

/-- The work of `create` after the snapshot. Without the gas for the witness it ends at once. -/
def deploy : EvmM Outcome := do
  evm.prepareContract address
  let (consumed, wanted) ← Acting.query fun s =>
    if evm.rules.isEIP4762 then evm.contractCreateInitGas s address gas else (0, 0)
  if consumed < wanted then return .returned (.failed 0 .outOfGas)
  else
    evm.transfer caller address value
    let result ← evm.initNewContract inner readOnly
      ⟨caller, address, value, gas - consumed, code, FixedBytes.zero 32, [], true, false⟩
    return .executed result

/-- How a creation ends. Before Homestead a contract whose code cannot be paid for stays. -/
def finishCreate (snapshot : ℕ) (address : Address) (result : CallResult) : EvmM CreateResult :=
  match result.err with
  | none => return ⟨result.ret, address, result.gas, none⟩
  | some err =>
    if evm.rules.isHomestead ∨ err ≠ .codeStoreOutOfGas then do
      evm.perform (.revertToSnapshot snapshot)
      return ⟨result.ret, address, if err = .executionReverted then result.gas else 0, some err⟩
    else return ⟨result.ret, address, result.gas, some err⟩

/-- The part of `create` from the snapshot on. -/
def createSnapshot : EvmM CreateResult := do
  let snapshot ← evm.snapshot
  let outcome ← evm.deploy inner readOnly caller code gas value address
  match outcome with
  | .returned result => return ⟨result.ret, FixedBytes.zero 20, result.gas, result.err⟩
  | .executed result => evm.finishCreate snapshot address result

/-- The check of the deployment, at the place where the rules have it. -/
def checkDeployment (active : Bool) (inner : Calls) (readOnly : Bool) (caller address : Address)
    (gas : UInt64) : EvmM (UInt64 × Option VmError) :=
  if active && evm.deployerProxyHooksActive then
    evm.applyChilizDeploymentEvmHook inner readOnly caller address gas
  else return (gas, none)

/-- Whether there is a contract at the address. -/
def collides : EvmM Bool := do
  let contractHash ← evm.getCodeHash address
  let storageRoot ← evm.getStorageRoot address
  let nonce ← evm.getNonce address
  return nonce ≠ 0 ∨
    (contractHash ≠ FixedBytes.zero 32 ∧ contractHash ≠ emptyCodeHash keccak) ∨
    (storageRoot ≠ FixedBytes.zero 32 ∧ storageRoot ≠ emptyRootHash keccak)

/-- The part of `create` from the check for a collision on. -/
def createFree : EvmM CreateResult := do
  let collision ← evm.collides address
  if collision then return .failed 0 .contractAddressCollision
  else
    let checked ← evm.checkDeployment evm.rules.hasDeploymentHookFix inner readOnly caller address
      gas
    match checked with
    | (gas, some err) => return .failed gas err
    | (gas, none) => evm.createSnapshot inner readOnly caller code gas value address

/-- The part of `create` from the first check of the deployment on. -/
def createFunded : EvmM CreateResult := do
  let funded ← evm.canTransfer caller value
  if !funded then return .failed gas .insufficientBalance
  else
    let nonce ← evm.getNonce caller
    if nonce + 1 < nonce then return .failed gas .nonceUintOverflow
    else
      evm.perform (.setNonce caller (nonce + 1))
      let statelessGas ← Acting.query fun s =>
        if evm.rules.isEIP4762 then evm.contractCreatePreCheckGas s address gas else 0
      if gas < statelessGas then return .failed 0 .outOfGas
      else
        if evm.rules.isEIP2929 then evm.perform (.addAddressToAccessList address)
        evm.createFree inner readOnly caller code (gas - statelessGas) value address

/-- `create`. -/
def createAt (inner : Option Calls) (readOnly : Bool) (caller : Address) (code : Bytes)
    (gas : UInt64) (value : Word) (address : Address) : EvmM CreateResult :=
  match inner with
  | none => return .failed gas .depth
  | some inner => do
    let checked ← evm.checkDeployment (!evm.rules.hasDeploymentHookFix) inner readOnly caller
      address gas
    match checked with
    | (gas, some err) => return .failed gas err
    | (gas, none) => evm.createFunded inner readOnly caller code gas value address

def create (inner : Option Calls) (readOnly : Bool) (caller : Address) (code : Bytes)
    (gas : UInt64) (value : Word) : EvmM CreateResult := do
  let nonce ← evm.getNonce caller
  evm.createAt inner readOnly caller code gas value (evm.createAddress caller nonce)

def create2 (inner : Option Calls) (readOnly : Bool) (caller : Address) (code : Bytes)
    (gas : UInt64) (endowment salt : Word) : EvmM CreateResult :=
  evm.createAt inner readOnly caller code gas endowment
    (evm.createAddress2 caller salt (keccak code))

/-- The calls above those of the next depth. -/
def callsOver (inner : Option Calls) : Calls where
  call := evm.call inner
  callCode := evm.callCode inner
  delegateCall := evm.delegateCall inner
  staticCall := evm.staticCall inner
  create := evm.create inner
  create2 := evm.create2 inner

/-- The calls with so many levels left: `1025 - depth` of them. Beyond depth 1024 every call
fails. -/
def calls : ℕ → Calls
  | 0 => evm.callsOver none
  | levels + 1 => evm.callsOver (some (calls levels))

end EVM

end ChilizChain
