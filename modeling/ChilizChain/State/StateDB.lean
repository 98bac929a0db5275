import ChilizChain.State.AccessList

/-! The state that a transaction works on: cached accounts over a reader of the parent state, and
the journal by which changes are taken back. A function that panics has no result. -/

namespace ChilizChain

/-- `uint256.Int`. -/
abbrev Word := BitVec 256

abbrev Storage := Std.ExtTreeMap Hash Hash

abbrev TransientStorage := Std.ExtTreeMap Address Storage

structure StateAccount where
  nonce : UInt64
  balance : Word
  root : Hash
  codeHash : Hash
deriving DecidableEq

section Empty

variable (keccak : Bytes → Hash)

def emptyCodeHash : Hash := keccak []

def emptyRootHash : Hash := keccak [0x80]

/-- `NewEmptyStateAccount`. -/
def StateAccount.empty : StateAccount := ⟨0, 0, emptyRootHash keccak, emptyCodeHash keccak⟩

end Empty

/-- The state below: what the reader of the parent state returns. Code is stored by its hash. -/
structure Reader (keccak : Bytes → Hash) where
  account : Address → Option StateAccount
  storage : Address → Hash → Hash
  code : Hash → Bytes
  keccak_code : ∀ {addr acct}, account addr = some acct → acct.codeHash ≠ emptyCodeHash keccak →
    keccak (code acct.codeHash) = acct.codeHash

/-- An account that is being modified. Its address is its key in the maps of the state. -/
structure StateObject where
  origin : Option StateAccount
  data : StateAccount
  /-- The code, once it has been loaded. -/
  code : Bytes
  originStorage : Storage
  dirtyStorage : Storage
  pendingStorage : Storage
  uncommittedStorage : Storage
  dirtyCode : Bool
  selfDestructed : Bool
  newContract : Bool
deriving DecidableEq

structure Log where
  address : Address
  topics : List Hash
  data : Bytes
  txHash : Hash
  txIndex : ℕ
  index : ℕ
deriving DecidableEq

inductive JournalEntry
  | createObjectChange (account : Address)
  | createContractChange (account : Address)
  | selfDestructChange (account : Address)
  | balanceChange (account : Address) (prev : Word)
  | nonceChange (account : Address) (prev : UInt64)
  | storageChange (account : Address) (key prevvalue origvalue : Hash)
  | codeChange (account : Address) (prevCode : Bytes)
  | refundChange (prev : UInt64)
  | addLogChange (txhash : Hash)
  | touchChange (account : Address)
  | accessListAddAccountChange (address : Address)
  | accessListAddSlotChange (address : Address) (slot : Hash)
  | transientStorageChange (account : Address) (key prevalue : Hash)
deriving DecidableEq

structure Revision where
  id : ℕ
  journalIndex : ℕ
deriving DecidableEq

/-- The entries are listed newest first, the revisions oldest first. -/
structure Journal where
  entries : List JournalEntry
  dirties : Std.ExtTreeMap Address ℕ
  validRevisions : List Revision
  nextRevisionId : ℕ
deriving DecidableEq

structure StateDB where
  stateObjects : Std.ExtTreeMap Address StateObject
  stateObjectsDestruct : Std.ExtTreeMap Address StateObject
  refund : UInt64
  thash : Hash
  txIndex : ℕ
  logs : Std.ExtTreeMap Hash (List Log)
  logSize : ℕ
  accessList : AccessList
  transientStorage : TransientStorage
  journal : Journal
deriving DecidableEq

namespace TransientStorage

/-- `Get`. -/
def get (t : TransientStorage) (addr : Address) (key : Hash) : Hash :=
  match t[addr]? with
  | none => FixedBytes.zero 32
  | some storage => (storage[key]?).getD (FixedBytes.zero 32)

/-- `Set`, where a zero value deletes the slot. -/
def set (t : TransientStorage) (addr : Address) (key value : Hash) : TransientStorage :=
  if value = FixedBytes.zero 32 then
    match t[addr]? with
    | none => t
    | some storage =>
      if storage.erase key = ∅ then t.erase addr else t.insert addr (storage.erase key)
  else t.insert addr (((t[addr]?).getD ∅).insert key value)

end TransientStorage

def ripemd : Address := FixedBytes.ofBytes 20 [3]

/-! ## The journal -/

namespace JournalEntry

def dirtied : JournalEntry → Option Address
  | createObjectChange account | selfDestructChange account | balanceChange account _
  | nonceChange account _ | storageChange account _ _ _ | codeChange account _
  | touchChange account => some account
  | createContractChange _ | refundChange _ | addLogChange _ | accessListAddAccountChange _
  | accessListAddSlotChange _ _ | transientStorageChange _ _ _ => none

end JournalEntry

namespace Journal

def new : Journal := ⟨[], ∅, [], 0⟩

variable (journal : Journal)

/-- Count one change of an address. -/
def dirty (addr : Address) : Journal :=
  { journal with dirties := journal.dirties.insert addr (journal.dirties.getD addr 0 + 1) }

/-- Drop one change of an address. -/
def undirty (addr : Address) : Journal :=
  let count := journal.dirties.getD addr 0 - 1
  { journal with
    dirties := if count = 0 then journal.dirties.erase addr else journal.dirties.insert addr count }

def append (entry : JournalEntry) : Journal :=
  let journal := { journal with entries := entry :: journal.entries }
  match entry.dirtied with
  | some addr => journal.dirty addr
  | none => journal

/-- `touchChange`: one account is marked dirty even if the touch is taken back. -/
def touchChange (journal : Journal) (address : Address) : Journal :=
  let journal := journal.append (.touchChange address)
  if address = ripemd then journal.dirty address else journal

/-- `snapshot`. -/
def snapshot : ℕ × Journal :=
  (journal.nextRevisionId,
    { journal with
      nextRevisionId := journal.nextRevisionId + 1
      validRevisions :=
        journal.validRevisions ++ [⟨journal.nextRevisionId, journal.entries.length⟩] })

end Journal

/-! ## Accounts -/

namespace StateObject

variable {keccak : Bytes → Hash} (reader : Reader keccak)

/-- `newObject`. -/
def new (keccak : Bytes → Hash) (acct : Option StateAccount) : StateObject where
  origin := acct
  data := acct.getD (.empty keccak)
  code := []
  originStorage := ∅
  dirtyStorage := ∅
  pendingStorage := ∅
  uncommittedStorage := ∅
  dirtyCode := false
  selfDestructed := false
  newContract := false

/-- Whether the account is empty. -/
def empty (keccak : Bytes → Hash) (obj : StateObject) : Bool :=
  obj.data.nonce = 0 ∧ obj.data.balance = 0 ∧ obj.data.codeHash = emptyCodeHash keccak

variable (obj : StateObject)

/-- `Code`, which loads the code. -/
def loadCode : StateObject :=
  if obj.code ≠ [] ∨ obj.data.codeHash = emptyCodeHash keccak then obj
  else { obj with code := reader.code obj.data.codeHash }

/-- `CodeSize`, which does not load the code. -/
def codeSize : ℕ :=
  if obj.code ≠ [] then obj.code.length
  else if obj.data.codeHash = emptyCodeHash keccak then 0
  else (reader.code obj.data.codeHash).length

variable (addr : Address) (destructed : Bool)

/-- `GetCommittedState`. An account that was destructed in this block has lost its storage. -/
def getCommittedState (obj : StateObject) (key : Hash) : Hash :=
  match obj.pendingStorage[key]? with
  | some value => value
  | none =>
    match obj.originStorage[key]? with
    | some value => value
    | none => if destructed then FixedBytes.zero 32 else reader.storage addr key

/-- The effect of `GetCommittedState` on the account: the value is cached. -/
def cacheCommittedState (obj : StateObject) (key : Hash) :
    StateObject :=
  if key ∈ obj.pendingStorage ∨ key ∈ obj.originStorage then obj
  else
    { obj with
      originStorage :=
        obj.originStorage.insert key (obj.getCommittedState reader addr destructed key) }

/-- `GetState`. -/
def getState (obj : StateObject) (key : Hash) : Hash :=
  (obj.dirtyStorage[key]?).getD (obj.getCommittedState reader addr destructed key)

/-- `setState`: a slot that is set back to its original value is not dirty. -/
def setState (key value origin : Hash) : StateObject :=
  { obj with
    dirtyStorage :=
      if value = origin then obj.dirtyStorage.erase key else obj.dirtyStorage.insert key value }

/-- `setCode`. -/
def setCode (codeHash : Hash) (code : Bytes) : StateObject :=
  { obj with code := code, data := { obj.data with codeHash := codeHash }, dirtyCode := true }

def setBalance (amount : Word) : StateObject :=
  { obj with data := { obj.data with balance := amount } }

def setNonce (nonce : UInt64) : StateObject :=
  { obj with data := { obj.data with nonce := nonce } }

/-- One slot of `finalise`. -/
def finaliseSlot (obj : StateObject) (slot : Hash × Hash) :
    StateObject :=
  let (key, value) := slot
  let obj :=
    match obj.uncommittedStorage[key]? with
    | some origin =>
      if origin = value then { obj with uncommittedStorage := obj.uncommittedStorage.erase key }
      else obj
    | none =>
      { obj.cacheCommittedState reader addr destructed key with
        uncommittedStorage := obj.uncommittedStorage.insert key
          (obj.getCommittedState reader addr destructed key) }
  { obj with pendingStorage := obj.pendingStorage.insert key value }

/-- `finalise`: dirty slots become pending ones. -/
def finalise (obj : StateObject) : StateObject :=
  { obj.dirtyStorage.toList.foldl (finaliseSlot reader addr destructed) obj with
    dirtyStorage := ∅
    newContract := false }

end StateObject

/-! ## The state -/

namespace StateDB

variable {keccak : Bytes → Hash} (reader : Reader keccak)

def new : StateDB where
  stateObjects := ∅
  stateObjectsDestruct := ∅
  refund := 0
  thash := FixedBytes.zero 32
  txIndex := 0
  logs := ∅
  logSize := 0
  accessList := .new
  transientStorage := ∅
  journal := .new

def append (s : StateDB) (entry : JournalEntry) : StateDB :=
  { s with journal := s.journal.append entry }

variable (s : StateDB)

variable (addr : Address) (amount : Word)

def setStateObject (obj : StateObject) : StateDB :=
  { s with stateObjects := s.stateObjects.insert addr obj }

def destructed : Bool := addr ∈ s.stateObjectsDestruct

/-- `getStateObject`, which loads the account. -/
def getStateObject : Option StateObject × StateDB :=
  match s.stateObjects[addr]? with
  | some obj => (some obj, s)
  | none =>
    if s.destructed addr then (none, s)
    else
      match reader.account addr with
      | none => (none, s)
      | some acct =>
        let obj := StateObject.new keccak (some acct)
        (some obj, s.setStateObject addr obj)

def createObject (keccak : Bytes → Hash) (s : StateDB) (addr : Address) : StateObject × StateDB :=
  let obj := StateObject.new keccak none
  (obj, (s.append (.createObjectChange addr)).setStateObject addr obj)

def getOrNewStateObject : StateObject × StateDB :=
  match s.getStateObject reader addr with
  | (some obj, s) => (obj, s)
  | (none, s) => s.createObject keccak addr

/-! ### Getters -/

def exist : Bool := (s.getStateObject reader addr).1.isSome

def getBalance : Word :=
  (s.getStateObject reader addr).1.elim 0 (·.data.balance)

def getNonce : UInt64 :=
  (s.getStateObject reader addr).1.elim 0 (·.data.nonce)

def getCode : Bytes :=
  (s.getStateObject reader addr).1.elim [] fun obj => (obj.loadCode reader).code

def getCodeSize : ℕ :=
  (s.getStateObject reader addr).1.elim 0 (·.codeSize reader)

def getCodeHash : Hash :=
  (s.getStateObject reader addr).1.elim (FixedBytes.zero 32) (·.data.codeHash)

def getStorageRoot : Hash :=
  (s.getStateObject reader addr).1.elim (FixedBytes.zero 32) (·.data.root)

def getState (s : StateDB) (addr : Address) (key : Hash) : Hash :=
  (s.getStateObject reader addr).1.elim (FixedBytes.zero 32)
    (·.getState reader addr (s.destructed addr) key)

def getCommittedState (s : StateDB) (addr : Address) (key : Hash) : Hash :=
  (s.getStateObject reader addr).1.elim (FixedBytes.zero 32)
    (·.getCommittedState reader addr (s.destructed addr) key)

def hasSelfDestructed : Bool :=
  (s.getStateObject reader addr).1.elim false (·.selfDestructed)

/-- `Empty`. -/
def isEmpty : Bool :=
  (s.getStateObject reader addr).1.elim true (·.empty keccak)

def getTransientState : Address → Hash → Hash := TransientStorage.get s.transientStorage

def getRefund : UInt64 := s.refund

def getLogs (hash : Hash) : List Log := (s.logs[hash]?).getD []

def addressInAccessList : Bool := s.accessList.containsAddress addr

def slotInAccessList (slot : Hash) : Bool × Bool :=
  s.accessList.contains addr slot

/-- The state after `GetCode`, which loads the account and its code. -/
def loadCode (s : StateDB) (addr : Address) : StateDB :=
  match s.getStateObject reader addr with
  | (some obj, s) => s.setStateObject addr (obj.loadCode reader)
  | (none, s) => s

/-- The state after `GetState` or `GetCommittedState`. -/
def loadState (key : Hash) : StateDB :=
  match s.getStateObject reader addr with
  | (some obj, s) =>
    s.setStateObject addr (obj.cacheCommittedState reader addr (s.destructed addr) key)
  | (none, s) => s

/-! ### Setters -/

/-- `SetBalance` of an account of the state. -/
def setObjectBalance (obj : StateObject) (amount : Word) : StateDB :=
  (s.append (.balanceChange addr obj.data.balance)).setStateObject addr (obj.setBalance amount)

def touch : StateDB :=
  { s with journal := s.journal.touchChange addr }

def addBalance : StateDB :=
  let (obj, s) := s.getOrNewStateObject reader addr
  if amount = 0 then if obj.empty keccak then s.touch addr else s
  else s.setObjectBalance addr obj (obj.data.balance + amount)

def subBalance : StateDB :=
  let (obj, s) := s.getOrNewStateObject reader addr
  if amount = 0 then s else s.setObjectBalance addr obj (obj.data.balance - amount)

def setBalance : StateDB :=
  let (obj, s) := s.getOrNewStateObject reader addr
  s.setObjectBalance addr obj amount

def setNonce (s : StateDB) (addr : Address) (nonce : UInt64) : StateDB :=
  let (obj, s) := s.getOrNewStateObject reader addr
  (s.append (.nonceChange addr obj.data.nonce)).setStateObject addr (obj.setNonce nonce)

/-- `SetCode`. The journal gets the code as far as it is loaded. -/
def setCode (s : StateDB) (addr : Address) (code : Bytes) : StateDB :=
  let (obj, s) := s.getOrNewStateObject reader addr
  (s.append (.codeChange addr obj.code)).setStateObject addr (obj.setCode (keccak code) code)

def setState (s : StateDB) (addr : Address) (key value : Hash) : StateDB :=
  let (obj, s) := s.getOrNewStateObject reader addr
  let prev := obj.getState reader addr (s.destructed addr) key
  let origin := obj.getCommittedState reader addr (s.destructed addr) key
  let obj := obj.cacheCommittedState reader addr (s.destructed addr) key
  if prev = value then s.setStateObject addr obj
  else
    (s.append (.storageChange addr key prev origin)).setStateObject addr
      (obj.setState key value origin)

/-- `CreateAccount`, also over an account that exists. -/
def createAccount (keccak : Bytes → Hash) (s : StateDB) (addr : Address) : StateDB :=
  (s.createObject keccak addr).2

/-- `CreateContract`, which panics when there is no account. -/
def createContract : Option StateDB :=
  match s.getStateObject reader addr with
  | (none, _) => none
  | (some obj, s) =>
    if obj.newContract then some s
    else
      some ((s.append (.createContractChange addr)).setStateObject addr
        { obj with newContract := true })

def selfDestruct : StateDB :=
  match s.getStateObject reader addr with
  | (none, s) => s
  | (some obj, s) =>
    let (obj, s) :=
      if obj.data.balance = 0 then (obj, s)
      else (obj.setBalance 0, s.setObjectBalance addr obj 0)
    if obj.selfDestructed then s
    else
      (s.append (.selfDestructChange addr)).setStateObject addr { obj with selfDestructed := true }

def selfDestruct6780 : StateDB :=
  match s.getStateObject reader addr with
  | (none, s) => s
  | (some obj, s) => if obj.newContract then s.selfDestruct reader addr else s

def setTransientState (key value : Hash) : StateDB :=
  let prev := s.getTransientState addr key
  if prev = value then s
  else
    { s.append (.transientStorageChange addr key prev) with
      transientStorage := TransientStorage.set s.transientStorage addr key value }

def addLog (address : Address) (topics : List Hash) (data : Bytes) : StateDB :=
  let log : Log := ⟨address, topics, data, s.thash, s.txIndex, s.logSize⟩
  { s.append (.addLogChange s.thash) with
    logs := s.logs.insert s.thash (s.getLogs s.thash ++ [log])
    logSize := s.logSize + 1 }

def addRefund (gas : UInt64) : StateDB :=
  { s.append (.refundChange s.refund) with refund := s.refund + gas }

/-- `SubRefund`, which panics below zero. -/
def subRefund (gas : UInt64) : Option StateDB :=
  if s.refund < gas then none
  else some { s.append (.refundChange s.refund) with refund := s.refund - gas }

def addAddressToAccessList : StateDB :=
  let (addrMod, accessList) := s.accessList.addAddress addr
  let s := { s with accessList := accessList }
  if addrMod then s.append (.accessListAddAccountChange addr) else s

def addSlotToAccessList (slot : Hash) : StateDB :=
  let ((addrMod, slotMod), accessList) := s.accessList.addSlot addr slot
  let s := { s with accessList := accessList }
  let s := if addrMod then s.append (.accessListAddAccountChange addr) else s
  if slotMod then s.append (.accessListAddSlotChange addr slot) else s

/-! ### Snapshots -/

/-- Change an account, as reverting an entry does. A missing account is a nil pointer. -/
def modifyObject (f : StateObject → StateObject) : Option StateDB :=
  match s.getStateObject reader addr with
  | (none, _) => none
  | (some obj, s) => some (s.setStateObject addr (f obj))

/-- `revert` of an entry. -/
def revertEntry : JournalEntry → Option StateDB
  | .createObjectChange account => some { s with stateObjects := s.stateObjects.erase account }
  | .createContractChange account =>
    s.modifyObject reader account fun obj => { obj with newContract := false }
  | .selfDestructChange account =>
    match s.getStateObject reader account with
    | (none, s) => some s
    | (some obj, s) => some (s.setStateObject account { obj with selfDestructed := false })
  | .balanceChange account prev => s.modifyObject reader account (·.setBalance prev)
  | .nonceChange account prev => s.modifyObject reader account (·.setNonce prev)
  | .storageChange account key prevvalue origvalue =>
    s.modifyObject reader account (·.setState key prevvalue origvalue)
  | .codeChange account prevCode =>
    s.modifyObject reader account (·.setCode (keccak prevCode) prevCode)
  | .refundChange prev => some { s with refund := prev }
  | .addLogChange txhash =>
    let logs := s.getLogs txhash
    if logs = [] then none
    else
      some { s with
        logs := if logs.length = 1 then s.logs.erase txhash else s.logs.insert txhash logs.dropLast
        logSize := s.logSize - 1 }
  | .touchChange _ => some s
  | .accessListAddAccountChange address =>
    some { s with accessList := s.accessList.deleteAddress address }
  | .accessListAddSlotChange address slot => do
    let accessList ← s.accessList.deleteSlot address slot
    return { s with accessList := accessList }
  | .transientStorageChange account key prevalue =>
    some { s with
      transientStorage := TransientStorage.set s.transientStorage account key prevalue }

/-- One round of `journal.revert`. -/
def revertOne (entry : JournalEntry) : Option StateDB := do
  let s ← s.revertEntry reader entry
  match entry.dirtied with
  | some addr => return { s with journal := s.journal.undirty addr }
  | none => return s

/-- `journal.revert`: undo the entries after the first `snapshot` ones. -/
def revert (snapshot : ℕ) : Option StateDB := do
  let count := s.journal.entries.length - snapshot
  let s' ← (s.journal.entries.take count).foldlM (revertOne reader) s
  return { s' with journal := { s'.journal with entries := s'.journal.entries.drop count } }

/-- `Snapshot`. -/
def snapshot (s : StateDB) : ℕ × StateDB :=
  let (id, journal) := s.journal.snapshot
  (id, { s with journal := journal })

/-- `RevertToSnapshot`, which panics when the snapshot is not valid. -/
def revertToSnapshot (revid : ℕ) : Option StateDB :=
  match s.journal.validRevisions.span (·.id < revid) with
  | (_, []) => none
  | (kept, revision :: _) =>
    if revision.id ≠ revid then none
    else do
      let s ← s.revert reader revision.journalIndex
      return { s with journal := { s.journal with validRevisions := kept } }

/-! ### Transactions -/

/-- `Finalise` of a dirty account. -/
def finaliseObject (deleteEmptyObjects : Bool) (s : StateDB) (addr : Address) : StateDB :=
  match s.stateObjects[addr]? with
  | none => s
  | some obj =>
    if obj.selfDestructed || deleteEmptyObjects && obj.empty keccak then
      { s with
        stateObjects := s.stateObjects.erase addr
        stateObjectsDestruct := s.stateObjectsDestruct.insertIfNew addr obj }
    else s.setStateObject addr (obj.finalise reader addr (s.destructed addr))

/-- `Finalise`. The journal and the refund are cleared. -/
def finalise (deleteEmptyObjects : Bool) : StateDB :=
  { s.journal.dirties.keys.foldl (finaliseObject reader deleteEmptyObjects) s with
    journal := .new
    refund := 0 }

/-- `SetTxContext`. -/
def setTxContext (thash : Hash) (txIndex : ℕ) : StateDB :=
  { s with thash := thash, txIndex := txIndex }

/-- `Prepare`, where `isEIP2929` says whether access lists are in force and the addresses and
slots are those of the sender, the destination, the precompiles, the list of the transaction and
the coinbase, in the order in which they are added. -/
def prepare (isEIP2929 : Bool) (list : List (Address × List Hash)) : StateDB :=
  let add (al : AccessList) (el : Address × List Hash) : AccessList :=
    el.2.foldl (fun al key => (al.addSlot el.1 key).2) (al.addAddress el.1).2
  { s with
    accessList := if isEIP2929 then list.foldl add .new else s.accessList
    transientStorage := ∅ }

end StateDB

/-- The calls that change a state, those getters that load something, and the passage from one
transaction to the next. -/
inductive StateOp
  | addBalance (addr : Address) (amount : Word)
  | subBalance (addr : Address) (amount : Word)
  | setBalance (addr : Address) (amount : Word)
  | setNonce (addr : Address) (nonce : UInt64)
  | setCode (addr : Address) (code : Bytes)
  | setState (addr : Address) (key value : Hash)
  | setTransientState (addr : Address) (key value : Hash)
  | createAccount (addr : Address)
  | createContract (addr : Address)
  | selfDestruct (addr : Address)
  | selfDestruct6780 (addr : Address)
  | addLog (address : Address) (topics : List Hash) (data : Bytes)
  | addRefund (gas : UInt64)
  | subRefund (gas : UInt64)
  | addAddressToAccessList (addr : Address)
  | addSlotToAccessList (addr : Address) (slot : Hash)
  | loadAccount (addr : Address)
  | loadCode (addr : Address)
  | loadState (addr : Address) (key : Hash)
  | snapshot
  | revertToSnapshot (revid : ℕ)
  | nextTransaction (deleteEmptyObjects : Bool) (thash : Hash) (txIndex : ℕ) (isEIP2929 : Bool)
      (list : List (Address × List Hash))
deriving DecidableEq

def StateDB.step {keccak : Bytes → Hash} (reader : Reader keccak) (s : StateDB) :
    StateOp → Option StateDB
  | .addBalance addr amount => some (s.addBalance reader addr amount)
  | .subBalance addr amount => some (s.subBalance reader addr amount)
  | .setBalance addr amount => some (s.setBalance reader addr amount)
  | .setNonce addr nonce => some (s.setNonce reader addr nonce)
  | .setCode addr code => some (s.setCode reader addr code)
  | .setState addr key value => some (s.setState reader addr key value)
  | .setTransientState addr key value => some (s.setTransientState addr key value)
  | .createAccount addr => some (s.createAccount keccak addr)
  | .createContract addr => s.createContract reader addr
  | .selfDestruct addr => some (s.selfDestruct reader addr)
  | .selfDestruct6780 addr => some (s.selfDestruct6780 reader addr)
  | .addLog address topics data => some (s.addLog address topics data)
  | .addRefund gas => some (s.addRefund gas)
  | .subRefund gas => s.subRefund gas
  | .addAddressToAccessList addr => some (s.addAddressToAccessList addr)
  | .addSlotToAccessList addr slot => some (s.addSlotToAccessList addr slot)
  | .loadAccount addr => some (s.getStateObject reader addr).2
  | .loadCode addr => some (s.loadCode reader addr)
  | .loadState addr key => some (s.loadState reader addr key)
  | .snapshot => some s.snapshot.2
  | .revertToSnapshot revid => s.revertToSnapshot reader revid
  | .nextTransaction deleteEmptyObjects thash txIndex isEIP2929 list =>
    some (((s.finalise reader deleteEmptyObjects).setTxContext thash txIndex).prepare isEIP2929
      list)

end ChilizChain
