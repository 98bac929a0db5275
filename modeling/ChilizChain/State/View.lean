import ChilizChain.Lib.UndoLog
import ChilizChain.State.StateDB

/-! What can be seen of a state through its getters, and the journal as an undo log of it. Loading
accounts, code and slots is not seen. -/

namespace ChilizChain

open Function

/-- An account as it is seen. -/
@[ext] structure AccountView where
  nonce : UInt64
  balance : Word
  codeHash : Hash
  code : Bytes
  storage : Hash → Hash
  committed : Hash → Hash
  selfDestructed : Bool
  newContract : Bool

/-- A state as it is seen. -/
@[ext] structure StateView where
  accounts : Address → Option AccountView
  transient : Address → Hash → Hash
  refund : UInt64
  logs : Hash → List Log
  logSize : ℕ
  accessList : AccessList

namespace StateView

variable {w : StateView} {addr : Address} {acc acc' : AccountView}

def setAccount (w : StateView) (addr : Address) (acc : Option AccountView) : StateView :=
  { w with accounts := Function.update w.accounts addr acc }

/-- Change an account that has to exist. -/
def modify (w : StateView) (addr : Address) (f : AccountView → AccountView) : Option StateView :=
  (w.accounts addr).map fun acc => w.setAccount addr (some (f acc))

theorem setAccount_self (h : w.accounts addr = some acc) : w.setAccount addr (some acc) = w := by
  rw [setAccount, ← h, update_eq_self]

theorem setAccount_of_ne {a : Address} {acc : Option AccountView} (h : a ≠ addr) :
    (w.setAccount addr acc).accounts a = w.accounts a := update_of_ne h _ _

theorem modify_setAccount {f : AccountView → AccountView} (h : w.accounts addr = some acc)
    (hf : f acc' = acc) : (w.setAccount addr (some acc')).modify addr f = some w := by
  simp only [modify, setAccount, update_self, Option.map_some, update_idem, hf]
  rw [← h, update_eq_self]

end StateView

section View

variable {keccak : Bytes → Hash} (reader : Reader keccak)

namespace StateObject

def view (addr : Address) (destructed : Bool) (obj : StateObject) : AccountView where
  nonce := obj.data.nonce
  balance := obj.data.balance
  codeHash := obj.data.codeHash
  code := (obj.loadCode reader).code
  storage := obj.getState reader addr destructed
  committed := obj.getCommittedState reader addr destructed
  selfDestructed := obj.selfDestructed
  newContract := obj.newContract

/-- The code hash is the hash of the code, loaded or not. -/
structure CodeKnown (obj : StateObject) : Prop where
  loaded : obj.code ≠ [] → obj.data.codeHash = keccak obj.code
  stored : obj.code = [] → obj.data.codeHash ≠ emptyCodeHash keccak →
    keccak (reader.code obj.data.codeHash) = obj.data.codeHash

/-- The code has been loaded, or there is none. -/
def CodeLoaded (keccak : Bytes → Hash) (obj : StateObject) : Prop :=
  obj.code ≠ [] ∨ obj.data.codeHash = emptyCodeHash keccak

end StateObject

namespace StateDB

variable (destructs : Std.ExtTreeMap Address StateObject)

/-- The account that the reader has, unless it was destructed in this block. -/
def dormant (addr : Address) :
    Option StateObject :=
  if addr ∈ destructs then none
  else (reader.account addr).map fun acct => StateObject.new keccak (some acct)

/-- The account that `getStateObject` finds. -/
def object (s : StateDB) (addr : Address) : Option StateObject :=
  (s.stateObjects[addr]?).or (dormant reader s.stateObjectsDestruct addr)

def view (s : StateDB) : StateView where
  accounts addr := (s.object reader addr).map (·.view reader addr (s.destructed addr))
  transient := s.getTransientState
  refund := s.refund
  logs := s.getLogs
  logSize := s.logSize
  accessList := s.accessList

/-- How an entry is undone in the view. -/
def undo : JournalEntry → StateView →
    Option StateView
  | .createObjectChange account, w =>
    some (w.setAccount account ((dormant reader destructs account).map
      (·.view reader account (account ∈ destructs))))
  | .createContractChange account, w => w.modify account
    fun acc => { acc with newContract := false }
  | .selfDestructChange account, w =>
    match w.accounts account with
    | none => some w
    | some acc => some (w.setAccount account (some { acc with selfDestructed := false }))
  | .balanceChange account prev, w => w.modify account fun acc => { acc with balance := prev }
  | .nonceChange account prev, w => w.modify account fun acc => { acc with nonce := prev }
  | .storageChange account key prevvalue origvalue, w =>
    w.modify account fun acc =>
      { acc with
        storage := Function.update acc.storage key
          (if prevvalue = origvalue then acc.committed key else prevvalue) }
  | .codeChange account prevCode, w =>
    w.modify account fun acc => { acc with codeHash := keccak prevCode, code := prevCode }
  | .refundChange prev, w => some { w with refund := prev }
  | .addLogChange txhash, w =>
    if w.logs txhash = [] then none
    else
      some { w with
        logs := Function.update w.logs txhash (w.logs txhash).dropLast
        logSize := w.logSize - 1 }
  | .touchChange _, w => some w
  | .accessListAddAccountChange address, w =>
    some { w with accessList := w.accessList.deleteAddress address }
  | .accessListAddSlotChange address slot, w =>
    (w.accessList.deleteSlot address slot).map fun accessList => { w with accessList := accessList }
  | .transientStorageChange account key prevalue, w =>
    some { w with
      transient := Function.update w.transient account
        (Function.update (w.transient account) key prevalue) }

/-- The journal as an undo log of the view, in a block where `destructs` were destructed. -/
def undoLog :
    UndoLog StateDB StateView JournalEntry where
  log s := s.journal.entries
  view := view reader
  undo := undo reader destructs

variable {reader} {R : Reader keccak} {s : StateDB} {addr : Address} {obj : StateObject}

variable (R) in
theorem getStateObject_fst (s : StateDB) (addr : Address) :
    (s.getStateObject R addr).1 = s.object R addr := by
  unfold getStateObject object dormant destructed
  cases s.stateObjects[addr]? with
  | some obj => rfl
  | none =>
    by_cases hdestruct : addr ∈ s.stateObjectsDestruct
    · simp [hdestruct]
    · cases R.account addr <;> simp [hdestruct]

@[simp] theorem destructed_setStateObject (s : StateDB) (addr : Address) (obj : StateObject) :
    (s.setStateObject addr obj).destructed = s.destructed := rfl

theorem object_setStateObject (s : StateDB) (addr addr' : Address) (obj : StateObject) :
    (s.setStateObject addr obj).object R addr' =
      if addr' = addr then some obj else s.object R addr' := by
  simp only [object, setStateObject, Std.ExtTreeMap.getElem?_insert,
    Std.LawfulEqCmp.compare_eq_iff_eq, eq_comm (a := addr)]
  split
  · rfl
  · rfl

theorem view_setStateObject (s : StateDB) (addr : Address) (obj : StateObject) :
    (s.setStateObject addr obj).view R =
      (s.view R).setAccount addr (some (obj.view R addr (s.destructed addr))) := by
  ext1
  · funext addr'
    by_cases h : addr' = addr
    · subst h
      simp [view, object_setStateObject, StateView.setAccount]
    · simp [view, object_setStateObject, StateView.setAccount, h]
  all_goals rfl

@[simp] theorem view_append (s : StateDB) (entry : JournalEntry) :
    (s.append entry).view R = s.view R := rfl

theorem view_account (h : s.stateObjects[addr]? = some obj) :
    (s.view R).accounts addr = some (obj.view R addr (s.destructed addr)) := by
  simp [view, object, h]

end StateDB

end View

end ChilizChain
