import ChilizChain.Vm.Atomicity

/-! What a creation that fails leaves behind. The nonce of the caller is counted and the address is
warmed before the snapshot is taken. So is the registration of the contract with the deployer
proxy, which therefore stays where the hooks are active. -/

namespace ChilizChain

open StateDB Acting Std.ExtTreeMap Option

/-- The second answers differ from the first ones in the traces of a creation only: the nonce of
the caller, which is counted once at most, and addresses that were warmed. -/
structure CreationTraces (caller : Address) (before after : StateAnswers) : Prop where
  rest : after =
    { before with
      nonce := after.nonce
      addressInAccessList := after.addressInAccessList
      slotInAccessList := after.slotInAccessList }
  nonce : ∀ addr ≠ caller, after.nonce addr = before.nonce addr
  callerNonce : after.nonce caller = before.nonce caller ∨
    (after.nonce caller).toNat = (before.nonce caller).toNat + 1
  warm : ∀ addr, before.addressInAccessList addr = true → after.addressInAccessList addr = true
  slots : ∀ addr slot, (after.slotInAccessList addr slot).2 = (before.slotInAccessList addr slot).2

theorem CreationTraces.refl (caller : Address) (answers : StateAnswers) :
    CreationTraces caller answers answers :=
  ⟨rfl, fun _ _ => rfl, .inl rfl, fun _ => id, fun _ _ => rfl⟩

namespace AccessList

end AccessList

namespace StateDB

variable {keccak : Bytes → Hash} {reader R : Reader keccak}

variable {s : StateDB} {caller : Address}

end StateDB

namespace EVM

variable {keccak : Bytes → Hash} {evm : EVM keccak} {s s' : StateDB} {addr caller : Address}
  {inner : Calls} {readOnly : Bool} {code : Bytes} {gas : UInt64} {value : Word}

variable {created : CreateResult}

section Fails

variable (hkeccak : ∀ code, keccak code ≠ FixedBytes.zero 32) (hupgrade : evm.NoUpgrade)
  (hhomestead : evm.rules.isHomestead = true) (hwitness : evm.rules.isEIP4762 = false)
  {levels : ℕ}
include hkeccak hupgrade hhomestead hwitness

end Fails

section Fails

variable (hkeccak : ∀ code, keccak code ≠ FixedBytes.zero 32) (hupgrade : evm.NoUpgrade)
  (hhomestead : evm.rules.isHomestead = true) (hwitness : evm.rules.isEIP4762 = false)
  {levels : ℕ} (hs : Ready evm.reader s) (hcaller : s.exist evm.reader caller = true)
  (herr : created.err ≠ none)
include hkeccak hupgrade hhomestead hwitness hs hcaller herr

end Fails

end EVM

namespace Sample

def slot : Hash := FixedBytes.ofBytes 32 [1]

end Sample

end ChilizChain
