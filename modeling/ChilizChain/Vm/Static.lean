import ChilizChain.Vm.Atomicity

/-! What a static call can change. The read-only flag keeps the interpreter from writing, and what
the calls do without value is to touch accounts, which may create empty ones. The hook of the
runtime upgrade does not look at the flag. -/

namespace ChilizChain

open StateDB Acting StateAnswers FixedBytes

/-- What a static call has to leave alone. -/
@[ext] structure SolidState where
  balance : Address → Word
  nonce : Address → UInt64
  code : Address → Bytes
  state : Address → Hash → Hash
  transientState : Address → Hash → Hash
  logs : Hash → List Log
  nonempty : Address → Bool

variable {keccak : Bytes → Hash} {reader R : Reader keccak}

namespace StateDB

variable (reader) in
def solid (s : StateDB) : SolidState where
  balance := s.getBalance reader
  nonce := s.getNonce reader
  code := s.getCode reader
  state := s.getState reader
  transientState := s.getTransientState
  logs := s.getLogs
  nonempty addr := s.exist reader addr && !s.isEmpty reader addr

/-- The same of what is seen. -/
def viewSolid (keccak : Bytes → Hash) (w : StateView) : SolidState where
  balance addr := (w.accounts addr).elim 0 (·.balance)
  nonce addr := (w.accounts addr).elim 0 (·.nonce)
  code addr := (w.accounts addr).elim [] (·.code)
  state addr key := (w.accounts addr).elim (FixedBytes.zero 32) (·.storage key)
  transientState := w.transient
  logs := w.logs
  nonempty addr := (w.accounts addr).elim false fun acc =>
    !decide (acc.nonce = 0 ∧ acc.balance = 0 ∧ acc.codeHash = emptyCodeHash keccak)

variable {s s' : StateDB} {addr : Address}

theorem solid_eq (s : StateDB) : s.solid R = viewSolid keccak (s.view R) := by
  have hanswers : s.answers R = _ := s.answers_eq
  ext1
  case nonempty =>
    funext addr
    simp only [solid, viewSolid, exist, isEmpty, getStateObject_fst, view]
    cases s.object R addr with
    | none => rfl
    | some obj => exact Bool.true_and _
  case balance => exact congrArg balance hanswers
  case nonce => exact congrArg nonce hanswers
  case code => exact congrArg code hanswers
  case state => exact congrArg state hanswers
  case transientState | logs => rfl

theorem solid_of_view (h : s'.view R = s.view R) : s'.solid R = s.solid R := by
  rw [solid_eq, solid_eq, h]

variable (reader) in
/-- There is no storage where there is no account. -/
def NoStrayStorage : Prop :=
  ∀ {addr} (key : Hash), reader.account addr = none → reader.storage addr key = FixedBytes.zero 32

theorem freshAccount_storage (hstray : NoStrayStorage R) (h : s.object R addr = none)
    (key : Hash) : (s.freshAccount R addr).storage key = zero 32 := by
  have hdormant := (Option.or_eq_none_iff.mp h).2
  have hfresh : (s.freshAccount R addr).storage key =
      if s.destructed addr then zero 32 else R.storage addr key := by
    simp [freshAccount, StateObject.view, StateObject.getState, StateObject.getCommittedState,
      StateObject.new]
  rw [hfresh]
  split
  · rfl
  · rename_i hdestructed
    refine hstray key ?_
    have hmem : addr ∉ s.stateObjectsDestruct := by simpa [destructed] using hdestructed
    simpa [dormant, hmem] using hdormant

theorem elim_setAccount_new {β : Type} {w : StateView} {acc : AccountView} {d : β}
    {f : AccountView → β} (hnone : w.accounts addr = none) (hf : f acc = d) (addr' : Address) :
    ((w.setAccount addr (some acc)).accounts addr').elim d f = (w.accounts addr').elim d f := by
  by_cases haddr : addr' = addr
  · subst haddr
    rw [setAccount_seen, hnone]
    exact hf
  · exact congrArg (Option.elim · d f) (Function.update_of_ne haddr _ _)

section

variable (hstray : NoStrayStorage R)
include hstray

theorem solid_fresh (h : s.object R addr = none) (hview : s'.view R =
      (s.view R).setAccount addr (some (s.freshAccount R addr))) : s'.solid R = s.solid R := by
  have hnone : (s.view R).accounts addr = none := by simp [view, h]
  rw [solid_eq, hview, solid_eq]
  ext1
  case balance | nonce =>
    refine funext fun addr' => elim_setAccount_new hnone ?_ addr'
    rfl
  case code =>
    exact funext fun addr' => elim_setAccount_new hnone (s.freshAccount_code addr) addr'
  case state =>
    exact funext fun addr' => funext fun key =>
      elim_setAccount_new hnone (freshAccount_storage hstray h key) addr'
  case nonempty =>
    refine funext fun addr' => elim_setAccount_new hnone ?_ addr'
    simp [freshAccount, StateObject.view, StateObject.new, StateAccount.empty]
  all_goals rfl

theorem solid_account (hview : s'.view R = (s.view R).setAccount addr (some (s.account R addr))) :
    s'.solid R = s.solid R := by
  cases hobject : s.object R addr with
  | none =>
    have haccount : s.account R addr = s.freshAccount R addr := by
      simp [account, view, hobject]
    exact solid_fresh hstray hobject (haccount ▸ hview)
  | some obj =>
    have hseen : (s.view R).accounts addr =
        some (obj.view R addr (s.destructed addr)) := by
      simp only [view, hobject, Option.map_some]
    exact solid_of_view (hview.trans (setAccount_account hseen))

theorem solid_addBalance_zero (s : StateDB) (addr : Address) :
    (s.addBalance R addr 0).solid R = s.solid R := by
  have hview : (s.addBalance R addr 0).view R = _ := s.addBalance_view addr 0
  rw [show (s.account R addr).balance + (0 : Word) = _ from BitVec.add_zero _] at hview
  exact solid_account hstray hview

theorem solid_subBalance_zero (s : StateDB) (addr : Address) :
    (s.subBalance R addr 0).solid R = s.solid R := by
  have hview : (s.subBalance R addr 0).view R = _ := s.subBalance_view addr 0
  rw [show (s.account R addr).balance - (0 : Word) = _ from BitVec.sub_zero _] at hview
  exact solid_account hstray hview

end

theorem solid_of_access {w : StateView} (hview : s'.view R = w)
    (h : w = { s.view R with accessList := w.accessList, refund := w.refund }) :
    s'.solid R = s.solid R := by
  rw [solid_eq, solid_eq, hview, h]
  rfl

end StateDB

theorem AccessOp.step_solid {op : AccessOp} {s s' : StateDB}
    (h : s.step R op.toStateOp = some s') : s'.solid R = s.solid R := by
  cases op with
  | account addr => cases h; exact solid_of_view (s.getStateObject_view addr)
  | code addr => cases h; exact solid_of_view (s.loadCode_view addr)
  | state addr key => cases h; exact solid_of_view (s.loadState_view addr key)
  | addRefund gas => cases h; exact solid_of_access rfl rfl
  | subRefund gas =>
    change StateDB.subRefund s gas = some s' at h
    unfold StateDB.subRefund at h
    split at h
    · cases h
    · cases h
      exact solid_of_access rfl rfl
  | warmAddress addr =>
    cases h
    unfold addAddressToAccessList
    rcases s.accessList.addAddress addr with ⟨addrMod, accessList⟩
    cases addrMod <;> exact solid_of_access rfl rfl
  | warmSlot addr key =>
    cases h
    unfold addSlotToAccessList
    rcases s.accessList.addSlot addr key with ⟨⟨addrMod, slotMod⟩, accessList⟩
    cases addrMod <;> cases slotMod <;> exact solid_of_access rfl rfl

namespace EVM

variable {evm : EVM keccak} {addr caller : Address} {α β : Type}

variable (evm) in
/-- The computation changes nothing that is solid. -/
abbrev Quiet (m : EvmM α) : Prop := Keeps (Ready evm.reader) (solid evm.reader) m

theorem quiet_perform {op : StateOp} (hop : op.Plain = true)
    (h : ∀ {s s' : StateDB}, s.step evm.reader op = some s' →
      s'.solid evm.reader = s.solid evm.reader) :
    evm.Quiet (evm.perform op) :=
  fun _ _ _ hs hstep =>
    ⟨ready_of_obeys (obeys_plain hop) hs hstep, h (perform_inv hstep)⟩

theorem quiet_access (op : AccessOp) : evm.Quiet (evm.perform op.toStateOp) :=
  quiet_perform (by cases op <;> rfl) AccessOp.step_solid

theorem quiet_composes : evm.Composes evm.Quiet where
  pure := .pure
  query := .query
  bind := .bind
  access := quiet_access

theorem quiet_addBalance (hstray : NoStrayStorage evm.reader) :
    evm.Quiet (evm.perform (.addBalance addr 0)) := by
  refine quiet_perform rfl fun h => ?_
  cases h
  exact solid_addBalance_zero hstray _ addr

theorem quiet_transfer (hstray : NoStrayStorage evm.reader) :
    evm.Quiet (evm.transfer caller addr 0) := by
  refine Keeps.bind (quiet_perform rfl fun h => ?_) fun _ => quiet_addBalance hstray
  cases h
  exact solid_subBalance_zero hstray _ caller

/-! ## Calls at some depth -/

variable (evm) in
/-- The calls that can be made under the read-only flag change nothing that is solid. -/
structure QuietCalls (calls : Calls) : Prop where
  call : ∀ caller addr input gas, evm.Quiet (calls.call true caller addr input gas 0)
  callCode : ∀ caller addr input gas value,
    evm.Quiet (calls.callCode true caller addr input gas value)
  delegateCall : ∀ originCaller caller addr input gas value,
    evm.Quiet (calls.delegateCall true originCaller caller addr input gas value)
  staticCall : ∀ readOnly caller addr input gas,
    evm.Quiet (calls.staticCall readOnly caller addr input gas)

section Inner

variable {inner : Calls} {input : Bytes} {gas : UInt64} {value : Word}

variable (hinner : evm.QuietCalls inner)
include hinner

theorem quiet_run {contract : Contract} {program : Program} :
    evm.Quiet (evm.run inner true contract program) := by
  induction program with
  | done result => exact .pure _
  | look next ih => exact Keeps.bind (.query _) ih
  | access op next ih => exact (quiet_access op).bind fun _ => ih
  | write _ _ _ | selfdestruct _ _ | create _ _ _ _ _ | create2 _ _ _ _ _ _ => exact .pure _
  | call kind addr input gas value next ih =>
    cases kind with
    | call =>
      unfold run
      split
      · exact .pure _
      · rename_i hvalue
        have hzero : value = 0 := by simpa using hvalue
        subst hzero
        exact (hinner.call _ _ _ _).bind ih
    | callCode => exact (hinner.callCode _ _ _ _ _).bind ih
    | delegateCall => exact (hinner.delegateCall _ _ _ _ _ _).bind ih
    | staticCall => exact (hinner.staticCall _ _ _ _ _).bind ih

variable (hupgrade : evm.NoUpgrade)
include hupgrade

theorem quiet_execute (contract : Bytes → Hash → Contract) :
    evm.Quiet (evm.execute inner true caller addr input gas contract) :=
  quiet_composes.execute (fun _ _ => quiet_run hinner) hupgrade contract

variable (hstray : NoStrayStorage evm.reader)
include hstray

theorem quiet_callTransfer :
    evm.Quiet (evm.callTransfer inner true caller addr input gas 0) :=
  quiet_composes.callTransfer (fun _ _ => quiet_run hinner) hupgrade (quiet_transfer hstray)
    fun _ => hinner.call _ _ _ _

theorem quiet_callBody : evm.Quiet (evm.callBody inner true caller addr input gas 0) := by
  refine Keeps.bind quiet_composes.warm fun _ s outcome s' hs h => ?_
  obtain ⟨present, s₁, hexist, hrest⟩ := bind_inv h
  obtain ⟨hs₁, hsolid⟩ := quiet_composes.load _ hs hexist
  split at hrest
  · obtain ⟨hs', hsolid'⟩ := quiet_callTransfer hinner hupgrade hstray hs₁ hrest
    exact ⟨hs', hsolid'.trans hsolid⟩
  · rename_i habsent
    have hmissing : s₁.exist evm.reader addr = false := by
      rw [← (load_view hexist).2]
      simpa using habsent
    obtain ⟨wgas, s₂, hgas, hrest⟩ := bind_inv hrest
    cases (query_inv hgas).2
    split at hrest
    · cases (pure_inv hrest).2
      exact ⟨hs₁, hsolid⟩
    · split at hrest
      · cases (pure_inv hrest).2
        exact ⟨hs₁, hsolid⟩
      · obtain ⟨⟨⟩, s₃, hcreate, hrest⟩ := bind_inv hrest
        have hscope : s₁.InScope evm.reader (.createAccount addr) := hmissing
        have hs₃ := hs₁.step hscope rfl (perform_inv hcreate)
        have hobject : s₁.object evm.reader addr = none := by
          rw [← getStateObject_fst]
          exact Option.isNone_iff_eq_none.mp (Option.isSome_eq_false_iff.mp hmissing)
        have hsolid₃ : s₃.solid evm.reader = s₁.solid evm.reader := by
          cases perform_inv hcreate
          exact solid_fresh hstray hobject (s₁.createAccount_view addr)
        obtain ⟨hs', hsolid'⟩ := quiet_callTransfer hinner hupgrade hstray hs₃ hrest
        exact ⟨hs', hsolid'.trans (hsolid₃.trans hsolid)⟩

end Inner

theorem finish_solid {s s₁ s' : StateDB} {result result' : CallResult} (hs : Ready evm.reader s)
    (htrace : (evm.discipline (s.snapshot.1 + 1)).Trace s.snapshot.2 s₁)
    (hs₁ : Ready evm.reader s₁) (hsolid : s₁.solid evm.reader = s.solid evm.reader)
    (h : evm.finish s.snapshot.1 result s₁ = some (result', s')) :
    Ready evm.reader s' ∧ s'.solid evm.reader = s.solid evm.reader := by
  rcases finish_inv h with ⟨-, rfl⟩ | hrevert
  · exact ⟨hs₁, hsolid⟩
  · have hscope : s₁.InScope evm.reader (.revertToSnapshot s.snapshot.1) := trivial
    exact ⟨hs₁.step hscope rfl hrevert,
      solid_of_view (revert_of_trace hs.wellFormed htrace hrevert)⟩

theorem quiet_guarded {m : EvmM CallResult} (hm : evm.Quiet m)
    (hobeys : ∀ floor, evm.Obedient floor m) :
    evm.Quiet (do
      let snapshot ← evm.snapshot
      let result ← m
      evm.finish snapshot result) := by
  intro s result s' hs h
  obtain ⟨id, s₁, hsnapshot, hrest⟩ := bind_inv h
  obtain ⟨rfl, rfl⟩ := snapshot_inv hsnapshot
  obtain ⟨inner, s₂, hbody, hrest⟩ := bind_inv hrest
  have hs₁ := invariant_snapshot hs
  obtain ⟨hs₂, hsolid⟩ := hm hs₁.1 hbody
  exact finish_solid hs (hobeys _ hs₁ trivial hbody) hs₂ (hsolid.trans (solid_of_view rfl)) hrest

theorem quiet_call {inner : Calls} {input : Bytes} {gas : UInt64}
    (hstray : NoStrayStorage evm.reader) (hinner : evm.QuietCalls inner)
    (hobey : ∀ floor, evm.CallsObey floor inner) (hupgrade : evm.NoUpgrade) :
    evm.Quiet (evm.call (some inner) true caller addr input gas 0) := by
  refine Keeps.bind (.pure _) fun funded => ?_
  split
  · intro s result s' hs h
    obtain ⟨id, s₁, hsnapshot, hrest⟩ := bind_inv h
    obtain ⟨rfl, rfl⟩ := snapshot_inv hsnapshot
    obtain ⟨outcome, s₂, hbody, hrest⟩ := bind_inv hrest
    have hs₁ := invariant_snapshot hs
    obtain ⟨hs₂, hsolid⟩ := quiet_callBody hinner hupgrade hstray hs₁.1 hbody
    cases outcome with
    | returned result' =>
      cases (pure_inv hrest).2
      exact ⟨hs₂, hsolid.trans (solid_of_view rfl)⟩
    | executed result' =>
      have htrace := obeys_callBody (hobey _) hupgrade hs₁ trivial hbody
      exact finish_solid hs htrace hs₂ (hsolid.trans (solid_of_view rfl)) hrest
  · exact .pure _

theorem callsOver_quiet {inner : Calls} (hstray : NoStrayStorage evm.reader)
    (hinner : evm.QuietCalls inner) (hobey : ∀ floor, evm.CallsObey floor inner)
    (hupgrade : evm.NoUpgrade) : evm.QuietCalls (evm.callsOver (some inner)) where
  call _ _ _ _ := quiet_call hstray hinner hobey hupgrade
  callCode caller addr input gas value := by
    refine Keeps.bind (quiet_composes.load _) fun funded => ?_
    split
    · exact quiet_guarded (quiet_execute hinner hupgrade _)
        fun floor => obeys_execute (hobey floor) hupgrade _
    · exact .pure _
  delegateCall _ _ _ _ _ _ := quiet_guarded (quiet_execute hinner hupgrade _)
    fun floor => obeys_execute (hobey floor) hupgrade _
  staticCall readOnly caller addr input gas := by
    have hbody : evm.Quiet (do
        evm.perform (.addBalance addr 0)
        evm.execute inner true caller addr input gas fun code codeHash =>
          ⟨caller, addr, 0, gas, code, codeHash, input, false, false⟩) :=
      (quiet_addBalance hstray).bind fun _ => quiet_execute hinner hupgrade _
    have hguarded := quiet_guarded hbody fun floor =>
      (obeys_plain rfl).bind fun _ => obeys_execute (hobey floor) hupgrade _
    simp only [bind_assoc] at hguarded
    exact hguarded

/-- Under the read-only flag, the calls of every depth change nothing that is solid. -/
theorem calls_quiet (hkeccak : ∀ code, keccak code ≠ zero 32)
    (hstray : NoStrayStorage evm.reader) (hupgrade : evm.NoUpgrade) (levels : ℕ) :
    evm.QuietCalls (evm.calls levels) := by
  induction levels with
  | zero =>
    exact ⟨fun _ _ _ _ => .pure _, fun _ _ _ _ _ => .pure _, fun _ _ _ _ _ _ => .pure _,
      fun _ _ _ _ _ => .pure _⟩
  | succ levels ih =>
    exact callsOver_quiet hstray ih (fun _ => calls_obey hkeccak hupgrade levels) hupgrade

end EVM

/-- A static call, or a call that the interpreter makes below one. -/
inductive StaticContextCall
  | staticCall (readOnly : Bool)
  | call
  | callCode (value : Word)
  | delegateCall (originCaller : Address) (value : Word)

def Calls.inStaticContext (calls : Calls) (caller addr : Address) (input : Bytes) (gas : UInt64) :
    StaticContextCall → EvmM CallResult
  | .staticCall readOnly => calls.staticCall readOnly caller addr input gas
  | .call => calls.call true caller addr input gas 0
  | .callCode value => calls.callCode true caller addr input gas value
  | .delegateCall originCaller value =>
    calls.delegateCall true originCaller caller addr input gas value

theorem EVM.QuietCalls.inStaticContext {evm : EVM keccak} {calls : Calls}
    (h : evm.QuietCalls calls) {caller addr : Address} {input : Bytes} {gas : UInt64}
    (kind : StaticContextCall) : evm.Quiet (calls.inStaticContext caller addr input gas kind) := by
  cases kind with
  | staticCall readOnly => exact h.staticCall _ _ _ _ _
  | call => exact h.call _ _ _ _
  | callCode value => exact h.callCode _ _ _ _ _
  | delegateCall originCaller value => exact h.delegateCall _ _ _ _ _ _

/-- From every reachable state and in every run without upgrades, a static call and the calls below
it leave balances, nonces, code, storage, transient storage, logs and the accounts that are not
empty as they were. -/
theorem static_call_unchanged {evm : EVM keccak}
    (hkeccak : ∀ code, keccak code ≠ FixedBytes.zero 32) (hstray : NoStrayStorage evm.reader)
    {H : List (StateOp × StateDB)} {s s' : StateDB}
    (hreach : Run (fun _ => ScopedStep evm.reader) .new H s) {levels : ℕ}
    {caller addr : Address} {input : Bytes} {gas : UInt64} {result : CallResult}
    {kind : StaticContextCall} (hrun : evm.Unupgraded
      (fun evm => (evm.calls levels).inStaticContext caller addr input gas kind) s)
    (h : (evm.calls levels).inStaticContext caller addr input gas kind s = some (result, s')) :
    s'.solid evm.reader = s.solid evm.reader := by
  have hs : Ready evm.withoutUpgrade.reader s := run_ready hreach
  have hstray' : NoStrayStorage evm.withoutUpgrade.reader := hstray
  have hquiet := EVM.calls_quiet hkeccak hstray' (fun _ => rfl) levels
  exact (hquiet.inStaticContext kind hs (Eq.trans hrun h)).2

namespace Sample

/-- A contract that writes. -/
def writingMachine : EVM taggedHash := machine true fun contract =>
  .write (.sstore (FixedBytes.zero 32) (FixedBytes.ofBytes 32 [1])) (.done ⟨[], contract.gas, none⟩)

/-- A machine on which every input of the hook is an upgrade of the contract. -/
def upgradingMachine : EVM taggedHash :=
  { machine true fun contract => .done ⟨[], contract.gas, none⟩ with
    upgradeTo := fun _ => some (contract, [0xfe]) }

end Sample

open Sample in
/-- A contract that writes is stopped by the flag. -/
theorem static_call_unchanged_write :
    ∃ result s', (writingMachine.calls 2).staticCall false sender contract [] 0 .new =
        some (result, s') ∧ result.err = some .writeProtection ∧
      s'.solid machineReader = StateDB.new.solid machineReader := by
  have hstray : NoStrayStorage writingMachine.reader := fun _ _ => rfl
  obtain ⟨⟨result, s'⟩, hrun, herr⟩ := Option.map_eq_some_iff.mp
    (show ((writingMachine.calls 2).staticCall false sender contract [] 0 .new).map (·.1.err) =
      some (some .writeProtection) from rfl)
  have hupgrade : writingMachine.Unupgraded
      (fun evm => (evm.calls 2).inStaticContext sender contract [] 0 (.staticCall false)) .new :=
    rfl
  exact ⟨result, s', hrun, herr,
    static_call_unchanged taggedHash_ne_zero hstray .start hupgrade hrun⟩

open Sample in
/-- A static call of the hook by the contract of the runtime upgrade replaces code. -/
theorem static_call_upgrades :
    ∃ result s', (upgradingMachine.calls 2).staticCall false runtimeUpgradeContract
        evmHookRuntimeUpgradeAddress [] 0 .new = some (result, s') ∧ result.err = none ∧
      StateDB.new.getCode machineReader contract = contractCode ∧
      s'.getCode machineReader contract = [0xfe] ∧
      s'.solid machineReader ≠ StateDB.new.solid machineReader :=
  ⟨_, _, rfl, rfl, rfl, rfl, fun h =>
    absurd (congrFun (congrArg SolidState.code h) contract) (by decide)⟩

end ChilizChain
