import ChilizChain.State.Seen
import ChilizChain.Vm.Discipline

/-! What a call that fails leaves behind. Most errors lead to the place where the state is taken
back; the report of an inactive contract does not, so that a transfer to it stays. -/

namespace ChilizChain

open StateDB Acting

namespace EVM

variable {keccak : Bytes → Hash} {evm : EVM keccak} {s s' : StateDB} {addr caller : Address}
  {α : Type}

/-! ## What the parts of a call do to what is seen -/

theorem load_view {f : StateDB → α} {a : α} (h : evm.load addr f s = some (a, s')) :
    s'.view evm.reader = s.view evm.reader ∧ a = f s' := by
  obtain ⟨⟨⟩, s₁, hload, hread⟩ := bind_inv h
  obtain ⟨rfl, rfl⟩ := query_inv hread
  cases perform_inv hload
  exact ⟨s.getStateObject_view addr, rfl⟩

theorem exist_view {present : Bool} (h : evm.exist addr s = some (present, s')) :
    s'.view evm.reader = s.view evm.reader ∧ present = s.exist evm.reader addr := by
  obtain ⟨hview, rfl⟩ := load_view h
  exact ⟨hview, by rw [exist_eq, exist_eq, hview]⟩

theorem getCode_view {code : Bytes} (h : evm.getCode addr s = some (code, s')) :
    s'.view evm.reader = s.view evm.reader ∧ code = s.getCode evm.reader addr := by
  obtain ⟨⟨⟩, s₁, hload, hread⟩ := bind_inv h
  obtain ⟨rfl, rfl⟩ := query_inv hread
  cases perform_inv hload
  have hview : (s.loadCode evm.reader addr).view evm.reader = s.view evm.reader :=
    s.loadCode_view addr
  exact ⟨hview, congrFun (congrArg StateAnswers.code (answers_of_view hview)) addr⟩

theorem resolveCode_view {code : Bytes} (h : evm.resolveCode addr s = some (code, s')) :
    s'.view evm.reader = s.view evm.reader ∧ (s.getCode evm.reader addr = [] → code = []) := by
  obtain ⟨own, s₁, hown, hrest⟩ := bind_inv h
  obtain ⟨hview, rfl⟩ := getCode_view hown
  have hsame : ∀ {code}, (pure (s.getCode evm.reader addr) : EvmM Bytes) s₁ = some (code, s') →
      s'.view evm.reader = s.view evm.reader ∧ (s.getCode evm.reader addr = [] → code = []) := by
    intro code hpure
    obtain ⟨rfl, rfl⟩ := pure_inv hpure
    exact ⟨hview, id⟩
  split at hrest
  · cases hdelegated : parseDelegation (s.getCode evm.reader addr) with
    | some target =>
      rw [hdelegated] at hrest
      refine ⟨(getCode_view hrest).1.trans hview, fun hempty => ?_⟩
      rw [hempty] at hdelegated
      cases hdelegated
    | none =>
      rw [hdelegated] at hrest
      exact hsame hrest
  · exact hsame hrest

variable {recipient : Address} {amount : Word} {u : Unit}

section

variable (h : evm.transfer caller recipient amount s = some (u, s'))
include h

theorem transfer_inv :
    s' = (s.subBalance evm.reader caller amount).addBalance evm.reader recipient amount := by
  obtain ⟨⟨⟩, s₁, hsub, hadd⟩ := bind_inv h
  cases perform_inv hsub
  cases perform_inv hadd
  rfl

theorem transfer_view (hcaller : s.exist evm.reader caller = true)
    (hrecipient : s.exist evm.reader recipient = true) (hsame : amount = 0 ∨ caller = recipient) :
    s'.view evm.reader = s.view evm.reader := by
  obtain ⟨acc, hacc⟩ := seen_of_exist hcaller
  cases transfer_inv h
  rw [addBalance_view]
  rcases hsame with rfl | rfl
  · have hsub : (s.subBalance evm.reader caller 0).view evm.reader = s.view evm.reader := by
      rw [subBalance_view, show (s.account evm.reader caller).balance - (0 : Word) = _ from
        BitVec.sub_zero _, setAccount_account hacc]
    obtain ⟨acc', hacc'⟩ := seen_of_exist hrecipient
    rw [show ∀ b : Word, b + 0 = b from BitVec.add_zero]
    rw [← hsub] at hacc'
    rw [setAccount_account hacc', hsub]
  · have hset : ((s.subBalance evm.reader caller amount).view evm.reader).accounts caller =
        some { acc with balance := acc.balance - amount } := by
      rw [subBalance_view, account_of_seen hacc, setAccount_seen]
    rw [account_of_seen hset, subBalance_view, setAccount_idem]
    rw [show acc.balance - amount + amount = acc.balance from BitVec.sub_add_cancel _ _]
    exact StateView.setAccount_self hacc

/-- A transfer between accounts shows. -/
theorem stake_of_transfer (hrecipient : s.exist evm.reader recipient = true)
    (hanswers : s'.answers evm.reader = s.answers evm.reader) :
    s.exist evm.reader caller = true ∧ (amount = 0 ∨ caller = recipient) := by
  have hexist : s'.exist evm.reader caller = s.exist evm.reader caller :=
    congrFun (congrArg StateAnswers.exist hanswers) caller
  cases transfer_inv h
  by_cases hsame : caller = recipient
  · exact ⟨hsame ▸ hrecipient, .inr hsame⟩
  · rw [← hexist, exist_eq, addBalance_view, StateView.setAccount_of_ne hsame, subBalance_view,
      setAccount_seen]
    refine ⟨rfl, .inl ?_⟩
    obtain ⟨acc, hacc⟩ := seen_of_exist hrecipient
    have hother : ((s.subBalance evm.reader caller amount).view evm.reader).accounts recipient =
        some acc := by
      rw [subBalance_view, StateView.setAccount_of_ne (Ne.symm hsame), hacc]
    have hbalance := congrFun (congrArg StateAnswers.balance hanswers) recipient
    rw [answers_eq, answers_eq] at hbalance
    simp only [addBalance_view, setAccount_seen, account_of_seen hother, hacc,
      Option.elim_some] at hbalance
    simpa using hbalance

theorem transfer_getCode (addr : Address) :
    s'.getCode evm.reader addr = s.getCode evm.reader addr := by
  cases transfer_inv h
  rw [getCode_setAccount (addBalance_view _ _ _) rfl,
    getCode_setAccount (subBalance_view _ _ _) rfl]

end

section Inner

variable {inner : Calls} {readOnly : Bool} {input code : Bytes} {gas : UInt64} {value : Word}

/-! ## The check of a callee -/

/-- A callee is found inactive only where it is checked, and then the state is as the call of the
deployer proxy left it. -/
theorem checkInvocation_inv {err : VmError}
    (h : evm.checkInvocation inner readOnly addr s = some (some err, s')) :
    evm.deployerProxyHooksActive = true ∧ isSystemContract addr = false ∧
      (s' = s ∨ ∃ input result, result.err ≠ none ∧
        inner.call readOnly evm.coinbase deployerProxyContractAddress input 1000000 0 s =
          some (result, s')) := by
  unfold checkInvocation at h
  split at h
  · rename_i hactive
    unfold applyChilizInvocationEvmHook at h
    split at h
    · cases (pure_inv h).1
    · rename_i hsystem
      refine ⟨hactive, by simpa using hsystem, ?_⟩
      cases hpacked : evm.checkContractActive addr with
      | none =>
        rw [hpacked] at h
        exact .inl (pure_inv h).2
      | some input =>
        rw [hpacked] at h
        obtain ⟨result, s₁, hcall, hpure⟩ := bind_inv h
        obtain ⟨herr, rfl⟩ := pure_inv hpure
        refine .inr ⟨input, result, fun hnone => ?_, hcall⟩
        rw [hnone] at herr
        cases herr
  · cases (pure_inv h).1

variable {result : CallResult}

/-- The part of a call from the transfer on ends at once only for a contract that is inactive. -/
theorem callTransfer_returned (h : evm.callTransfer inner readOnly caller addr input gas value s =
      some (.returned result, s')) : evm.isPrecompile addr = false ∧ ∃ s₁ s₂ code err,
      evm.transfer caller addr value s = some ((), s₁) ∧
      evm.resolveCode addr s₁ = some (code, s₂) ∧ code ≠ [] ∧
      evm.checkInvocation inner readOnly addr s₂ = some (some err, s') := by
  obtain ⟨⟨⟩, s₁, htransfer, hrest⟩ := bind_inv h
  split at hrest
  · obtain ⟨_, _, -, hpure⟩ := bind_inv hrest
    cases (pure_inv hpure).1
  · rename_i hprecompile
    refine ⟨by simpa using hprecompile, s₁, ?_⟩
    obtain ⟨code, s₂, hcode, hrest⟩ := bind_inv hrest
    split at hrest
    · cases (pure_inv hrest).1
    · rename_i hne
      obtain ⟨inactive, s₃, hcheck, hrest⟩ := bind_inv hrest
      cases inactive with
      | some err =>
        cases (pure_inv hrest).2
        exact ⟨s₂, code, err, htransfer, hcode, hne, hcheck⟩
      | none =>
        obtain ⟨_, _, -, hrest⟩ := bind_inv hrest
        obtain ⟨_, _, -, hrest⟩ := bind_inv hrest
        cases (pure_inv hrest).1

/-! ## Calls that fail -/

/-- What a call has done when it finds its callee inactive: the value is transferred. -/
inductive FindsInactive (evm : EVM keccak) (inner : Calls) (readOnly : Bool)
    (caller addr : Address) (value : Word) (s s' : StateDB) : Prop
  | intro (s₁ s₂ s₃ s₄ s₅ : StateDB) (code : Bytes) (err : VmError)
      (funded : evm.isFunded caller value s = some (true, s₁))
      (warmed : evm.warmDeployerProxyOnHookDispatch addr s₁.snapshot.2 = some ((), s₂))
      (present : evm.exist addr s₂ = some (true, s₃)) (isContract : evm.isPrecompile addr = false)
      (transferred : evm.transfer caller addr value s₃ = some ((), s₄))
      (resolved : evm.resolveCode addr s₄ = some (code, s₅)) (hasCode : code ≠ [])
      (checked : evm.checkInvocation inner readOnly addr s₅ = some (some err, s')) :
      evm.FindsInactive inner readOnly caller addr value s s'

theorem FindsInactive.call (input : Bytes) (gas : UInt64)
    (h : evm.FindsInactive inner readOnly caller addr value s s') :
    ∃ result, evm.call (some inner) readOnly caller addr input gas value s = some (result, s') := by
  obtain ⟨s₁, s₂, s₃, s₄, s₅, code, err, funded, warmed, present, isContract, transferred,
    resolved, hasCode, checked⟩ := h
  have hbody : evm.callBody inner readOnly caller addr input gas value s₁.snapshot.2 =
      some (.returned (.failed gas err), s') := by
    unfold callBody callTransfer
    rw [bind_of warmed, bind_of present, if_pos rfl, bind_of transferred, isContract,
      if_neg Bool.false_ne_true, bind_of resolved, if_neg hasCode, bind_of checked]
    rfl
  refine ⟨.failed gas err, ?_⟩
  unfold EVM.call
  dsimp only
  rw [bind_of funded, if_pos rfl]
  unfold callSnapshot
  rw [bind_of rfl, bind_of hbody]
  rfl

theorem callTransfer_created_returned
    (h : evm.callTransfer inner readOnly caller addr input gas value
      (s.createAccount keccak addr) = some (.returned result, s')) : False := by
  obtain ⟨-, s₁, s₂, code, err, htransfer, hcode, hne, -⟩ := callTransfer_returned h
  refine hne ((resolveCode_view hcode).2 ?_)
  rw [transfer_getCode htransfer, getCode_elim, createAccount_view, setAccount_seen]
  exact s.freshAccount_code addr

/-- Of the errors, only the report of an inactive callee ends a call at once. -/
theorem findsInactive_of_returned {s₁ : StateDB}
    (hfunded : evm.isFunded caller value s = some (true, s₁))
    (h : evm.callBody inner readOnly caller addr input gas value s₁.snapshot.2 =
      some (.returned result, s')) (herr : result.err ≠ none) :
    evm.FindsInactive inner readOnly caller addr value s s' := by
  obtain ⟨⟨⟩, s₂, hwarm, hrest⟩ := bind_inv h
  obtain ⟨present, s₃, hexist, hrest⟩ := bind_inv hrest
  split at hrest
  · rename_i hpresent
    obtain ⟨hcontract, s₄, s₅, code, err, htransfer, hcode, hne, hcheck⟩ :=
      callTransfer_returned hrest
    exact ⟨s₁, s₂, s₃, s₄, s₅, code, err, hfunded, hwarm, hpresent ▸ hexist, hcontract, htransfer,
      hcode, hne, hcheck⟩
  · obtain ⟨wgas, s₄, -, hrest⟩ := bind_inv hrest
    split at hrest
    · cases (pure_inv hrest).1
    · split at hrest
      · cases (pure_inv hrest).1
        exact absurd rfl herr
      · obtain ⟨⟨⟩, s₅, hcreate, hrest⟩ := bind_inv hrest
        cases perform_inv hcreate
        exact (callTransfer_created_returned hrest).elim

theorem finish_inv {id : ℕ} {s₁ : StateDB} {result' : CallResult}
    (h : evm.finish id result s₁ = some (result', s')) :
    result'.err = none ∧ s' = s₁ ∨ s₁.revertToSnapshot evm.reader id = some s' := by
  unfold finish at h
  cases hresult : result.err with
  | none =>
    rw [hresult] at h
    obtain ⟨rfl, rfl⟩ := pure_inv h
    exact .inl ⟨hresult, rfl⟩
  | some err =>
    rw [hresult] at h
    obtain ⟨⟨⟩, s₂, hrevert, hpure⟩ := bind_inv h
    cases (pure_inv hpure).2
    exact .inr (perform_inv hrevert)

theorem isFunded_view {funded : Bool} (h : evm.isFunded caller value s = some (funded, s')) :
    s'.view evm.reader = s.view evm.reader ∧ (Ready evm.reader s → Ready evm.reader s') := by
  unfold isFunded at h
  split at h
  · cases (pure_inv h).2
    exact ⟨rfl, id⟩
  · exact ⟨(load_view h).1, fun hs => ready_of_obeys (obeys_load _) hs h⟩

/-- The state is that after the transfer, if a failed call of the deployer proxy leaves no trace. -/
theorem FindsInactive.view (hs : Ready evm.reader s)
    (hproxy : ∀ {input result s₁ s₂}, Ready evm.reader s₁ → result.err ≠ none →
      inner.call readOnly evm.coinbase deployerProxyContractAddress input 1000000 0 s₁ =
        some (result, s₂) → s₂.view evm.reader = s₁.view evm.reader)
    (h : evm.FindsInactive inner readOnly caller addr value s s') :
    ∃ s₃ s₄, s₃.view evm.reader = s.view evm.reader ∧ s₃.exist evm.reader addr = true ∧
      evm.transfer caller addr value s₃ = some ((), s₄) ∧
      s'.view evm.reader = s₄.view evm.reader := by
  obtain ⟨s₁, s₂, s₃, s₄, s₅, code, err, funded, warmed, present, isContract, transferred,
    resolved, -, checked⟩ := h
  obtain ⟨hview₁, hready⟩ := isFunded_view funded
  -- the hook is not a contract, so nothing was warmed
  have hsame : s₂ = s₁.snapshot.2 := by
    unfold warmDeployerProxyOnHookDispatch at warmed
    rw [(Bool.or_eq_false_iff.mp isContract).1] at warmed
    exact (pure_inv warmed).2
  subst hsame
  obtain ⟨hview₃, hpresent⟩ := exist_view present
  have hs₃ := ready_of_obeys (obeys_load _) (invariant_snapshot (hready hs)).1 present
  have hexist : s₃.exist evm.reader addr = true := by
    rw [exist_eq, hview₃, ← exist_eq, ← hpresent]
  refine ⟨s₃, s₄, hview₃.trans hview₁, hexist, transferred, ?_⟩
  have hview₅ := (resolveCode_view resolved).1
  rcases (checkInvocation_inv checked).2.2 with rfl | ⟨input, result, herr, hcall⟩
  · exact hview₅
  · have hs₄ := ready_of_obeys obeys_transfer hs₃ transferred
    exact (hproxy (ready_of_obeys obedient_composes.resolveCode hs₄ resolved) herr hcall).trans
      hview₅

end Inner

variable (evm) in
/-- The call finds its callee inactive. -/
def Inactive (levels : ℕ) (readOnly : Bool) (caller addr : Address) (value : Word) (s : StateDB) :
    Prop :=
  ∃ below s', levels = below + 1 ∧
    evm.FindsInactive (evm.calls below) readOnly caller addr value s s'

section Levels

variable (hkeccak : ∀ code, keccak code ≠ FixedBytes.zero 32) (hupgrade : evm.NoUpgrade)
  {levels : ℕ} {readOnly : Bool} {input : Bytes} {gas : UInt64} {value : Word}
  {result : CallResult} (hs : Ready evm.reader s) (herr : result.err ≠ none)
include hkeccak hupgrade hs herr

/-- Without upgrades, a call that fails leaves what is seen as it was unless it finds its callee
inactive. -/
theorem call_view
    (h : (evm.calls levels).call readOnly caller addr input gas value s = some (result, s')) :
    s'.view evm.reader = s.view evm.reader ∨ ∃ below, levels = below + 1 ∧
      evm.FindsInactive (evm.calls below) readOnly caller addr value s s' := by
  cases levels with
  | zero =>
    cases (pure_inv h).2
    exact .inl rfl
  | succ levels =>
    obtain ⟨funded, s₁, hfunded, hrest⟩ := bind_inv h
    obtain ⟨hview, hready⟩ := isFunded_view hfunded
    split at hrest
    · rename_i htrue
      obtain ⟨id, s₂, hsnapshot, hrest⟩ := bind_inv hrest
      obtain ⟨rfl, rfl⟩ := snapshot_inv hsnapshot
      obtain ⟨outcome, s₃, hbody, hrest⟩ := bind_inv hrest
      cases outcome with
      | executed result' =>
        have htrace := obeys_callBody (calls_obey hkeccak hupgrade levels) hupgrade
          (invariant_snapshot (hready hs)) trivial hbody
        rcases finish_inv hrest with ⟨hnone, -⟩ | hrevert
        · exact absurd hnone herr
        · exact .inl ((revert_of_trace (hready hs).wellFormed htrace hrevert).trans hview)
      | returned result' =>
        obtain ⟨rfl, rfl⟩ := pure_inv hrest
        exact .inr ⟨levels, rfl, findsInactive_of_returned (htrue ▸ hfunded) hbody herr⟩
    · cases (pure_inv hrest).2
      exact .inl hview

/-- The deployer proxy is a system contract, so a call of it is not checked itself. -/
theorem call_proxy_view
    (h : (evm.calls levels).call readOnly caller deployerProxyContractAddress input gas value s =
      some (result, s')) : s'.view evm.reader = s.view evm.reader := by
  rcases call_view hkeccak hupgrade hs herr h with hview | ⟨below, -, hinactive⟩
  · exact hview
  · obtain ⟨_, _, _, _, _, _, _, -, -, -, -, -, -, -, checked⟩ := hinactive
    cases (checkInvocation_inv checked).2.1

theorem call_unchanged_iff
    (h : (evm.calls levels).call readOnly caller addr input gas value s = some (result, s')) :
    s'.answers evm.reader = s.answers evm.reader ↔
      (evm.Inactive levels readOnly caller addr value s →
        s.exist evm.reader caller = true ∧ (value = 0 ∨ caller = addr)) := by
  constructor
  · rintro hanswers ⟨below, s'', rfl, hinactive⟩
    obtain ⟨result', hcall⟩ := hinactive.call input gas
    cases h.symm.trans hcall
    obtain ⟨s₃, s₄, hview, hexist, htransfer, hend⟩ :=
      hinactive.view hs (call_proxy_view hkeccak hupgrade)
    have hstake := stake_of_transfer htransfer hexist
      ((answers_of_view hend).symm.trans (hanswers.trans (answers_of_view hview).symm))
    rwa [exist_eq, hview, ← exist_eq] at hstake
  · intro hstake
    refine answers_of_view ?_
    rcases call_view hkeccak hupgrade hs herr h with hview | ⟨below, hlevels, hinactive⟩
    · exact hview
    · obtain ⟨hcaller, hsame⟩ := hstake ⟨below, s', hlevels, hinactive⟩
      obtain ⟨s₃, s₄, hview, hexist, htransfer, hend⟩ :=
        hinactive.view hs (call_proxy_view hkeccak hupgrade)
      rw [exist_eq, ← hview, ← exist_eq] at hcaller
      exact hend.trans ((transfer_view htransfer hcaller hexist hsame).trans hview)

end Levels

end EVM

/-- From every reachable state and in every run without upgrades, a call that fails leaves the
answers of all getters as they were exactly if it does not find its callee inactive or nothing is at
stake then: the caller exists, and the value is zero or goes back to the caller. -/
theorem call_failed_unchanged {keccak : Bytes → Hash} {evm : EVM keccak}
    (hkeccak : ∀ code, keccak code ≠ FixedBytes.zero 32) {H : List (StateOp × StateDB)}
    {s s' : StateDB} (hreach : Run (fun _ => ScopedStep evm.reader) .new H s) {levels : ℕ}
    {readOnly : Bool} {caller addr : Address} {input : Bytes} {gas : UInt64} {value : Word}
    {result : CallResult} (hrun : evm.Unupgraded
      (fun evm => (evm.calls levels).call readOnly caller addr input gas value) s)
    (h : (evm.calls levels).call readOnly caller addr input gas value s = some (result, s'))
    (herr : result.err ≠ none) : s'.answers evm.reader = s.answers evm.reader ↔
      (evm.withoutUpgrade.Inactive levels readOnly caller addr value s →
        s.exist evm.reader caller = true ∧ (value = 0 ∨ caller = addr)) := by
  have hs : Ready evm.withoutUpgrade.reader s := run_ready hreach
  exact EVM.call_unchanged_iff hkeccak (fun _ => rfl) hs herr (Eq.trans hrun h)

/-! ## A machine with an inactive contract -/

namespace Sample

/-- A stand-in for the hash that is never zero. -/
def taggedHash (code : Bytes) : Hash := FixedBytes.ofBytes 32 [1, UInt8.ofNat code.length]

theorem taggedHash_ne_zero (code : Bytes) : taggedHash code ≠ FixedBytes.zero 32 := by
  intro h
  have htag : some (1 : UInt8) = some 0 := congrArg (fun hash : Hash => hash.bytes[30]?) h
  exact absurd htag (by decide)

def sender : Address := FixedBytes.ofBytes 20 [0xaa]

/-- A sender with some balance, a contract, and the deployer proxy. -/
def machineReader : Reader taggedHash where
  account addr :=
    if addr = sender then
      some ⟨1, 10, emptyRootHash taggedHash, emptyCodeHash taggedHash⟩
    else if addr = contract ∨ addr = deployerProxyContractAddress then
      some ⟨1, 0, emptyRootHash taggedHash, taggedHash contractCode⟩
    else none
  storage _ _ := FixedBytes.zero 32
  code hash := if hash = taggedHash contractCode then contractCode else []
  keccak_code := by
    intro addr acct h hne
    split at h
    · cases h
      exact absurd rfl hne
    · split at h
      · cases h
        rfl
      · cases h

/-- A machine with or without hooks, on which every contract does the same. -/
def machine (hooks : Bool) (interpreter : Contract → Program) : EVM taggedHash where
  reader := machineReader
  rules := ⟨true, true, true, false, true, true, true, hooks, true, true, true, false⟩
  coinbase := FixedBytes.ofBytes 20 [0xbb]
  origin := sender
  precompiles _ := none
  interpreter := interpreter
  upgradeTo _ := none
  checkContractActive _ := some []
  registerDeployedContract _ _ := some []
  createAddress _ _ := FixedBytes.ofBytes 20 [0xdd]
  createAddress2 _ _ _ := FixedBytes.ofBytes 20 [0xee]
  codeHashGas _ _ _ := 0
  contractCreatePreCheckGas _ _ _ := 0
  contractCreateInitGas _ _ _ := (0, 0)
  codeChunksRangeGas _ _ _ _ := (0, 0)

/-- Every contract reverts, the deployer proxy too. -/
def inactiveMachine : EVM taggedHash := machine true fun _ => .done (.failed 0 .executionReverted)

end Sample

open Sample in
/-- A call without value of a contract that is inactive. -/
theorem call_failed_unchanged_inactive :
    ∃ result s', (inactiveMachine.calls 2).call false sender contract [] 0 0 .new =
        some (result, s') ∧ result.err = some .notAllowed ∧
      s'.answers machineReader = StateDB.new.answers machineReader := by
  obtain ⟨⟨result, s'⟩, hrun, herr⟩ := Option.map_eq_some_iff.mp
    (show ((inactiveMachine.calls 2).call false sender contract [] 0 0 .new).map (·.1.err) =
      some (some .notAllowed) from rfl)
  refine ⟨result, s', hrun, herr, ?_⟩
  have hfailed : result.err ≠ none := herr ▸ nofun
  have hupgrade : inactiveMachine.Unupgraded
      (fun evm => (evm.calls 2).call false sender contract [] 0 0) .new := rfl
  exact (call_failed_unchanged taggedHash_ne_zero .start hupgrade hrun hfailed).mpr
    fun _ => ⟨rfl, .inl rfl⟩

open Sample in
/-- The value of a call of a contract that is inactive stays transferred although the call fails. -/
theorem call_inactive_transfers :
    ∃ result s', (inactiveMachine.calls 2).call false sender contract [] 0 5 .new =
        some (result, s') ∧ result.err = some .notAllowed ∧
      StateDB.new.getBalance machineReader sender = 10 ∧ s'.getBalance machineReader sender = 5 ∧
      StateDB.new.getBalance machineReader contract = 0 ∧ s'.getBalance machineReader contract = 5 ∧
      s'.answers machineReader ≠ StateDB.new.answers machineReader :=
  ⟨_, _, rfl, rfl, rfl, rfl, rfl, rfl, fun h =>
    absurd (congrFun (congrArg StateAnswers.balance h) contract) (by decide)⟩

end ChilizChain
