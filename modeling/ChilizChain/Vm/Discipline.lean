import ChilizChain.State.Loaded
import ChilizChain.Vm.Evm

/-! The machine keeps to the discipline of the journal: it creates accounts only where there are
none, it goes back only to its own snapshots, and, as long as the runtime upgrade is not used, it
replaces only code that has been loaded. -/

namespace ChilizChain

open StateDB FixedBytes

/-- Calls that may be made in every state: they create no account, replace no code and go back to
no snapshot. -/
def StateOp.Plain : StateOp → Bool
  | .createAccount _ | .setCode _ _ | .revertToSnapshot _ | .nextTransaction .. => false
  | _ => true

/-- Calls that go back to no snapshot below `floor`. -/
def StateOp.Since (floor : ℕ) : StateOp → Prop
  | .revertToSnapshot revid => floor ≤ revid
  | .nextTransaction .. => False
  | _ => True

theorem StateOp.Since.isNextTransaction {floor : ℕ} {op : StateOp} (h : op.Since floor) :
    op.IsNextTransaction = false := by
  cases op with
  | nextTransaction _ _ _ _ _ => exact h.elim
  | _ => rfl

theorem StateOp.Since.after {id : ℕ} {op : StateOp} (h : op.Since (id + 1)) : op.After id := by
  cases op <;> exact h

variable {keccak : Bytes → Hash}

namespace EVM

variable (evm : EVM keccak)

/-- The machine whose hook refuses every upgrade. -/
def withoutUpgrade : EVM keccak := { evm with upgradeTo := fun _ => none }

/-- No call of the run is an upgrade: the machine whose hook refuses them all makes the same run. -/
def Unupgraded {α : Type} (m : EVM keccak → EvmM α) (s : StateDB) : Prop :=
  m evm.withoutUpgrade s = m evm s

/-- The two machines differ only where the contract of the runtime upgrade asks for an upgrade. -/
theorem runPrecompiledContract_withoutUpgrade {caller addr : Address} {input : Bytes} {gas : UInt64}
    (h : evm.rules.hasRuntimeUpgrade = true → caller = runtimeUpgradeContract →
      isEvmHook addr = true → evm.upgradeTo input = none) :
    evm.withoutUpgrade.runPrecompiledContract caller addr input gas =
      evm.runPrecompiledContract caller addr input gas := by
  unfold runPrecompiledContract
  split
  · rename_i hhook
    have hsame : evm.withoutUpgrade.evmHookRuntimeUpgrade caller input =
        evm.evmHookRuntimeUpgrade caller input := by
      unfold evmHookRuntimeUpgrade
      cases hrules : evm.rules.hasRuntimeUpgrade with
      | false => simp [withoutUpgrade, hrules]
      | true =>
        by_cases hcaller : caller = runtimeUpgradeContract
        · simp [withoutUpgrade, hrules, hcaller, h hrules hcaller hhook]
        · simp [withoutUpgrade, hrules, hcaller]
    rw [hsame]
  · rfl

/-- The hook refuses every upgrade. -/
def NoUpgrade : Prop := ∀ input, evm.upgradeTo input = none

/-- The discipline of the journal, where no snapshot below `floor` is gone back to. -/
def discipline (floor : ℕ) : Discipline StateDB StateOp where
  step := StateDB.step evm.reader
  scope s op := s.InScope evm.reader op ∧ s.CodeLoadedFor evm.reader op ∧ op.Since floor
  invariant s := Ready evm.reader s ∧ floor ≤ s.journal.nextRevisionId
  invariant_step := by
    rintro s op s' ⟨hs, hfloor⟩ ⟨hscope, -, hsince⟩ h
    have hop := hsince.isNextTransaction
    exact ⟨hs.step hscope hop h,
      hfloor.trans (step_nextRevisionId_le hs.wellFormed hscope hop h)⟩

variable {evm} {floor : ℕ} {pre : StateDB → Prop} {op : StateOp} {addr caller : Address}
  {α β : Type}

variable (evm floor) in
/-- The computation keeps to the discipline from every state. -/
abbrev Obedient (m : EvmM α) : Prop := (evm.discipline floor).Obeys (fun _ => True) m

/-! ## Getters and setters -/

theorem obeys_plain (hop : op.Plain = true) :
    (evm.discipline floor).Obeys pre (evm.perform op) := by
  refine .perform fun s _ => ?_
  cases op with
  | createAccount _ | setCode _ _ | revertToSnapshot _ | nextTransaction _ _ _ _ _ => cases hop
  | _ => exact ⟨trivial, trivial, trivial⟩

theorem obeys_load (f : StateDB → α) : (evm.discipline floor).Obeys pre (evm.load addr f) :=
  (obeys_plain rfl).bind fun _ => .query f

theorem obeys_load_bind {f : StateDB → α} {g : α → EvmM β}
    (hpre : (evm.discipline floor).Stable pre)
    (h : ∀ a, (evm.discipline floor).Obeys (fun s => pre s ∧ f s = a) (g a)) :
    (evm.discipline floor).Obeys pre (evm.load addr f >>= g) := by
  unfold load
  rw [bind_assoc]
  exact hpre.bind (obeys_plain rfl) fun _ => .query_bind h

theorem obeys_transfer {recipient : Address} {amount : Word} :
    (evm.discipline floor).Obeys pre (evm.transfer caller recipient amount) :=
  (obeys_plain rfl).bind fun _ => obeys_plain rfl

theorem codeLoadedAt_stable : (evm.discipline floor).Stable (CodeLoadedAt evm.reader addr) := by
  rintro s op s' ⟨hs, -⟩ ⟨⟨hscope, -, hsince⟩, hstep⟩ hloaded
  exact (step_retains hs hscope hsince.isNextTransaction hstep).loaded addr hloaded

theorem obeys_setCode {code : Bytes} :
    (evm.discipline floor).Obeys (CodeLoadedAt evm.reader addr)
    (evm.perform (.setCode addr code)) :=
  .perform fun _ hs => ⟨trivial, hs, trivial⟩

/-! ## Snapshots -/

theorem obeys_snapshot_bind {f : ℕ → EvmM β} (hpre : (evm.discipline floor).Stable pre)
    (h : ∀ new, floor ≤ new → (evm.discipline floor).Obeys pre (f new)) :
    (evm.discipline floor).Obeys pre (evm.snapshot >>= f) := by
  unfold snapshot
  rw [bind_assoc]
  refine .query_bind fun new s b s' hs hnew => ?_
  have hlater : floor ≤ new := hnew.2 ▸ hs.2
  rw [bind_assoc]
  exact hpre.bind (obeys_plain rfl) (fun _ => h new hlater) hs hnew.1

variable {new : ℕ}

theorem obeys_revert (hnew : floor ≤ new) :
    (evm.discipline floor).Obeys pre (evm.perform (.revertToSnapshot new)) :=
  .perform fun _ _ => ⟨trivial, trivial, hnew⟩

theorem obeys_finish (hnew : floor ≤ new) (result : CallResult) :
    (evm.discipline floor).Obeys pre (evm.finish new result) := by
  unfold finish
  split
  · exact .pure _
  · exact (obeys_revert hnew).bind fun _ => .pure _

theorem obeys_finishCreate (hnew : floor ≤ new) (address : Address) (result : CallResult) :
    (evm.discipline floor).Obeys pre (evm.finishCreate new address result) := by
  unfold finishCreate
  split
  · exact .pure _
  · split
    · exact (obeys_revert hnew).bind fun _ => .pure _
    · exact .pure _

/-! ## Precompiled contracts -/

theorem runPrecompiledContract_eq_pure {input : Bytes} {gas : UInt64} (hupgrade : evm.NoUpgrade) :
    ∃ result, evm.runPrecompiledContract caller addr input gas = pure result := by
  unfold runPrecompiledContract
  split
  · have hrefused : ∃ err, evm.evmHookRuntimeUpgrade caller input = pure (.error err) := by
      unfold evmHookRuntimeUpgrade
      split
      · exact ⟨_, rfl⟩
      · split
        · exact ⟨_, rfl⟩
        · rw [hupgrade input]
          exact ⟨_, rfl⟩
    obtain ⟨err, hrefused⟩ := hrefused
    rw [hrefused, pure_bind]
    exact ⟨_, rfl⟩
  · split
    · exact ⟨_, rfl⟩
    · split
      · exact ⟨_, rfl⟩
      · split
        · exact ⟨_, rfl⟩
        · exact ⟨_, rfl⟩

/-! ## How the machine puts computations together -/

variable (evm) in
/-- A property of computations that the machine keeps when it puts them together. -/
structure Composes (P : ∀ {α : Type}, EvmM α → Prop) : Prop where
  pure : ∀ {α : Type} (a : α), P (pure a)
  query : ∀ {α : Type} (f : StateDB → α), P (Acting.query f)
  bind : ∀ {α β : Type} {m : EvmM α} {f : α → EvmM β}, P m → (∀ a, P (f a)) → P (m >>= f)
  access : ∀ op : AccessOp, P (evm.perform op.toStateOp)

namespace Composes

variable {P : ∀ {α : Type}, EvmM α → Prop} (h : evm.Composes P) {inner : Calls} {ro : Bool}
  {input : Bytes} {gas : UInt64} {value : Word}
include h

theorem load (f : StateDB → α) : P (evm.load addr f) :=
  h.bind (h.access (.account addr)) fun _ => h.query f

theorem getCode : P (evm.getCode addr) := h.bind (h.access (.code addr)) fun _ => h.query _

theorem resolveCode : P (evm.resolveCode addr) := by
  refine h.bind h.getCode fun code => ?_
  split
  · split
    · exact h.getCode
    · exact h.pure _
  · exact h.pure _

theorem resolveCodeHash : P (evm.resolveCodeHash addr) := by
  unfold EVM.resolveCodeHash
  split
  · refine h.bind h.getCode fun code => ?_
    split
    · exact h.load _
    · exact h.load _
  · exact h.load _

theorem warm : P (evm.warmDeployerProxyOnHookDispatch addr) := by
  unfold warmDeployerProxyOnHookDispatch
  split
  · exact h.access (.warmAddress _)
  · exact h.pure _

theorem checkInvocation (hcall : ∀ input, P (inner.call ro evm.coinbase
      deployerProxyContractAddress input 1000000 0)) : P (evm.checkInvocation inner ro addr) := by
  unfold EVM.checkInvocation
  split
  · unfold applyChilizInvocationEvmHook
    split
    · exact h.pure _
    · split
      · exact h.pure _
      · exact h.bind (hcall _) fun _ => h.pure _
  · exact h.pure _

variable (hrun : ∀ contract program, P (evm.run inner ro contract program))
include hrun

theorem interpret (contract : Contract) : P (evm.interpret inner ro contract) := by
  unfold EVM.interpret
  split
  · exact h.pure _
  · exact hrun _ _

variable (hupgrade : evm.NoUpgrade)
include hupgrade

theorem execute (contract : Bytes → Hash → Contract) :
    P (evm.execute inner ro caller addr input gas contract) := by
  unfold EVM.execute
  split
  · obtain ⟨result, hpure⟩ := runPrecompiledContract_eq_pure hupgrade
    rw [hpure]
    exact h.pure result
  · exact h.bind h.resolveCodeHash fun codeHash => h.bind h.resolveCode fun code =>
      h.interpret hrun _

theorem callTransfer (htransfer : P (evm.transfer caller addr value))
    (hcall : ∀ input, P (inner.call ro evm.coinbase deployerProxyContractAddress input 1000000 0)) :
    P (evm.callTransfer inner ro caller addr input gas value) := by
  refine h.bind htransfer fun _ => ?_
  split
  · obtain ⟨result, hpure⟩ := runPrecompiledContract_eq_pure hupgrade
    rw [hpure]
    exact h.bind (h.pure result) fun _ => h.pure _
  · refine h.bind h.resolveCode fun code => ?_
    split
    · exact h.pure _
    · refine h.bind (h.checkInvocation hcall) fun inactive => ?_
      split
      · exact h.pure _
      · exact h.bind h.resolveCodeHash fun codeHash =>
          h.bind (h.interpret hrun _) fun _ => h.pure _

end Composes

theorem obedient_composes : evm.Composes (evm.Obedient floor) where
  pure := .pure
  query := .query
  bind := .bind
  access op := obeys_plain (by cases op <;> rfl)

/-! ## Calls at some depth -/

variable (evm floor) in
/-- The calls keep to the discipline. -/
structure CallsObey (calls : Calls) : Prop where
  call : ∀ readOnly caller addr input gas value,
    evm.Obedient floor (calls.call readOnly caller addr input gas value)
  callCode : ∀ readOnly caller addr input gas value,
    evm.Obedient floor (calls.callCode readOnly caller addr input gas value)
  delegateCall : ∀ readOnly originCaller caller addr input gas value,
    evm.Obedient floor (calls.delegateCall readOnly originCaller caller addr input gas value)
  staticCall : ∀ readOnly caller addr input gas,
    evm.Obedient floor (calls.staticCall readOnly caller addr input gas)
  create : ∀ readOnly caller code gas value,
    evm.Obedient floor (calls.create readOnly caller code gas value)
  create2 : ∀ readOnly caller code gas endowment salt,
    evm.Obedient floor (calls.create2 readOnly caller code gas endowment salt)

section Inner

variable {inner : Calls} {ro : Bool} {input code : Bytes} {gas : UInt64} {value : Word}

theorem obeys_prepareContract : evm.Obedient floor (evm.prepareContract addr) := by
  have hcontract : evm.Obedient floor (do
      evm.perform (.createContract addr)
      if evm.rules.isEIP158 then evm.perform (.setNonce addr 1)) := by
    refine (obeys_plain rfl).bind fun _ => ?_
    split
    · exact obeys_plain rfl
    · exact .pure _
  refine obeys_load_bind (fun _ _ _ _ _ _ => trivial) fun present => ?_
  dsimp only
  split
  · rename_i habsent
    refine Discipline.Obeys.bind (.perform fun s hs => ?_) fun _ => hcontract
    exact ⟨hs.2.trans (by simpa using habsent), trivial, trivial⟩
  · exact hcontract.weaken fun _ _ _ => trivial

theorem obeys_collides_bind (hkeccak : ∀ code, keccak code ≠ zero 32)
    {g : Bool → EvmM β} (h : ∀ collision, (evm.discipline floor).Obeys
      (fun s => collision = false → CodeLoadedAt evm.reader addr s) (g collision)) :
    evm.Obedient floor (evm.collides addr >>= g) := by
  unfold collides
  simp only [bind_assoc, pure_bind]
  refine obeys_load_bind (fun _ _ _ _ _ _ => trivial) fun contractHash => ?_
  have hstable : (evm.discipline floor).Stable fun s =>
      contractHash = zero 32 ∨ contractHash = emptyCodeHash keccak →
        CodeLoadedAt evm.reader addr s :=
    fun _ _ _ hs hstep hloaded hhash => codeLoadedAt_stable hs hstep (hloaded hhash)
  refine Discipline.Obeys.weaken (hstable.bind (obeys_load _) fun storageRoot =>
    hstable.bind (obeys_load _) fun nonce => (h _).weaken ?_) ?_
  · intro s _ hloaded hfree
    refine hloaded ?_
    have hhash := (not_or.mp (not_or.mp (of_decide_eq_false hfree)).2).1
    by_contra hneither
    exact hhash (not_or.mp hneither)
  · rintro s ⟨hs, -⟩ ⟨-, hread⟩ hhash
    exact codeLoadedAt_of_codeHash hkeccak hs.wellFormed.codesKnown (hread ▸ hhash)

variable (hinner : evm.CallsObey floor inner)
include hinner

theorem obeys_run {contract : Contract} {program : Program} :
    evm.Obedient floor (evm.run inner ro contract program) := by
  induction program with
  | done result => exact .pure _
  | look next ih => exact Discipline.Obeys.bind (.query _) ih
  | access op next ih => exact (obedient_composes.access op).bind fun _ => ih
  | write op next ih =>
    unfold run
    split
    · exact .pure _
    · refine (obeys_plain ?_).bind fun _ => ih
      cases op <;> rfl
  | selfdestruct beneficiary gas =>
    unfold run
    split
    · exact .pure _
    · refine (obeys_load _).bind fun balance => ?_
      split
      · exact (obeys_plain rfl).bind fun _ => (obeys_plain rfl).bind fun _ =>
          (obeys_plain rfl).bind fun _ => .pure _
      · exact (obeys_plain rfl).bind fun _ => (obeys_plain rfl).bind fun _ => .pure _
  | create code gas value next ih =>
    unfold run
    split
    · exact .pure _
    · exact (hinner.create ..).bind ih
  | create2 code gas endowment salt next ih =>
    unfold run
    split
    · exact .pure _
    · exact (hinner.create2 ..).bind ih
  | call kind addr input gas value next ih =>
    cases kind with
    | call =>
      unfold run
      split
      · exact .pure _
      · exact (hinner.call ..).bind ih
    | callCode => exact (hinner.callCode ..).bind ih
    | delegateCall => exact (hinner.delegateCall ..).bind ih
    | staticCall => exact (hinner.staticCall ..).bind ih

theorem obeys_checkDeployment {active : Bool} : evm.Obedient floor
      (evm.checkDeployment active inner ro caller addr gas) := by
  unfold checkDeployment
  split
  · unfold applyChilizDeploymentEvmHook
    split
    · exact .pure _
    · dsimp only
      split
      · exact .pure _
      · exact (hinner.call ..).bind fun _ => .pure _
  · exact .pure _

section

variable (hupgrade : evm.NoUpgrade)
include hupgrade

theorem obeys_callTransfer : (evm.discipline floor).Obeys pre
      (evm.callTransfer inner ro caller addr input gas value) :=
  (obedient_composes.callTransfer (fun _ _ => obeys_run hinner) hupgrade obeys_transfer
    fun _ => hinner.call ..).weaken fun _ _ _ => trivial

theorem obeys_callBody :
    evm.Obedient floor (evm.callBody inner ro caller addr input gas value) := by
  refine Discipline.Obeys.bind obedient_composes.warm fun _ =>
    obeys_load_bind (fun _ _ _ _ _ _ => trivial) fun present => ?_
  split
  · exact obeys_callTransfer hinner hupgrade
  · rename_i habsent
    refine .query_bind fun wgas => ?_
    split
    · exact .pure _
    · split
      · exact .pure _
      · refine Discipline.Obeys.bind (.perform fun s hs => ?_) fun _ =>
          obeys_callTransfer hinner hupgrade
        exact ⟨hs.1.2.trans (by simpa using habsent), trivial, trivial⟩

theorem obeys_execute (contract : Bytes → Hash → Contract) :
    evm.Obedient floor (evm.execute inner ro caller addr input gas contract) :=
  obedient_composes.execute (fun _ _ => obeys_run hinner) hupgrade contract

end

theorem obeys_initNewContract {contract : Contract} (hcontract : contract.address = addr) :
    (evm.discipline floor).Obeys (CodeLoadedAt evm.reader addr)
      (evm.initNewContract inner ro contract) := by
  subst hcontract
  have hrun : (evm.discipline floor).Obeys (CodeLoadedAt evm.reader contract.address)
      (evm.interpret inner ro contract) :=
    (obedient_composes.interpret (fun _ _ => obeys_run hinner) contract).weaken fun _ _ _ => trivial
  refine codeLoadedAt_stable.bind hrun fun result => codeLoadedAt_stable.bind (.query _) ?_
  rintro ⟨consumed, wanted⟩
  dsimp only
  split
  · exact Discipline.Obeys.bind (obeys_setCode) fun _ => .pure _
  · exact .pure _

theorem obeys_deploy : (evm.discipline floor).Obeys (CodeLoadedAt evm.reader addr)
      (evm.deploy inner ro caller code gas value addr) := by
  have hprepare : (evm.discipline floor).Obeys (CodeLoadedAt evm.reader addr)
      (evm.prepareContract addr) := obeys_prepareContract.weaken fun _ _ _ => trivial
  refine codeLoadedAt_stable.bind hprepare fun _ => codeLoadedAt_stable.bind (.query _) ?_
  rintro ⟨consumed, wanted⟩
  dsimp only
  split
  · exact .pure _
  · refine codeLoadedAt_stable.bind obeys_transfer fun _ => ?_
    refine Discipline.Obeys.bind ?_ fun _ => .pure _
    exact obeys_initNewContract hinner rfl

theorem obeys_createSnapshot : (evm.discipline floor).Obeys (CodeLoadedAt evm.reader addr)
      (evm.createSnapshot inner ro caller code gas value addr) := by
  refine obeys_snapshot_bind codeLoadedAt_stable fun new hnew =>
    (obeys_deploy hinner).bind fun outcome => ?_
  split
  · exact .pure _
  · exact obeys_finishCreate hnew _ _

theorem obeys_call (hupgrade : evm.NoUpgrade) : evm.Obedient floor
      (evm.call (some inner) ro caller addr input gas value) := by
  have hsnapshot : evm.Obedient floor
      (evm.callSnapshot inner ro caller addr input gas value) := by
    refine obeys_snapshot_bind (fun _ _ _ _ _ _ => trivial) fun new hnew =>
      (obeys_callBody hinner hupgrade).bind fun outcome => ?_
    split
    · exact .pure _
    · exact obeys_finish hnew _
  have hfunded : evm.Obedient floor (evm.isFunded caller value) := by
    unfold isFunded
    split
    · exact .pure _
    · exact obeys_load _
  refine hfunded.bind fun funded => ?_
  split
  · exact hsnapshot
  · exact .pure _

variable (hkeccak : ∀ code, keccak code ≠ FixedBytes.zero 32)
include hkeccak

theorem obeys_createFree :
    evm.Obedient floor (evm.createFree inner ro caller code gas value addr) := by
  refine obeys_collides_bind hkeccak fun collision => ?_
  split
  · exact .pure _
  · rename_i hfree
    have hcheck : (evm.discipline floor).Obeys (CodeLoadedAt evm.reader addr) (evm.checkDeployment
        evm.rules.hasDeploymentHookFix inner ro caller addr gas) :=
      (obeys_checkDeployment hinner).weaken fun _ _ _ => trivial
    refine (codeLoadedAt_stable.bind hcheck ?_).weaken
      fun s _ hloaded => hloaded (by simpa using hfree)
    rintro ⟨left, _ | err⟩
    · exact obeys_createSnapshot hinner
    · exact .pure _

theorem obeys_createFunded :
    evm.Obedient floor (evm.createFunded inner ro caller code gas value addr) := by
  refine (obeys_load _).bind fun funded => ?_
  split
  · exact .pure _
  · refine (obeys_load _).bind fun nonce => ?_
    split
    · exact .pure _
    · refine (obeys_plain rfl).bind fun _ => Discipline.Obeys.bind (.query _) fun statelessGas => ?_
      split
      · exact .pure _
      · dsimp only
        split
        · exact (obeys_plain rfl).bind fun _ => obeys_createFree hinner hkeccak
        · exact obeys_createFree hinner hkeccak

theorem obeys_createAt :
    evm.Obedient floor (evm.createAt (some inner) ro caller code gas value addr) := by
  refine (obeys_checkDeployment hinner).bind ?_
  rintro ⟨left, _ | err⟩
  · exact obeys_createFunded hinner hkeccak
  · exact .pure _

end Inner

/-! ## The calls of every depth -/

theorem callsOver_obey (hkeccak : ∀ code, keccak code ≠ zero 32) {inner : Calls}
    (hinner : evm.CallsObey floor inner) (hupgrade : evm.NoUpgrade) :
    evm.CallsObey floor (evm.callsOver (some inner)) where
  call _ _ _ _ _ _ := obeys_call hinner hupgrade
  callCode _ _ _ _ _ _ := by
    refine (obeys_load _).bind fun funded => ?_
    split
    · exact obeys_snapshot_bind (fun _ _ _ _ _ _ => trivial) fun new hnew =>
        (obeys_execute hinner hupgrade _).bind fun _ => obeys_finish hnew _
    · exact .pure _
  delegateCall _ _ _ _ _ _ _ :=
    obeys_snapshot_bind (fun _ _ _ _ _ _ => trivial) fun new hnew =>
      (obeys_execute hinner hupgrade _).bind fun _ => obeys_finish hnew _
  staticCall _ _ _ _ _ :=
    obeys_snapshot_bind (fun _ _ _ _ _ _ => trivial) fun new hnew => (obeys_plain rfl).bind fun _ =>
      (obeys_execute hinner hupgrade _).bind fun _ => obeys_finish hnew _
  create _ _ _ _ _ := (obeys_load _).bind fun _ => obeys_createAt hinner hkeccak
  create2 _ _ _ _ _ _ := obeys_createAt hinner hkeccak

/-- The calls of the machine keep to the discipline of every snapshot that was taken before. -/
theorem calls_obey (hkeccak : ∀ code, keccak code ≠ zero 32) (hupgrade : evm.NoUpgrade)
    (levels : ℕ) : evm.CallsObey floor (evm.calls levels) := by
  induction levels with
  | zero =>
    -- beyond the depth limit nothing is done
    exact ⟨fun _ _ _ _ _ _ => .pure _, fun _ _ _ _ _ _ => .pure _, fun _ _ _ _ _ _ _ => .pure _,
      fun _ _ _ _ _ => .pure _,
      fun _ _ _ _ _ => (obeys_load _).bind fun _ => .pure _, fun _ _ _ _ _ _ => .pure _⟩
  | succ levels ih => exact callsOver_obey hkeccak ih hupgrade

/-! ## Going back -/

variable {s s' : StateDB}

theorem ready_of_obeys {m : EvmM α} {a : α}
    (hm : (evm.discipline s.journal.nextRevisionId).Obeys (fun _ => True) m)
    (hs : Ready evm.reader s) (h : m s = some (a, s')) : Ready evm.reader s' :=
  ((hm ⟨hs, le_rfl⟩ trivial h).invariant ⟨hs, le_rfl⟩).1

theorem snapshot_inv {id : ℕ} (h : evm.snapshot s = some (id, s')) :
    id = s.snapshot.1 ∧ s' = s.snapshot.2 := by
  cases h
  exact ⟨rfl, rfl⟩

theorem invariant_snapshot (hs : Ready evm.reader s) :
    (evm.discipline (s.snapshot.1 + 1)).invariant s.snapshot.2 :=
  ⟨⟨snapshot_wellFormed hs.wellFormed, hs.createdFresh⟩, le_rfl⟩

theorem reaches_of_trace {id : ℕ} {w : StateView} (hs : WellFormed evm.reader s)
    (hreaches : Reaches evm.reader id w s) (htrace : (evm.discipline (id + 1)).Trace s s') :
    WellFormed evm.reader s' ∧ Reaches evm.reader id w s' := by
  obtain ⟨N, hrun⟩ := htrace
  induction hrun with
  | start => exact ⟨hs, hreaches⟩
  | next before h ih =>
    obtain ⟨⟨hscope, hloaded, hsince⟩, hstep⟩ := h
    exact ⟨step_wellFormed ih.1 hscope hstep,
      step_reaches ih.1 hscope hsince.after hloaded hstep ih.2⟩

theorem revert_of_trace {s₁ s₂ : StateDB} (hs : WellFormed evm.reader s)
    (htrace : (evm.discipline (s.snapshot.1 + 1)).Trace s.snapshot.2 s₁)
    (hrevert : s₁.revertToSnapshot evm.reader s.snapshot.1 = some s₂) :
    s₂.view evm.reader = s.view evm.reader := by
  obtain ⟨hs₁, r, hr, hid, hw⟩ :=
    reaches_of_trace (snapshot_wellFormed hs) s.snapshot_reaches htrace
  obtain ⟨pre, post, hrevisions⟩ := List.append_of_mem hr
  obtain ⟨s₃, w, hs₃, hundone, hview, -⟩ := revertToSnapshot_view hs₁ hrevisions
  rw [hid] at hs₃
  cases hrevert.symm.trans hs₃
  cases hw.symm.trans hundone
  exact hview

end EVM

end ChilizChain
