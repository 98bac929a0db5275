import ChilizChain.Lib.Simulation
import ChilizChain.Parlia.Finalize

/-! What finalisation is made of. Apart from the slash, whose error is swallowed, every stage is a
sequence of operations on the world state, of failures and of system transactions. `Script` says
this once; a property of all stages is then proved by one induction, with one case for each kind of
step. -/

namespace ChilizChain

open Stateful

variable {σ δ : Type}

/-! ## Runs of the steps -/

theorem exec_stateStep {α : Type} (f : σ → α × σ) (w : Work σ) :
    exec (stateStep f) w = (.ok (f w.state).1, { w with state := (f w.state).2 }) := rfl

/-- Replace the received transactions. -/
def Work.receive (w : Work σ) (tape : List Tx) : Work σ := { w with systemTxs := some tape }

namespace Finalizer

variable (p : Finalizer σ δ) {header hd : BlockHead} {msg : Message} {author : Author}
  {w w' : Work σ}

theorem exec_executeTx (nonce : ℕ) (tx : Tx) :
    exec (p.executeTx hd msg nonce tx) w =
      match p.applyMessage hd msg w.state with
      | (.error e, state) => (.error (.errExecution e), { w with state := state })
      | (.ok (gasUsed, logs), state) =>
        (.ok (), p.recordTx hd msg nonce tx gasUsed logs state w) := by
  rw [executeTx, exec_bind_ok (exec_get w)]
  rcases p.applyMessage hd msg w.state with ⟨_ | ⟨gasUsed, logs⟩, state⟩ <;> rfl

theorem executeTx_eq_ok {nonce : ℕ} {tx : Tx}
    (h : exec (p.executeTx hd msg nonce tx) w = (.ok (), w')) :
    ∃ gasUsed logs state, p.applyMessage hd msg w.state = (.ok (gasUsed, logs), state) ∧
      w' = p.recordTx hd msg nonce tx gasUsed logs state w := by
  rw [exec_executeTx] at h
  rcases happly : p.applyMessage hd msg w.state with ⟨_ | ⟨gasUsed, logs⟩, state⟩
  · simp [happly] at h
  · rw [happly] at h
    exact ⟨gasUsed, logs, state, rfl, (Prod.mk.inj h).2.symm⟩

/-- The transaction expected for a message in the current state. -/
def expected (msg : Message) (s : σ) : TxData := expectedTx msg (p.db.getNonce s msg.fromAddress)

variable [DecidableEq δ]

theorem exec_applyTransaction_mining (hval : author.val = msg.fromAddress) :
    exec (p.applyTransaction hd msg (some author)) w =
      match author.signTxFn (p.expected msg w.state) with
      | .ok tx => exec (p.executeTx hd msg (p.db.getNonce w.state msg.fromAddress) tx) w
      | .error e => (.error e, w) := by
  rw [applyTransaction, exec_bind_ok (exec_get w)]
  simp only [takeTx, Option.filter, hval, decide_true, if_true, exec_bind_ofExcept, expected]
  rcases author.signTxFn _ with _ | tx <;> rfl

theorem exec_applyTransaction_import :
    exec (p.applyTransaction hd msg none) w =
      match w.systemTxs with
      | none | some [] => (.error .errNoTransaction, w)
      | some (actual :: rest) =>
        if p.signerHash actual.content ≠ p.signerHash (p.expected msg w.state) then
          (.error (.errUnexpectedTransaction (p.expected msg w.state) actual.content), w)
        else
          exec (p.executeTx hd msg (p.db.getNonce w.state msg.fromAddress) actual)
            (w.receive rest) := by
  rw [applyTransaction, exec_bind_ok (exec_get w)]
  simp only [takeTx, Option.filter]
  rcases htxs : w.systemTxs with _ | _ | ⟨actual, rest⟩
  · exact exec_bind_error (by rw [exec_bind_ok (exec_get w), htxs]; rfl)
  · exact exec_bind_error (by rw [exec_bind_ok (exec_get w), htxs]; rfl)
  · by_cases hhash : p.signerHash actual.content = p.signerHash (p.expected msg w.state)
    · simp only [ne_eq, hhash, not_true_eq_false, if_false]
      refine exec_bind_ok ?_
      rw [exec_bind_ok (exec_get w), htxs]
      simp only [expected] at hhash ⊢
      rw [if_neg (not_not.mpr hhash)]
      rfl
    · simp only [ne_eq, hhash, not_false_eq_true, if_true]
      refine exec_bind_error ?_
      rw [exec_bind_ok (exec_get w), htxs]
      simp only [expected] at hhash ⊢
      rw [if_pos hhash]
      rfl

theorem takeTx_state (msg : Message) (expected : TxData) (mining : Mining) (w : Work σ) :
    (exec (p.takeTx msg expected mining) w).2.state = w.state := by
  unfold takeTx
  split
  · rfl
  · rw [exec_bind_ok (exec_get w)]
    split
    · rfl
    · rfl
    · split_ifs <;> rfl

/-! ## The stages of a successful run -/

theorem exec_checkSystemTxs : exec (checkSystemTxs : FinalizeM σ Unit) w =
      if w.systemTxs.getD [] ≠ [] then (.error .errSystemTxsLength, w) else (.ok (), w) := by
  rw [checkSystemTxs, exec_bind_ok (exec_get w)]
  split_ifs <;> rfl

variable {header hd : Header}

theorem finalize_eq_ok (h : exec (p.finalize hd) w = (.ok (), w')) :
    p.verifyValidators hd = .ok () ∧ p.verifyTurnLength hd = .ok () ∧
    ∃ parent w₁ w₂, p.chain.getHeaderByHash p.k hd.parentHash = some parent ∧
      exec (p.openBlock hd.head parent none) w = (.ok (), w₁) ∧
      exec (p.slashSpoiled hd.head none) w₁ = (.ok (), w₂) ∧
      exec (p.closeBlock hd.coinbase hd.head parent none) w₂ = (.ok (), w') ∧
      w'.systemTxs.getD [] = [] := by
  obtain ⟨⟨⟩, hvalidators, h⟩ := exec_ofExcept_bind_eq_ok h
  obtain ⟨⟨⟩, hturn, h⟩ := exec_ofExcept_bind_eq_ok h
  rcases hparent : p.chain.getHeaderByHash p.k hd.parentHash with _ | parent
  · simp [hparent] at h
  rw [hparent] at h
  obtain ⟨⟨⟩, w₁, hopen, h⟩ := exec_bind_eq_ok h
  obtain ⟨⟨⟩, w₂, hslash, h⟩ := exec_bind_eq_ok h
  obtain ⟨⟨⟩, w₃, hclose, h⟩ := exec_bind_eq_ok h
  rw [exec_checkSystemTxs] at h
  split_ifs at h with hrest
  · simp at h
  · obtain ⟨-, rfl⟩ := Prod.mk.inj h
    exact ⟨hvalidators, hturn, parent, w₁, w₂, rfl, hopen, hslash, hclose, not_not.mp hrest⟩

theorem finalize_ok {parent : Header} {w₁ w₂ : Work σ}
    (hvalidators : p.verifyValidators hd = .ok ()) (hturn : p.verifyTurnLength hd = .ok ())
    (hparent : p.chain.getHeaderByHash p.k hd.parentHash = some parent)
    (hopen : exec (p.openBlock hd.head parent none) w = (.ok (), w₁))
    (hslash : exec (p.slashSpoiled hd.head none) w₁ = (.ok (), w₂))
    (hclose : exec (p.closeBlock hd.coinbase hd.head parent none) w₂ = (.ok (), w'))
    (hrest : w'.systemTxs.getD [] = []) : exec (p.finalize hd) w = (.ok (), w') := by
  unfold finalize
  rw [exec_bind_ofExcept, hvalidators]
  dsimp only
  rw [exec_bind_ofExcept, hturn]
  dsimp only
  rw [hparent]
  dsimp only
  rw [exec_bind_ok hopen, exec_bind_ok hslash, exec_bind_ok hclose, exec_checkSystemTxs,
    if_neg (not_not.mpr hrest)]

theorem finalizeAndAssemble_eq_ok {block : Block}
    (h : exec (p.finalizeAndAssemble author hd) w = (.ok block, w')) :
    ∃ parent w₁ w₂, p.chain.getHeaderByHash p.k hd.parentHash = some parent ∧
      exec (p.openBlock hd.head parent (some author)) w = (.ok (), w₁) ∧
      exec (p.slashSpoiled hd.head (some author)) w₁ = (.ok (), w₂) ∧
      exec (p.closeBlock author.val hd.head parent (some author)) w₂ = (.ok (), w') ∧
      ∃ root, block = ⟨{ hd with
        gasUsed := w'.usedGas, uncleHash := p.k.emptyUncleHash, root := root }, w'.txs⟩ := by
  unfold finalizeAndAssemble at h
  rcases hparent : p.chain.getHeaderByHash p.k hd.parentHash with _ | parent
  · simp [hparent] at h
  rw [hparent] at h
  obtain ⟨⟨⟩, w₁, hopen, h⟩ := exec_bind_eq_ok h
  obtain ⟨⟨⟩, w₂, hslash, h⟩ := exec_bind_eq_ok h
  obtain ⟨⟨⟩, w₃, hclose, h⟩ := exec_bind_eq_ok h
  rw [sealBody, exec_bind_ok (exec_get w₃)] at h
  by_cases hgas : hd.gasLimit < w₃.usedGas
  · simp only [hgas, if_true] at h
    rw [exec_bind_error (exec_throw ..)] at h
    simp at h
  · simp only [hgas, if_false] at h
    obtain ⟨hblock, rfl⟩ := Prod.mk.inj h
    obtain rfl := Except.ok.inj hblock
    exact ⟨parent, w₁, w₂, rfl, hopen, hslash, hclose, _, rfl⟩

end Finalizer

/-! ## Scripts -/

/-- A program built from the steps of finalisation, in both modes. `change` says which operations on
the world state occur and what each adds to the supply, `dest` which contracts are called with
what; the index is what the program adds in all. -/
inductive Script [DecidableEq δ] (p : Finalizer σ δ) (header : BlockHead)
    (change : (σ → σ) → ℕ → Prop) (dest : Address → Bytes → Prop) :
    {α : Type} → ℕ → (Mining → FinalizeM σ α) → Prop
  | step {α : Type} {d : ℕ} (f : σ → α × σ) (hf : change (fun s => (f s).2) d) :
    Script p header change dest d fun _ => stateStep f
  | fail {α : Type} (e : FinalizeError) (d : ℕ) :
    Script p header change dest d fun _ => (throw e : FinalizeM σ α)
  | call {toAddress : Address} {data : Bytes} (value : ℕ) (hdest : dest toAddress data) :
    Script p header change dest 0 (p.systemTransaction header toAddress data value)
  | rename {α : Type} {d : ℕ} {x : Mining → FinalizeM σ α} (f : FinalizeError → FinalizeError)
    (hx : Script p header change dest d x) :
    Script p header change dest d fun mining => mapError f (x mining)
  | bind {α β : Type} {d d₁ d₂ : ℕ} {x : Mining → FinalizeM σ α}
    {f : α → Mining → FinalizeM σ β} (hx : Script p header change dest d₁ x)
    (hf : ∀ a, Script p header change dest d₂ (f a)) (hd : d = d₁ + d₂) :
    Script p header change dest d fun mining => x mining >>= fun a => f a mining

namespace Script

variable [DecidableEq δ] {p : Finalizer σ δ} {header hd : BlockHead} {change : (σ → σ) → ℕ → Prop}
  {dest dest' : Address → Bytes → Prop}

variable {d : ℕ}

theorem mono {α : Type} {x : Mining → FinalizeM σ α} (hdest : ∀ a data, dest a data → dest' a data)
    (hx : Script p header change dest d x) : Script p header change dest' d x := by
  induction hx with
  | step f hf => exact .step f hf
  | fail e d => exact .fail e d
  | call value ha => exact .call value (hdest _ _ ha)
  | rename f _ ih => exact .rename f ih
  | bind _ _ hd ihx ihf => exact .bind ihx ihf hd

theorem before {α β : Type} {x : Mining → FinalizeM σ α} {f : α → Mining → FinalizeM σ β}
    (hx : Script p hd change dest 0 x) (hf : ∀ a, Script p hd change dest d (f a)) :
    Script p hd change dest d fun mining => x mining >>= fun a => f a mining :=
  .bind hx hf (Nat.zero_add d).symm

theorem after {α β : Type} {x : Mining → FinalizeM σ α} {f : α → Mining → FinalizeM σ β}
    (hx : Script p hd change dest d x) (hf : ∀ a, Script p hd change dest 0 (f a)) :
    Script p hd change dest d fun mining => x mining >>= fun a => f a mining :=
  .bind hx hf rfl

theorem query {α β : Type} {r : Except FinalizeError α} {f : α → Mining → FinalizeM σ β}
    (hf : ∀ a, r = .ok a → Script p hd change dest d (f a)) :
    Script p hd change dest d fun mining => Stateful.ofExcept r >>= fun a => f a mining := by
  cases r with
  | error e => exact .fail e d
  | ok a => exact hf a rfl

end Script

/-! ## The operations on the world state -/

/-- The operations that finalisation performs, each with what it adds. -/
structure Permits (p : Finalizer σ δ) (header : BlockHead) (change : (σ → σ) → ℕ → Prop) :
    Prop where
  skip : change (fun s => s) 0
  upgrade : ∀ parent, change (p.tryUpdateBuildInSystemContract header parent) 0
  setCode : ∀ address code, change (fun s => p.db.setCode s address code) 0
  addBalance : ∀ amount, change (fun s => p.db.addBalance s header.coinbase amount) amount
  sweep : change (fun s => (p.sweepIncome header s).2) 0

namespace Finalizer

variable [DecidableEq δ] (p : Finalizer σ δ)

/-- The Dragon8 inflation amount of a block. -/
def inflation (header : BlockHead) : ℕ :=
  if p.isDragon8Block header then
    match p.getLastSupplyFromTokenomics header with
    | .ok lastSupply => (p.newSupply header lastSupply).2.2
    | .error _ => 0
  else 0

/-- What a block adds to the supply. -/
def minted (header : BlockHead) (parent : Header) : ℕ :=
  (if p.isPepper8Block header.time parent.time then pepper8MintAmount else 0) +
    (if p.isPipe8Block header.time parent.time then pipe8MintAmount else 0) + p.inflation header

variable (address : Address)

/-- What is called before the slash: system contracts, the slash contract only to initialise it. -/
def Opened (data : Bytes) : Prop :=
  isToSystemContract address = true ∧ (address = slashContract → data = p.pack .init)

/-- What is called after the slash: system contracts other than the slash contract. -/
def Rewarded (_ : Bytes) : Prop :=
  isToSystemContract address = true ∧ address ≠ slashContract

/-- Any call to a system contract. -/
def System (_ : Bytes) : Prop := isToSystemContract address = true

theorem rewarded_of_mem {address : Address} (data : Bytes)
    (h : address ∈ [validatorContract, systemRewardContract, tokenomicsContract,
      pepper8RecipientAddress, pipe8RecipientAddress]) : Rewarded address data := by
  have hall : ∀ a ∈ [validatorContract, systemRewardContract, tokenomicsContract,
      pepper8RecipientAddress, pipe8RecipientAddress],
      isToSystemContract a = true ∧ a ≠ slashContract := by decide
  exact hall address h

variable {p} {hd : BlockHead} {change : (σ → σ) → ℕ → Prop} {dest : Address → Bytes → Prop}

section

variable (hp : Permits p hd change)
include hp

theorem script_pure {α : Type} (a : α) : Script p hd change dest 0 fun _ => pure a :=
  Script.step (fun s => (a, s)) hp.skip

theorem script_callAll (data : Bytes) {contracts : List Address}
    (hdest : ∀ c ∈ contracts, dest c data) :
    Script p hd change dest 0 fun mining => p.callAll hd data mining contracts := by
  induction contracts with
  | nil => exact script_pure hp ()
  | cons c contracts ih =>
    refine .before (.call 0 (hdest c (by simp))) fun _ => ih fun c' hc' => ?_
    exact hdest c' (by simp [hc'])

variable (val : Address) (parent : Header)

theorem script_mintPepper8 : Script p hd change Rewarded
      (if p.isPepper8Block hd.time parent.time then pepper8MintAmount else 0)
      (p.mintPepper8 hd parent) := by
  unfold mintPepper8
  split_ifs
  · refine .before (.step _ (hp.setCode _ _)) fun _ => ?_
    exact .after (.step _ (hp.addBalance _)) fun _ => .call _ (rewarded_of_mem _ (by simp))
  · exact script_pure hp ()

theorem script_mintPipe8 : Script p hd change Rewarded
      (if p.isPipe8Block hd.time parent.time then pipe8MintAmount else 0)
      (p.mintPipe8 hd parent) := by
  unfold mintPipe8
  split_ifs
  · exact .after (.step _ (hp.addBalance _)) fun _ => .call _ (rewarded_of_mem _ (by simp))
  · exact script_pure hp ()

theorem script_mintInflation :
    Script p hd change Rewarded (p.inflation hd) (p.mintInflation val hd) := by
  unfold mintInflation inflation
  split_ifs
  · refine Script.query fun lastSupply hsupply => ?_
    rw [hsupply]
    exact .after (.step _ (hp.addBalance _)) fun _ => .call _ (rewarded_of_mem _ (by simp))
  · exact script_pure hp ()

theorem script_rewardSystem (balance : ℕ) :
    Script p hd change Rewarded 0 (p.rewardSystem balance hd) := by
  refine .before (.step _ hp.skip) fun contractBalance => ?_
  dsimp only
  split_ifs
  · exact .before (.call _ (rewarded_of_mem _ (by simp))) fun _ => script_pure hp _
  · exact script_pure hp _

theorem script_shareIncome : Script p hd change Rewarded 0 (p.shareIncome val hd) := by
  refine .before (.step _ hp.sweep) fun balance => ?_
  split_ifs
  · exact script_pure hp ()
  · exact .before (script_rewardSystem hp balance) fun _ => .call _ (rewarded_of_mem _ (by simp))

/-- The distribution mints what the block is due, and every recipient is a system contract other
than the slash contract. -/
theorem script_distributeIncoming {parent : Header}
    (hparent : p.chain.getHeader p.k hd.parentHash (sub64 hd.number 1) = some parent) :
    Script p hd change Rewarded (p.minted hd parent) (p.distributeIncoming val hd) := by
  unfold distributeIncoming
  simp only [hparent]
  refine .bind (script_mintPepper8 hp parent) (fun _ => ?_) (Nat.add_assoc _ _ _)
  refine .bind (script_mintPipe8 hp parent) (fun _ => ?_) rfl
  exact .after (script_mintInflation hp val) fun _ => script_shareIncome hp val

theorem script_rewardFinality : Script p hd change Rewarded 0 (p.rewardFinality hd) := by
  unfold rewardFinality distributeFinalityReward
  split_ifs
  · exact script_pure hp ()
  · exact Script.query fun call _ => .call _ (rewarded_of_mem _ (by simp))
  · exact script_pure hp ()

theorem script_updateValidators : Script p hd change Rewarded 0 (p.updateValidators hd parent) := by
  unfold updateValidators
  split_ifs
  · exact Script.query fun elected _ => .call _ (rewarded_of_mem _ (by simp))
  · exact script_pure hp ()

theorem script_closeBlock {above : Header}
    (habove : p.chain.getHeader p.k hd.parentHash (sub64 hd.number 1) = some above) :
    Script p hd change Rewarded (p.minted hd above) (p.closeBlock val hd parent) := by
  refine .after (script_distributeIncoming hp val habove) fun _ => ?_
  exact .before (script_rewardFinality hp) fun _ => script_updateValidators hp parent

theorem exists_script_closeBlock :
    ∃ d, Script p hd change Rewarded d (p.closeBlock val hd parent) := by
  rcases habove : p.chain.getHeader p.k hd.parentHash (sub64 hd.number 1) with _ | above
  · have hfail : p.distributeIncoming val hd = fun _ => throw .errParentNotFound := by
      unfold distributeIncoming
      simp only [habove]
    refine ⟨0, .before ?_ fun _ => .before (script_rewardFinality hp) fun _ =>
      script_updateValidators hp parent⟩
    rw [hfail]
    exact .fail _ 0
  · exact ⟨_, script_closeBlock hp val parent habove⟩

theorem script_initFirst : Script p hd change p.Opened 0 (p.initFirst hd) := by
  unfold initFirst
  split_ifs
  · refine script_callAll hp _ fun c hc => ⟨?_, fun _ => rfl⟩
    revert hc
    unfold initContracts
    split_ifs <;> revert c <;> decide
  · exact script_pure hp ()

theorem script_openBlock {parent : Header} (hfeynman : p.isOnFeynman hd parent = false) :
    Script p hd change p.Opened 0 (p.openBlock hd parent) := by
  refine .before (.step _ (hp.upgrade parent)) fun _ => ?_
  refine .before (d := 0) ?_ fun _ => script_initFirst hp
  unfold initFeynman
  simp only [hfeynman]
  exact script_pure hp ()

/-- The first stage of any block; the contracts of Feynman are not system contracts. -/
theorem script_openBlock_any : Script p hd change (fun _ _ => True) 0 (p.openBlock hd parent) := by
  refine .before (.step _ (hp.upgrade parent)) fun _ => ?_
  refine .before (d := 0) ?_ fun _ => (script_initFirst hp).mono fun _ _ _ => trivial
  unfold initFeynman
  split_ifs
  · exact .rename _ (script_callAll hp _ fun _ _ => trivial)
  · exact script_pure hp ()

end

end Finalizer

/-! ## A small world

Enough of a world to run finalisation in: the fees, everything else, and one nonce. Executions
succeed and change nothing. -/

structure Purse where
  nonce : ℕ
  fees : ℕ
  others : ℕ
deriving DecidableEq

def Purse.ops : StateOps Purse where
  getNonce s _ := s.nonce
  setNonce s _ n := { s with nonce := n }
  getBalance s a := if a = systemAddress then s.fees else s.others
  setBalance s a v := if a = systemAddress then { s with fees := v } else { s with others := v }
  addBalance s a v :=
    if a = systemAddress then { s with fees := s.fees + v } else { s with others := s.others + v }
  setCode s _ _ := s
  finalise _ s := s
  intermediateRoot _ s := (default, s)

/-- A block with the number and the time given, on top of the block below it. -/
def smallHeader (number time : ℕ) : Header :=
  { (default : Header) with
    parentHash := FixedBytes.ofBytes 32 [UInt8.ofNat (number - 1)], number := number, time := time,
    gasLimit := 2 ^ 63 - 1, difficulty := some Parlia.diffInTurn }

def smallChain (headers : List Header) : ChainStore where
  genesis := smallHeader 0 0
  genesis_number := rfl
  headers := headers
  canonical _ := none

/-- Every call packs to its own bytes, and a signature is the address of its signer. -/
def smallEngine (time : Params.TimeFork → Option ℕ) (headers : List Header) :
    Finalizer Purse TxData where
  k := { (default : Crypto) with hash := fun h => FixedBytes.ofBytes 32 [UInt8.ofNat h.number] }
  c := default
  forks := { (default : Params.ChainConfig) with
    block := fun fork => if fork = .london ∨ fork = .byzantium then some 0 else none, time := time }
  chain := smallChain headers
  db := Purse.ops
  applyMessage _ _ s := (.ok (21000, []), s)
  upgradeBuildInSystemContract _ _ _ s := s
  signerHash := id
  txHash _ := default
  sender tx := some (FixedBytes.ofBytes 20 tx.signature)
  pack
    | .init => [0]
    | .initializeFeynman => [1]
    | .slash spoiledVal => 2 :: spoiledVal.bytes
    | _ => [3]
  getInflationPct _ := 0
  snapshot _ _ _ := .error .errUnknownBlock
  epochLength _ := .ok 200
  getCurrentValidators _ := .ok ([], fun _ => default)
  getTurnLength _ := .ok 1
  getLastSupplyFromTokenomics _ := .ok 0
  getElectedValidators _ := .ok []

def smallAuthor : Author := ⟨default, fun content => .ok ⟨content, []⟩⟩

end ChilizChain
