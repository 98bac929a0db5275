import ChilizChain.Parlia.ExtraRoundTrip
import ChilizChain.Parlia.Script

/-! Assembled blocks on import. The importing node repeats the calls of the producer, and takes from
the block the transactions that the producer created. The two runs are compared from the end: what
is left to be received at the end of the import is nothing, and going back through the run of the
producer it grows by the transaction created at each call. -/

namespace ChilizChain

open Stateful List Finalizer Except

variable {σ δ : Type}

/-! ## What the producer creates -/

/-- The producer signs what it is asked to sign, with its own key. -/
def Author.Faithful (author : Author) (p : Finalizer σ δ) : Prop :=
  ∀ content tx, author.signTxFn content = .ok tx →
    tx.content = content ∧ p.sender tx = some author.val

/-- A failed call that carries no value leaves the state as it was. -/
def Finalizer.Reverts (p : Finalizer σ δ) (header : BlockHead) : Prop :=
  ∀ msg s e s', msg.value = 0 → p.applyMessage header msg s = (.error e, s') → s' = s

/-- A transaction of the coinbase at price zero that makes one of the given calls. -/
structure SystemTx (p : Finalizer σ δ) (header : BlockHead) (dest : Address → Bytes → Prop)
    (tx : Tx) : Prop where
  toAddress : ∃ a, tx.content.toAddress = some a ∧ dest a tx.content.data
  gasPrice : tx.content.gasPrice = 0
  sender : p.sender tx = some header.coinbase

variable {p : Finalizer σ δ} {hd : BlockHead}

/-! ## Splitting the transactions of a block -/

variable {common : List Tx}

theorem splitTxs_eq_ok {txs commonTxs systemTxs system : List Tx}
    (h : p.splitTxs hd commonTxs systemTxs txs = .ok (common, system)) :
    (∀ tx ∈ txs, p.isSystemTransaction tx hd = .ok true ∨ p.isSystemTransaction tx hd = .ok false) ∧
    common = commonTxs ++ txs.filter (fun tx => p.isSystemTransaction tx hd = .ok false) ∧
    system = systemTxs ++ txs.filter (fun tx => p.isSystemTransaction tx hd = .ok true) := by
  induction txs generalizing commonTxs systemTxs with
  | nil =>
    obtain ⟨rfl, rfl⟩ := Prod.mk.inj (Except.ok.inj h)
    simp
  | cons tx txs ih =>
    rw [splitTxs] at h
    rcases htx : p.isSystemTransaction tx hd with e | ⟨⟨⟩⟩
    · simp [htx] at h
    · simp only [htx, ok_bind, Bool.false_eq_true, if_false] at h
      split_ifs at h
      obtain ⟨hall, rfl, rfl⟩ := ih h
      simpa [htx] using hall
    · simp only [htx, ok_bind, if_true] at h
      obtain ⟨hall, rfl, rfl⟩ := ih h
      simpa [htx] using hall

theorem splitTxs_append {created : List Tx} (commonTxs : List Tx)
    (hcommon : ∀ tx ∈ common, p.isSystemTransaction tx hd = .ok false)
    (hcreated : ∀ tx ∈ created, p.isSystemTransaction tx hd = .ok true) :
    p.splitTxs hd commonTxs [] (common ++ created) = .ok (commonTxs ++ common, created) := by
  induction common generalizing commonTxs with
  | nil =>
    have hgo : ∀ systemTxs, p.splitTxs hd commonTxs systemTxs created =
        .ok (commonTxs, systemTxs ++ created) := by
      induction created with
      | nil => simp [splitTxs]
      | cons tx created ih =>
        intro systemTxs
        rw [splitTxs, hcreated tx mem_cons_self]
        simp only [ok_bind, if_true]
        rw [ih fun tx' htx' => hcreated tx' (mem_cons_of_mem _ htx')]
        simp
    simpa using hgo []
  | cons tx common ih =>
    rw [cons_append, splitTxs, hcommon tx mem_cons_self]
    simp only [ok_bind, Bool.false_eq_true, if_false, ne_eq, not_true_eq_false, and_false]
    rw [ih _ fun tx' htx' => hcommon tx' (mem_cons_of_mem _ htx')]
    simp

variable {tx : Tx}

theorem SystemTx.isSystemTransaction (h : SystemTx p hd System tx) :
    p.isSystemTransaction tx hd = .ok true := by
  obtain ⟨⟨a, ha, hsystem⟩, hprice, hsender⟩ := h
  have hcontract : isToSystemContract a = true := hsystem
  simp [Finalizer.isSystemTransaction, ha, hcontract, hprice, hsender]

theorem systemTx_of_isSystemTransaction (h : p.isSystemTransaction tx hd = .ok true) :
    SystemTx p hd System tx := by
  unfold Finalizer.isSystemTransaction at h
  rcases hto : tx.content.toAddress with _ | a
  · simp [hto] at h
  rw [hto] at h
  dsimp only at h
  split_ifs at h with hsystem hprice
  · simp at h
  · simp at h
  rcases hsender : p.sender tx with _ | sender
  · simp [hsender] at h
  · rw [hsender] at h
    have hcontract : isToSystemContract a = true := by simpa using hsystem
    exact ⟨⟨a, hto, hcontract⟩, not_not.mp hprice, by
      rw [hsender, of_decide_eq_true (Except.ok.inj h)]⟩

theorem exists_first_system (hsystem : p.isSystemTransaction tx hd = .ok true)
    (htx : tx ∈ common) (created : List Tx) : ∃ first rest,
      (common ++ created).filter (fun tx => p.isSystemTransaction tx hd = .ok true) =
        first :: rest ∧ first ∈ common ∧ p.isSystemTransaction first hd = .ok true := by
  have hmem : tx ∈ common.filter fun tx => p.isSystemTransaction tx hd = .ok true :=
    mem_filter.mpr ⟨htx, decide_eq_true hsystem⟩
  obtain ⟨first, rest, hcons⟩ := exists_cons_of_ne_nil (ne_nil_of_mem hmem)
  have hfirst : first ∈ common.filter fun tx => p.isSystemTransaction tx hd = .ok true := by
    rw [hcons]
    exact mem_cons_self
  refine ⟨first, rest ++ created.filter fun tx => p.isSystemTransaction tx hd = .ok true, ?_,
    (mem_filter.mp hfirst).1, of_decide_eq_true (mem_filter.mp hfirst).2⟩
  rw [filter_append, hcons, cons_append]

/-! ## Going back through a run -/

/-- The work of an import that is to receive the rest of the transactions `all`. -/
def Awaits (good : Tx → Prop) (all : List Tx) (w v : Work σ) : Prop :=
  ∃ rest, v = w.receive rest ∧ w.txs ++ rest = all ∧ ∀ tx ∈ rest, good tx

variable [DecidableEq δ] {author : Author} {dest : Address → Bytes → Prop} {all : List Tx}

variable (hinj : Function.Injective p.signerHash) (hval : author.val = hd.coinbase)
  (hauthor : author.Faithful p) (hreverts : p.Reverts hd)

include hval hauthor in
theorem systemTransaction_backward {toAddress : Address} {data : Bytes} (value : ℕ)
    (hdest : dest toAddress data) : Backward (Awaits (SystemTx p hd dest) all)
      (p.systemTransaction hd toAddress data value (some author))
      (p.systemTransaction hd toAddress data value none) (Awaits (SystemTx p hd dest) all) := by
  rintro w ⟨⟩ w' v' h ⟨rest, rfl, htxs, hgood⟩
  simp only [systemTransaction] at h ⊢
  rw [p.exec_applyTransaction_mining hval] at h
  rcases hsign : author.signTxFn (p.expected
    (getSystemMessage hd.coinbase toAddress data value) w.state) with e | tx
  · simp [hsign] at h
  rw [hsign] at h
  obtain ⟨hcontent, hsender⟩ := hauthor _ tx hsign
  obtain ⟨gasUsed, logs, state, happly, rfl⟩ := p.executeTx_eq_ok h
  refine ⟨w.receive (tx :: rest), ⟨tx :: rest, rfl, ?_, ?_⟩, ?_⟩
  · simpa [recordTx] using htxs
  · intro tx' htx'
    rcases mem_cons.mp htx' with rfl | htx'
    · exact ⟨⟨toAddress, by rw [hcontent]; rfl, by rw [hcontent]; exact hdest⟩,
        by rw [hcontent]; rfl, by rw [hsender, hval]⟩
    · exact hgood tx' htx'
  · rw [p.exec_applyTransaction_import]
    simp only [Work.receive, hcontent, ne_eq, not_true_eq_false, if_false]
    rw [p.exec_executeTx, happly]
    rfl

include hval hauthor in
theorem Script.backward {change : (σ → σ) → ℕ → Prop} {α : Type} {d : ℕ}
    {x : Mining → FinalizeM σ α} (hx : Script p hd change dest d x) :
    Backward (Awaits (SystemTx p hd dest) all) (x (some author)) (x none)
      (Awaits (SystemTx p hd dest) all) := by
  induction hx with
  | step f _ =>
    rintro w a w' v' h ⟨rest, rfl, htxs, hgood⟩
    rw [exec_stateStep] at h
    obtain ⟨ha, rfl⟩ := Prod.mk.inj h
    obtain rfl := Except.ok.inj ha
    exact ⟨w.receive rest, ⟨rest, rfl, htxs, hgood⟩, rfl⟩
  | fail e d =>
    rintro w a w' v' h -
    simp at h
  | call value hdest => exact systemTransaction_backward hval hauthor value hdest
  | rename f _ ih =>
    rintro w a w' v' h hv'
    obtain ⟨v, hv, hexec⟩ := ih w a w' v' (exec_mapError_eq_ok h) hv'
    exact ⟨v, hv, by rw [exec_mapError, hexec]; rfl⟩
  | bind _ _ _ ihx ihf => exact ihx.bind ihf

/-! ## The slash -/

variable {w : Work σ}

include hinj in
theorem exec_slash_import_of_rewarded (val : Address) {rest : List Tx}
    (hrest : ∀ tx ∈ rest, SystemTx p hd Rewarded tx) :
    ∃ e, exec (p.slash val hd none) (w.receive rest) = (.error e, w.receive rest) := by
  rw [slash, systemTransaction, p.exec_applyTransaction_import]
  cases rest with
  | nil => exact ⟨_, rfl⟩
  | cons tx rest =>
    obtain ⟨a, ha, -, hslash⟩ := (hrest tx mem_cons_self).toAddress
    have hne : p.signerHash tx.content ≠ p.signerHash (p.expected (getSystemMessage hd.coinbase
        slashContract (p.pack (.slash val)) 0) w.state) := by
      intro heq
      rw [hinj heq] at ha
      exact hslash (Option.some.inj ha).symm
    exact ⟨_, if_pos hne⟩

variable {w' : Work σ}

include hval hreverts in
theorem slash_failed {val : Address} {e : FinalizeError}
    (h : exec (p.slash val hd (some author)) w = (.error e, w')) : w' = w := by
  rw [slash, systemTransaction, p.exec_applyTransaction_mining hval] at h
  rcases hsign : author.signTxFn (p.expected (getSystemMessage hd.coinbase slashContract
    (p.pack (.slash val)) 0) w.state) with e' | tx
  · rw [hsign] at h
    exact (Prod.mk.inj h).2.symm
  · rw [hsign] at h
    dsimp only at h
    rw [p.exec_executeTx] at h
    rcases happly : p.applyMessage hd (getSystemMessage hd.coinbase slashContract
      (p.pack (.slash val)) 0) w.state with ⟨e' | ⟨gasUsed, logs⟩, state⟩
    · rw [happly] at h
      obtain rfl := hreverts _ _ _ _ rfl happly
      exact (Prod.mk.inj h).2.symm
    · rw [happly] at h
      simp at h

include hinj hval hauthor hreverts in
/-- The slash stage. Before it the producer may still create a slash, after it it does not. -/
theorem slashSpoiled_backward : Backward (Awaits (SystemTx p hd System) all)
      (p.slashSpoiled hd (some author)) (p.slashSpoiled hd none)
      (Awaits (SystemTx p hd Rewarded) all) := by
  rintro w ⟨⟩ w' v' h ⟨rest, rfl, htxs, hgood⟩
  have hweak : ∀ tx ∈ rest, SystemTx p hd System tx := by
    intro tx htx
    obtain ⟨⟨a, ha, hsystem, -⟩, hprice, hsender⟩ := hgood tx htx
    exact ⟨⟨a, ha, hsystem⟩, hprice, hsender⟩
  obtain ⟨spoiled, hspoiled, h⟩ := exec_ofExcept_bind_eq_ok h
  unfold slashSpoiled
  cases spoiled with
  | none =>
    obtain ⟨-, rfl⟩ := Prod.mk.inj h
    refine ⟨w.receive rest, ⟨rest, rfl, htxs, hweak⟩, ?_⟩
    rw [exec_bind_ofExcept, hspoiled]
    rfl
  | some val =>
    rw [exec_bind_ok (exec_attempt ..)] at h
    obtain ⟨-, rfl⟩ := Prod.mk.inj h
    rcases hslash : exec (p.slash val hd (some author)) w with ⟨e | ⟨⟩, w₁⟩
    · obtain rfl := slash_failed hval hreverts hslash
      rw [hslash] at htxs
      refine ⟨w₁.receive rest, ⟨rest, rfl, htxs, hweak⟩, ?_⟩
      obtain ⟨e', himport⟩ := exec_slash_import_of_rewarded hinj val (w := w₁) hgood
      rw [exec_bind_ofExcept, hspoiled]
      dsimp only
      rw [exec_bind_ok (exec_attempt ..), himport]
      rfl
    · have hsystem : System slashContract (p.pack (.slash val)) :=
        (by decide : isToSystemContract slashContract = true)
      rw [hslash] at htxs
      obtain ⟨v, hv, himport⟩ := systemTransaction_backward hval hauthor _ hsystem w () w₁
        (w₁.receive rest) hslash ⟨rest, rfl, htxs, hweak⟩
      refine ⟨v, hv, ?_⟩
      have himport : exec (p.slash val hd none) v = (.ok (), w₁.receive rest) := himport
      rw [exec_bind_ofExcept, hspoiled]
      dsimp only
      rw [exec_bind_ok (exec_attempt ..), himport]
      rfl

/-! ## A transaction that cannot be matched -/

/-- The next received transaction has a nonce that the coinbase has already used. -/
def Blocked (p : Finalizer σ δ) (header : BlockHead) (w : Work σ) : Prop :=
  ∃ tx rest, w.systemTxs = some (tx :: rest) ∧
    tx.content.nonce < p.db.getNonce w.state header.coinbase

section

variable (hinj : Function.Injective p.signerHash)
include hinj

theorem Blocked.exec_systemTransaction (hw : Blocked p hd w) (toAddress : Address) (data : Bytes)
    (value : ℕ) :
    (exec (p.systemTransaction hd toAddress data value none) w).2 = w := by
  obtain ⟨tx, rest, htxs, hnonce⟩ := hw
  have hne : p.signerHash tx.content ≠ p.signerHash (p.expected
      (getSystemMessage hd.coinbase toAddress data value) w.state) := by
    intro heq
    rw [hinj heq] at hnonce
    exact lt_irrefl _ hnonce
  rw [systemTransaction, p.exec_applyTransaction_import, htxs]
  exact congrArg Prod.snd (if_pos hne)

theorem Script.preserves_blocked {α : Type} {d : ℕ} {x : Mining → FinalizeM σ α}
    (hx : Script p hd (fun f _ => ∀ s, p.db.getNonce (f s) hd.coinbase =
      p.db.getNonce s hd.coinbase) dest d x) : Preserves (Blocked p hd) (x none) := by
  induction hx with
  | step f hf =>
    rintro w ⟨tx, rest, htxs, hnonce⟩
    exact ⟨tx, rest, htxs, hnonce.trans_eq (hf w.state).symm⟩
  | fail e d => exact Preserves.throw e
  | @call toAddress data value _ =>
    intro w hw
    rw [hw.exec_systemTransaction hinj]
    exact hw
  | rename f _ ih => exact ih.mapError f
  | bind _ _ _ ihx ihf => exact ihx.bind ihf

theorem preserves_blocked_slashSpoiled : Preserves (Blocked p hd) (p.slashSpoiled hd none) := by
  refine (Preserves.ofExcept _).bind fun spoiled => ?_
  cases spoiled with
  | none => exact Preserves.pure ()
  | some val =>
    intro w hw
    rw [exec_bind_ok (exec_attempt ..)]
    exact (hw.exec_systemTransaction hinj _ _ _).symm ▸ hw

theorem finalize_blocked {hd : Header}
    (hnonces : Permits p hd.head fun f _ => ∀ s, p.db.getNonce (f s) hd.coinbase =
      p.db.getNonce s hd.coinbase) (hw : Blocked p hd.head w) :
    exec (p.finalize hd) w ≠ (.ok (), w') := by
  intro h
  obtain ⟨-, -, parent, w₁, w₂, -, hopen, hslash, hclose, hrest⟩ := p.finalize_eq_ok h
  have h₁ := (script_openBlock_any hnonces parent).preserves_blocked hinj w hw
  rw [hopen] at h₁
  have h₂ := preserves_blocked_slashSpoiled hinj w₁ h₁
  rw [hslash] at h₂
  obtain ⟨d, hscript⟩ := exists_script_closeBlock hnonces hd.coinbase parent
  have h₃ := hscript.preserves_blocked hinj w₂ h₂
  rw [hclose] at h₃
  obtain ⟨tx, rest, htxs, -⟩ := h₃
  rw [show w'.systemTxs = some (tx :: rest) from htxs] at hrest
  exact cons_ne_nil tx rest hrest

end

include hinj in
/-- Nor is a block accepted that activates Feynman: the contracts that are initialised then are not
system contracts, so the transactions of the producer are not among the received ones. -/
theorem finalize_onFeynman {hd parent : Header}
    (hparent : p.chain.getHeaderByHash p.k hd.parentHash = some parent)
    (hfeynman : p.isOnFeynman hd.head parent = true) {txs : List Tx} (hw : w.systemTxs = some txs)
    (htxs : ∀ tx ∈ txs, ∃ a, tx.content.toAddress = some a ∧ isToSystemContract a = true) :
    exec (p.finalize hd) w ≠ (.ok (), w') := by
  intro h
  obtain ⟨-, -, parent', w₁, -, hparent', hopen, -⟩ := p.finalize_eq_ok h
  obtain rfl := Option.some.inj (hparent.symm.trans hparent')
  unfold openBlock at hopen
  obtain ⟨⟨⟩, w₂, hupgrade, hopen⟩ := exec_bind_eq_ok hopen
  obtain ⟨⟨⟩, w₃, hinit, -⟩ := exec_bind_eq_ok hopen
  obtain ⟨-, rfl⟩ := Prod.mk.inj ((exec_stateStep _ w).symm.trans hupgrade)
  rw [initFeynman, if_pos hfeynman] at hinit
  obtain ⟨⟨⟩, w₄, hfirst, -⟩ := exec_bind_eq_ok (exec_mapError_eq_ok hinit)
  rw [systemTransaction, p.exec_applyTransaction_import] at hfirst
  dsimp only at hfirst
  rw [hw] at hfirst
  cases txs with
  | nil => simp at hfirst
  | cons tx txs =>
    obtain ⟨a, ha, hsystem⟩ := htxs tx mem_cons_self
    dsimp only at hfirst
    split_ifs at hfirst with hhash
    · simp at hfirst
    · rw [hinj (not_not.mp hhash)] at ha
      obtain rfl := Option.some.inj ha
      have hhub : isToSystemContract stakeHubContract = false := by decide
      exact Bool.false_ne_true (hhub.symm.trans hsystem)

/-! ## The epoch checks on a prepared header -/

/-- A header as `Prepare` leaves it, with the data that the engine has looked up for it. The
contracts are asked on epoch blocks only. -/
structure Prepared (p : Finalizer σ δ) (author : Author) (d : PrepareData) (vanity : FixedBytes 32)
    (header : Header) : Prop where
  coinbase : header.coinbase = author.val
  epochLength : p.epochLength header.head = .ok d.epochLength
  validators : header.number % d.epochLength = 0 →
    p.getCurrentValidators header.head = .ok (d.newValidators, d.voteAddressMap)
  turnLength : header.number % d.epochLength = 0 → p.c.isBohr header.number header.time = true →
    p.getTurnLength header.head = .ok d.turnLength
  extra : prepareExtra p.c d vanity header = header

/-- On an epoch block the decoders find in the header what `Prepare` has written. -/
structure EpochReadsBack (p : Finalizer σ δ) (d : PrepareData) (header : Header) : Prop where
  validators : header.number % d.epochLength = 0 →
    getValidatorBytesFromHeader header p.c d.epochLength =
      p.validatorsBytes header.number (sortValidators d.newValidators) d.voteAddressMap
  turnLength : header.number % d.epochLength = 0 → p.c.isBohr header.number header.time = true →
    parseTurnLength header p.c d.epochLength = .ok (some d.turnLength)

variable {d : PrepareData} {vanity : FixedBytes 32}

omit [DecidableEq δ] in
theorem Prepared.count {hd : Header} (h : Prepared p author d vanity hd)
    (hepoch : hd.number % d.epochLength = 0) (hluban : p.c.isLuban hd.number = true) :
    hd.extra.getD extraVanity 0 = UInt8.ofNat (sortValidators d.newValidators).length := by
  have hextra := congrArg Header.extra h.extra
  simp only [prepareExtra, prepareValidators_eq, prepareTurnLength_eq, prepareFrequencies_eq,
    validatorSection, hepoch, hluban, ne_eq, not_true_eq_false, if_false, Bool.not_true,
    Bool.false_eq_true] at hextra
  rw [← hextra]
  simp [extraVanity]

omit [DecidableEq δ] in
theorem Prepared.verifyValidators_iff {hd : Header} (h : Prepared p author d vanity hd) :
    p.verifyValidators hd = .ok () ↔ (hd.number % d.epochLength = 0 →
      getValidatorBytesFromHeader hd p.c d.epochLength =
        p.validatorsBytes hd.number (sortValidators d.newValidators) d.voteAddressMap) := by
  unfold verifyValidators
  rw [h.epochLength]
  by_cases hepoch : hd.number % d.epochLength = 0
  · have hcount : ¬(p.c.isLuban hd.number = true ∧
        UInt8.ofNat (sortValidators d.newValidators).length ≠ hd.extra.getD extraVanity 0) :=
      fun ⟨hluban, hne⟩ => hne (h.count hepoch hluban).symm
    simp only [liftErr, Except.mapError, ok_bind, hepoch, h.validators hepoch, ne_eq,
      not_true_eq_false, if_false, hcount, forall_const]
    split_ifs with hbytes <;> simp_all
  · simp [liftErr, Except.mapError, hepoch]

omit [DecidableEq δ] in
theorem Prepared.verifyTurnLength_iff {hd : Header} (h : Prepared p author d vanity hd) :
    p.verifyTurnLength hd = .ok () ↔ (hd.number % d.epochLength = 0 →
      p.c.isBohr hd.number hd.time = true →
      parseTurnLength hd p.c d.epochLength = .ok (some d.turnLength)) := by
  unfold verifyTurnLength
  rw [h.epochLength]
  by_cases hepoch : hd.number % d.epochLength = 0
  · by_cases hbohr : p.c.isBohr hd.number hd.time = true
    · rw [h.turnLength hepoch hbohr]
      rcases hparse : parseTurnLength hd p.c d.epochLength with e | _ | turnLength
      · simp [liftErr, Except.mapError, hepoch, hbohr, hparse]
      · simp [liftErr, Except.mapError, hepoch, hbohr, hparse]
      · by_cases heq : d.turnLength = turnLength
        · simp [liftErr, Except.mapError, hepoch, hbohr, hparse, heq]
        · simp [liftErr, Except.mapError, hepoch, hbohr, hparse, heq, Ne.symm heq]
    · simp [liftErr, Except.mapError, hepoch, hbohr]
  · simp [liftErr, Except.mapError, hepoch]

/-! ## Assembled blocks -/

/-- The block passes on a node that starts from the same state: its transactions are split, and
`Finalize` succeeds with the state, the gas and the receipts of the producer. -/
def Validates (p : Finalizer σ δ) (block : Block) (s : σ) (receipts : List Receipt) (gasUsed : ℕ)
    (w : Work σ) : Prop :=
  ∃ commonTxs systemTxs w',
    p.splitTxs block.header.head [] [] block.transactions = .ok (commonTxs, systemTxs) ∧
    exec (p.finalize block.header) ⟨s, commonTxs, receipts, some systemTxs, gasUsed⟩ =
      (.ok (), w') ∧
    w'.state = w.state ∧ w'.usedGas = w.usedGas ∧ w'.receipts = w.receipts

include hinj hauthor hreverts in
theorem stages_import {parent : Header} {w₁ w₂ w₃ : Work σ} (hval : author.val = hd.coinbase)
    (hfeynman : p.isOnFeynman hd parent = false)
    (hopen : exec (p.openBlock hd parent (some author)) w = (.ok (), w₁))
    (hslash : exec (p.slashSpoiled hd (some author)) w₁ = (.ok (), w₂))
    (hclose : exec (p.closeBlock author.val hd parent (some author)) w₂ = (.ok (), w₃)) :
    ∃ created v₁ v₂, w.txs ++ created = w₃.txs ∧ (∀ tx ∈ created, SystemTx p hd System tx) ∧
      exec (p.openBlock hd parent none) (w.receive created) = (.ok (), v₁) ∧
      exec (p.slashSpoiled hd none) v₁ = (.ok (), v₂) ∧
      exec (p.closeBlock hd.coinbase hd parent none) v₂ = (.ok (), w₃.receive []) := by
  have hp : Permits p hd fun _ _ => True :=
    ⟨trivial, fun _ => trivial, fun _ _ => trivial, fun _ => trivial, trivial⟩
  rw [hval] at hclose
  obtain ⟨d, hscript⟩ := exists_script_closeBlock hp hd.coinbase parent
  have hend : Awaits (SystemTx p hd Rewarded) w₃.txs w₃ (w₃.receive []) :=
    ⟨[], rfl, append_nil _, by simp⟩
  obtain ⟨v₂, hv₂, hclose'⟩ := hscript.backward hval hauthor w₂ () w₃ _ hclose hend
  obtain ⟨v₁, hv₁, hslash'⟩ :=
    slashSpoiled_backward hinj hval hauthor hreverts w₁ () w₂ v₂ hslash hv₂
  obtain ⟨v, ⟨created, rfl, htxs, hgood⟩, hopen'⟩ :=
    ((script_openBlock hp hfeynman).mono fun _ _ h => h.1).backward hval hauthor w () w₁
      v₁ hopen hv₁
  exact ⟨created, v₁, v₂, htxs, hgood, hopen', hslash', hclose'⟩

/-- An assembled block passes exactly if the epoch sections of its header read back, it does not
activate Feynman, and none of the transactions it was assembled from counts as a system
transaction. -/
theorem assembled_block_validates_iff {d : PrepareData} {vanity : FixedBytes 32} {header : Header}
    {s : σ} {common : List Tx} {receipts : List Receipt} {block : Block} {w : Work σ}
    (hinj : Function.Injective p.signerHash) (hauthor : author.Faithful p)
    (hreverts : p.Reverts header.head)
    (hnonces : Permits p header.head fun f _ => ∀ s, p.db.getNonce (f s) header.coinbase =
      p.db.getNonce s header.coinbase) (hprepared : Prepared p author d vanity header)
    (hused : ∀ tx ∈ common, p.sender tx = some header.coinbase →
      tx.content.nonce < p.db.getNonce s header.coinbase)
    (h : exec (p.finalizeAndAssemble author header) ⟨s, common, receipts, none, header.gasUsed⟩ =
      (.ok block, w)) : Validates p block s receipts header.gasUsed w ↔ EpochReadsBack p d header ∧
      (∀ parent, p.chain.getHeaderByHash p.k header.parentHash = some parent →
        p.isOnFeynman header.head parent = false) ∧
      ∀ tx ∈ common, p.isSystemTransaction tx header.head = .ok false := by
  obtain ⟨parent, w₁, w₂, hparent, hopen, hslash, hclose, root, rfl⟩ :=
    p.finalizeAndAssemble_eq_ok h
  constructor
  · rintro ⟨commonTxs, systemTxs, w', hsplit, hfinal, -⟩
    obtain ⟨hkinds, -, rfl⟩ := splitTxs_eq_ok hsplit
    have hfeynman : p.isOnFeynman header.head parent = false := by
      by_contra hon
      refine finalize_onFeynman hinj hparent (Bool.eq_true_of_not_eq_false hon) rfl ?_ hfinal
      intro tx htx
      have hsystem := of_decide_eq_true (mem_filter.mp htx).2
      exact (systemTx_of_isSystemTransaction hsystem).toAddress
    refine ⟨⟨?_, ?_⟩, ?_, ?_⟩
    · exact hprepared.verifyValidators_iff.mp (p.finalize_eq_ok hfinal).1
    · exact hprepared.verifyTurnLength_iff.mp (p.finalize_eq_ok hfinal).2.1
    · intro parent' hparent'
      obtain rfl := Option.some.inj (hparent.symm.trans hparent')
      exact hfeynman
    · intro tx htx
      obtain ⟨created, -, -, htxs, -⟩ := stages_import hinj hauthor hreverts
        hprepared.coinbase.symm hfeynman hopen hslash hclose
      have hmem : tx ∈ w.txs := by
        rw [← htxs]
        exact mem_append_left _ htx
      refine (hkinds tx hmem).resolve_left fun hsystem => ?_
      obtain ⟨first, rest, hcons, hfirst, hkind⟩ := exists_first_system hsystem htx created
      have hsender := (systemTx_of_isSystemTransaction hkind).sender
      refine finalize_blocked hinj hnonces ⟨first, rest, ?_, hused first hfirst hsender⟩ hfinal
      dsimp only at htxs ⊢
      rw [← htxs]
      exact congrArg some hcons
  · rintro ⟨hreads, hfeynman, hcommon⟩
    obtain ⟨created, v₁, v₂, htxs, hgood, hopen', hslash', hclose'⟩ := stages_import hinj hauthor
      hreverts hprepared.coinbase.symm (hfeynman parent hparent) hopen hslash hclose
    have hsplit := splitTxs_append [] hcommon fun tx htx => (hgood tx htx).isSystemTransaction
    refine ⟨common, created, w.receive [], ?_, ?_, rfl, rfl, rfl⟩
    · dsimp only at htxs ⊢
      rw [← htxs]
      exact hsplit
    · exact p.finalize_ok (hprepared.verifyValidators_iff.mpr hreads.validators)
        (hprepared.verifyTurnLength_iff.mpr hreads.turnLength) hparent hopen' hslash' hclose' rfl

/-! ### In the small world -/

section SmallWorld

variable (time : Params.TimeFork → Option ℕ) (headers : List Header)

theorem smallAuthor_faithful : smallAuthor.Faithful (smallEngine time headers) := by
  rintro content tx ⟨⟩
  exact ⟨rfl, rfl⟩

theorem smallEngine_permits (hd : BlockHead) : Permits (smallEngine time headers) hd fun f _ => ∀ s,
      (smallEngine time headers).db.getNonce (f s) hd.coinbase =
        (smallEngine time headers).db.getNonce s hd.coinbase := by
  refine ⟨fun _ => rfl, fun parent s => ?_, fun _ _ _ => rfl, fun amount s => ?_, fun s => ?_⟩
  · unfold tryUpdateBuildInSystemContract
    split_ifs <;> rfl
  · simp only [smallEngine, Purse.ops]
    split_ifs <;> rfl
  · simp only [sweepIncome, smallEngine, Purse.ops, if_true]
    split_ifs <;> rfl

/-- What was looked up for a block of the small world. -/
def smallPrepareData : PrepareData := { (default : PrepareData) with epochLength := 200 }

def smallPrepared (number time : ℕ) : Header :=
  prepareExtra default smallPrepareData default (smallHeader number time)

theorem smallPrepared_prepared :
    Prepared (smallEngine time headers) smallAuthor smallPrepareData default
      (smallPrepared 5 10) := by
  have hepoch : ¬(smallPrepared 5 10).number % smallPrepareData.epochLength = 0 := by decide
  exact ⟨rfl, rfl, fun h => absurd h hepoch, fun h => absurd h hepoch, rfl⟩

end SmallWorld

/-- A block with fees to distribute. -/
theorem assembled_block_validates_iff_fees :
    let p := smallEngine (fun _ => none) [smallHeader 4 5]
    ∃ block w, exec (p.finalizeAndAssemble smallAuthor (smallPrepared 5 10))
        ⟨⟨7, 50, 1000⟩, [], [], none, 0⟩ = (.ok block, w) ∧
      Validates p block ⟨7, 50, 1000⟩ [] 0 w := by
  intro p
  have hrun : (exec (p.finalizeAndAssemble smallAuthor (smallPrepared 5 10))
      ⟨⟨7, 50, 1000⟩, [], [], none, 0⟩).1.isOk = true := by decide
  obtain ⟨block, w, hexec⟩ := exists_of_isOk hrun
  have hepoch : ¬(smallPrepared 5 10).number % smallPrepareData.epochLength = 0 := by decide
  have hreads : EpochReadsBack p smallPrepareData (smallPrepared 5 10) :=
    ⟨fun h => absurd h hepoch, fun h => absurd h hepoch⟩
  have hfeynman : ∀ parent : Header, p.isOnFeynman (smallPrepared 5 10).head parent = false := by
    intro parent
    simp [isOnFeynman, p, smallEngine, Params.ChainConfig.isFeynman,
      Params.ChainConfig.isForkedAfterLondon, Params.isTimestampForked]
  have hiff := assembled_block_validates_iff Function.injective_id (smallAuthor_faithful _ _)
    (fun msg s e s' _ h => nomatch h) (smallEngine_permits _ _ _) (smallPrepared_prepared _ _)
    (by simp) hexec
  exact ⟨block, w, hexec, hiff.mpr ⟨hreads, fun parent _ => hfeynman parent, by simp⟩⟩

/-- The block that activates Feynman is assembled and then refused. -/
theorem feynman_block_refused :
    let p := smallEngine (fun fork => if fork = .feynman then some 8 else none) [smallHeader 4 5]
    ∃ block w, exec (p.finalizeAndAssemble smallAuthor (smallPrepared 5 10))
        ⟨⟨7, 50, 1000⟩, [], [], none, 0⟩ = (.ok block, w) ∧
      Prepared p smallAuthor smallPrepareData default (smallPrepared 5 10) ∧
      ¬Validates p block ⟨7, 50, 1000⟩ [] 0 w := by
  intro p
  have hrun : (exec (p.finalizeAndAssemble smallAuthor (smallPrepared 5 10))
      ⟨⟨7, 50, 1000⟩, [], [], none, 0⟩).1.isOk = true := by decide
  have hparent : p.chain.getHeaderByHash p.k (smallPrepared 5 10).parentHash =
      some (smallHeader 4 5) := by decide
  have hfeynman : p.isOnFeynman (smallPrepared 5 10).head (smallHeader 4 5) = true := by
    decide
  obtain ⟨block, w, hexec⟩ := exists_of_isOk hrun
  refine ⟨block, w, hexec, smallPrepared_prepared _ _, ?_⟩
  rintro ⟨commonTxs, systemTxs, w', hsplit, hfinal, -⟩
  obtain ⟨parent, w₁, w₂, -, -, -, -, root, rfl⟩ := p.finalizeAndAssemble_eq_ok hexec
  obtain ⟨-, -, rfl⟩ := splitTxs_eq_ok hsplit
  refine finalize_onFeynman Function.injective_id hparent hfeynman rfl ?_ hfinal
  intro tx htx
  exact (systemTx_of_isSystemTransaction (of_decide_eq_true (mem_filter.mp htx).2)).toAddress

end ChilizChain
