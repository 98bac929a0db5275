import ChilizChain.Parlia.Script

/-! The money supply along a chain. Finalisation creates money in three places, the two one-time
mints and the inflation of a Dragon8 block; everything else moves it. The one-time mints compare the
times of a block and of its parent, so along a chain whose times do not decrease each of them
happens where the times pass its fork, and nowhere else. -/

namespace ChilizChain

open Stateful Finalizer Params

variable {σ δ : Type}

/-! ## The supply across a block -/

/-- A total of all balances, which the operations of the state change by what they say as long as
it fits into a word. -/
structure Conserves (p : Finalizer σ δ) (supply : σ → ℕ) : Prop where
  addBalance : ∀ s a v, supply s + v < 2 ^ 256 → supply (p.db.addBalance s a v) = supply s + v
  setBalance : ∀ s a, supply (p.db.setBalance s a 0) + p.db.getBalance s a = supply s
  setCode : ∀ s a code, supply (p.db.setCode s a code) = supply s
  upgrade : ∀ n t t' s, supply (p.upgradeBuildInSystemContract n t t' s) = supply s

/-- The execution of a message moves money, and finalising the state after it destroys none. -/
def Finalizer.MovesMoney (p : Finalizer σ δ) (supply : σ → ℕ) (header : BlockHead) (msg : Message)
    (s : σ) : Prop :=
  supply (p.applyMessage header msg s).2 = supply s ∧
  ∀ gasUsed logs state nonce, p.applyMessage header msg s = (.ok (gasUsed, logs), state) →
    supply (p.finaliseTx header (p.db.setNonce state msg.fromAddress nonce)).2 = supply s

open Classical in
/-- The machine on which a message that creates or destroys money fails. -/
noncomputable def Finalizer.conserving (p : Finalizer σ δ) (supply : σ → ℕ) : Finalizer σ δ :=
  { p with
    applyMessage := fun header msg s =>
      if p.MovesMoney supply header msg s then p.applyMessage header msg s
      else (.error .outOfGas, s) }

theorem Finalizer.conserving_movesMoney (p : Finalizer σ δ) (supply : σ → ℕ) (header : BlockHead)
    (msg : Message) (s : σ) : (p.conserving supply).MovesMoney supply header msg s := by
  by_cases h : p.MovesMoney supply header msg s
  · have happly : (p.conserving supply).applyMessage header msg s = p.applyMessage header msg s :=
      if_pos h
    unfold MovesMoney
    rw [happly]
    exact h
  · have hfails : (p.conserving supply).applyMessage header msg s = (.error .outOfGas, s) :=
      if_neg h
    unfold MovesMoney
    rw [hfails]
    exact ⟨rfl, nofun⟩

namespace Conserves

variable {p : Finalizer σ δ} {supply : σ → ℕ} {header hd : BlockHead}

variable (supply) in
/-- The change adds `d` to the supply. -/
def Increases (f : σ → σ) (d : ℕ) : Prop :=
  ∀ s, supply s + d < 2 ^ 256 → supply (f s) = supply s + d

section Operations

variable (hs : Conserves p supply)
include hs

theorem sweepIncome (s : σ) (hlimit : supply s < 2 ^ 256) :
    supply (p.sweepIncome hd s).2 = supply s := by
  unfold Finalizer.sweepIncome
  dsimp only
  split_ifs with hzero
  · rfl
  · have hset := hs.setBalance s systemAddress
    rw [hs.addBalance _ _ _ (by omega), hset]

theorem permits : Permits p hd (Increases supply) where
  skip _ _ := rfl
  upgrade parent s _ := by
    unfold tryUpdateBuildInSystemContract
    split_ifs
    · exact hs.upgrade _ _ _ s
    · rfl
  setCode address code s _ := hs.setCode s address code
  addBalance amount s hlimit := hs.addBalance s hd.coinbase amount hlimit
  sweep s hlimit := hs.sweepIncome s hlimit

end Operations

variable (hmoves : ∀ header msg s, p.MovesMoney supply header msg s)
include hmoves

theorem executeTx (msg : Message) (nonce : ℕ) (tx : Tx) (w : Work σ) :
    supply (exec (p.executeTx hd msg nonce tx) w).2.state = supply w.state := by
  obtain ⟨hleft, hclosed⟩ := hmoves hd msg w.state
  rw [exec_executeTx]
  rcases hexec : p.applyMessage hd msg w.state with ⟨_ | ⟨gasUsed, logs⟩, state⟩
  · rw [hexec] at hleft
    exact hleft
  · exact hclosed gasUsed logs state _ hexec

variable [DecidableEq δ]

theorem applyTransaction (msg : Message) (mining : Mining) (w : Work σ) :
    supply (exec (p.applyTransaction hd msg mining) w).2.state = supply w.state := by
  have htake := p.takeTx_state msg (expectedTx msg (p.db.getNonce w.state msg.fromAddress)) mining w
  rw [Finalizer.applyTransaction, exec_bind_ok (exec_get w), exec_bind]
  rcases hexec : exec (p.takeTx msg (expectedTx msg (p.db.getNonce w.state msg.fromAddress))
    mining) w with ⟨_ | tx, w₁⟩
  · rw [hexec] at htake
    exact congrArg supply htake
  · rw [hexec] at htake
    exact (executeTx hmoves _ _ tx w₁).trans (congrArg supply htake)

theorem adds_of_script {α : Type} {d : ℕ} {dest : Address → Bytes → Prop}
    {x : Mining → FinalizeM σ α} (hx : Script p header (Increases supply) dest d x)
    (mining : Mining) : Adds (2 ^ 256) (fun w => supply w.state) d (x mining) := by
  induction hx with
  | step f hf =>
    intro w a w' h hlimit
    rw [exec_stateStep] at h
    obtain ⟨-, rfl⟩ := Prod.mk.inj h
    exact hf w.state hlimit
  | fail e d =>
    intro w a w' h
    simp at h
  | @call toAddress data value _ =>
    intro w a w' h _
    have happly : supply (exec (p.systemTransaction header toAddress data value mining) w).2.state =
      supply w.state := applyTransaction hmoves _ mining w
    rw [h] at happly
    exact happly
  | rename f _ ih =>
    intro w a w' h
    exact ih w a w' (exec_mapError_eq_ok h)
  | bind _ _ hd ihx ihf =>
    rw [hd]
    exact ihx.bind ihf

theorem slashSpoiled (mining : Mining) {w w' : Work σ}
    (h : exec (p.slashSpoiled hd mining) w = (.ok (), w')) :
    supply w'.state = supply w.state := by
  obtain ⟨spoiled, -, h⟩ := exec_ofExcept_bind_eq_ok h
  cases spoiled with
  | none =>
    obtain ⟨-, rfl⟩ := Prod.mk.inj h
    rfl
  | some spoiledVal =>
    rw [exec_bind_ok (exec_attempt ..)] at h
    obtain ⟨-, rfl⟩ := Prod.mk.inj h
    exact applyTransaction hmoves _ mining w

theorem stages (hs : Conserves p supply) {val : Address} {mining : Mining} {parent above : Header}
    {w w₁ w₂ w' : Work σ}
    (habove : p.chain.getHeader p.k hd.parentHash (sub64 hd.number 1) = some above)
    (hlimit : supply w.state + p.minted hd above < 2 ^ 256)
    (hopen : exec (p.openBlock hd parent mining) w = (.ok (), w₁))
    (hslash : exec (p.slashSpoiled hd mining) w₁ = (.ok (), w₂))
    (hclose : exec (p.closeBlock val hd parent mining) w₂ = (.ok (), w')) :
    supply w'.state = supply w.state + p.minted hd above := by
  have h₁ : supply w₁.state = supply w.state :=
    adds_of_script hmoves (script_openBlock_any hs.permits parent) mining _ _ _ hopen
      (lt_of_le_of_lt (Nat.add_le_add_left (Nat.zero_le _) _) hlimit)
  have h₂ : supply w₂.state = supply w.state := (slashSpoiled hmoves mining hslash).trans h₁
  have hlimit₂ : supply w₂.state + p.minted hd above < 2 ^ 256 := by rwa [h₂]
  have h₃ := adds_of_script hmoves (script_closeBlock hs.permits val parent habove) mining _ _ _
    hclose hlimit₂
  exact h₃.trans (congrArg (· + p.minted hd above) h₂)

end Conserves

/-! ## Blocks of a chain -/

/-- A node has finalised the block, on import or when it produced it. -/
inductive Finalised [DecidableEq δ] (p : Finalizer σ δ) (header : Header) :
    Work σ → Work σ → Prop
  | imported {w w' : Work σ} (h : exec (p.finalize header) w = (.ok (), w')) :
    Finalised p header w w'
  | assembled {w w' : Work σ} (author : Author) (block : Block)
    (h : exec (p.finalizeAndAssemble author header) w = (.ok block, w')) :
    Finalised p header w w'

/-- A block with the work before and after its finalisation. The transactions of the next block
stand between `after` and the next `before`. -/
structure FinalBlock (σ : Type) where
  header : Header
  before : Work σ
  after : Work σ

/-- Blocks on top of `parent`, oldest first, with times that do not decrease. -/
def ChainFrom [DecidableEq δ] (p : Finalizer σ δ) : Header → List (FinalBlock σ) → Prop
  | _, [] => True
  | parent, b :: blocks =>
    p.chain.getHeader p.k b.header.parentHash (sub64 b.header.number 1) = some parent ∧
    parent.time ≤ b.header.time ∧ Finalised p b.header b.before b.after ∧
    ChainFrom p b.header blocks

/-- The last header of a chain. -/
def headOf (genesis : Header) : List (FinalBlock σ) → Header
  | [] => genesis
  | b :: blocks => headOf b.header blocks

/-- Every block with its parent. -/
def links (genesis : Header) : List (FinalBlock σ) → List (Header × FinalBlock σ)
  | [] => []
  | b :: blocks => (genesis, b) :: links b.header blocks

/-- Whether a fork time lies after the genesis block and not after the head. -/
def passedBetween (fork : Option ℕ) (genesisTime headTime : ℕ) : Bool :=
  match fork with
  | none => false
  | some forkTime => decide (genesisTime < forkTime ∧ forkTime ≤ headTime)

variable {p : Finalizer σ δ} {supply : σ → ℕ} {genesis : Header} {blocks : List (FinalBlock σ)}

/-- The supply across a block whose transactions move money: on the machine that fails all others it
is finalised with the same result. -/
theorem Conserves.finalised [DecidableEq δ] (hs : Conserves p supply) {hd above : Header}
    {w w' : Work σ} (h : Finalised (p.conserving supply) hd w w')
    (habove : p.chain.getHeader p.k hd.parentHash (sub64 hd.number 1) = some above)
    (hlimit : supply w.state + p.minted hd.head above < 2 ^ 256) :
    supply w'.state = supply w.state + p.minted hd.head above := by
  have hs' : Conserves (p.conserving supply) supply := ⟨hs.1, hs.2, hs.3, hs.4⟩
  have hmoves := p.conserving_movesMoney supply
  cases h with
  | imported h =>
    obtain ⟨-, -, parent, w₁, w₂, -, hopen, hslash, hclose, -⟩ := finalize_eq_ok _ h
    exact stages hmoves hs' habove hlimit hopen hslash hclose
  | assembled author block h =>
    obtain ⟨parent, w₁, w₂, -, hopen, hslash, hclose, -⟩ := finalizeAndAssemble_eq_ok _ h
    exact stages hmoves hs' habove hlimit hopen hslash hclose

theorem ChainFrom.time_le [DecidableEq δ] (h : ChainFrom p genesis blocks) :
    genesis.time ≤ (headOf genesis blocks).time := by
  induction blocks generalizing genesis with
  | nil => exact le_rfl
  | cons b blocks ih => exact h.2.1.trans (ih h.2.2.2)

/-- Along a chain a test that compares the times of a block and its parent with a fork time fires
as often as the fork time is passed: once or never. -/
theorem count_activations [DecidableEq δ] (fork : Option ℕ) (h : ChainFrom p genesis blocks) :
    ((links genesis blocks).countP fun link => !isTimestampForked fork link.1.time &&
        isTimestampForked fork link.2.header.time) =
      if passedBetween fork genesis.time (headOf genesis blocks).time then 1 else 0 := by
  induction blocks generalizing genesis with
  | nil =>
    cases fork with
    | none => rfl
    | some forkTime =>
      have hempty : ¬(genesis.time < forkTime ∧ forkTime ≤ genesis.time) := by omega
      simp [links, passedBetween, headOf, hempty]
  | cons b blocks ih =>
    have hle := h.2.1
    have hhead := ChainFrom.time_le h.2.2.2
    rw [links, List.countP_cons, ih h.2.2.2]
    cases fork with
    | none => simp [passedBetween, isTimestampForked]
    | some forkTime =>
      rw [headOf]
      simp only [passedBetween, isTimestampForked, Bool.and_eq_true, decide_eq_true_eq,
        Bool.not_eq_true', decide_eq_false_iff_not]
      split_ifs <;> omega

theorem ChainFrom.parent_of_mem [DecidableEq δ] (h : ChainFrom p genesis blocks) :
    ∀ link ∈ links genesis blocks, p.chain.getHeader p.k link.2.header.parentHash
      (sub64 link.2.header.number 1) = some link.1 := by
  induction blocks generalizing genesis with
  | nil => simp [links]
  | cons b blocks ih =>
    intro link hlink
    rcases List.mem_cons.mp hlink with rfl | hlink
    · exact h.1
    · exact ih h.2.2.2 link hlink

/-- Each of the two mints happens in exactly one block if its fork time lies after the genesis
block and not after the head, else in none; and every block whose transactions move money adds to
the supply the mints that happen in it and its inflation, as long as that fits into a word. -/
theorem one_time_mints_once [DecidableEq δ] (hs : Conserves p supply)
    (h : ChainFrom p genesis blocks) : ((links genesis blocks).countP fun link =>
        p.isPepper8Block link.2.header.time link.1.time) =
      (if passedBetween (p.forks.time .pepper8) genesis.time (headOf genesis blocks).time then 1
        else 0) ∧
    ((links genesis blocks).countP fun link => p.isPipe8Block link.2.header.time link.1.time) =
      (if passedBetween (p.forks.time .pipe8) genesis.time (headOf genesis blocks).time then 1
        else 0) ∧
    ∀ link ∈ links genesis blocks, ∀ minted,
      minted = (if p.isPepper8Block link.2.header.time link.1.time then pepper8MintAmount else 0) +
          (if p.isPipe8Block link.2.header.time link.1.time then pipe8MintAmount else 0) +
          p.inflation link.2.header.head →
      Finalised (p.conserving supply) link.2.header link.2.before link.2.after →
      supply link.2.before.state + minted < 2 ^ 256 →
      supply link.2.after.state = supply link.2.before.state + minted := by
  refine ⟨count_activations _ h, count_activations _ h, fun link hlink minted hminted hmoves => ?_⟩
  rw [hminted]
  exact hs.finalised hmoves (h.parent_of_mem link hlink)

/-- Both mints in one block, the inflation of Dragon8 and a distribution of fees. -/
theorem one_time_mints_once_both :
    let time : Params.TimeFork → Option ℕ
      | .pepper8 => some 8
      | .pipe8 => some 9
      | .dragon8Fix => some 1
      | _ => none
    let p := smallEngine time [smallHeader 4 5, smallHeader 5 10]
    ∃ after : Work Purse, Finalised p (smallHeader 5 10) ⟨⟨7, 50, 1000⟩, [], [], none, 0⟩ after ∧
      after.state.fees + after.state.others =
        1050 + (pepper8MintAmount + pipe8MintAmount + 74379496319128800000) := by
  intro time p
  have hlaws : Conserves p fun s => s.fees + s.others := by
    refine ⟨fun s a v _ => ?_, fun s a => ?_, fun _ _ _ => rfl, fun _ _ _ _ => rfl⟩ <;>
    simp only [p, smallEngine, Purse.ops] <;> split_ifs <;> dsimp only <;> omega
  -- no execution of this engine changes the state, so all of them move money
  have hmoves : p.conserving (fun s => s.fees + s.others) = p := by
    unfold Finalizer.conserving
    congr 1
    funext header msg s
    refine if_pos ⟨rfl, fun gasUsed logs state nonce happly => ?_⟩
    cases happly
    unfold Finalizer.finaliseTx
    split_ifs <;> rfl
  have hrun : (exec (p.finalizeAndAssemble smallAuthor (smallHeader 5 10))
      ⟨⟨7, 50, 1000⟩, [], [], none, 0⟩).1.isOk = true := by decide
  have hparent : p.chain.getHeader p.k (smallHeader 5 10).parentHash
      (sub64 (smallHeader 5 10).number 1) = some (smallHeader 4 5) := by decide
  have htime : (smallHeader 4 5).time ≤ (smallHeader 5 10).time := by decide
  have hminted : p.minted (smallHeader 5 10).head (smallHeader 4 5) =
      pepper8MintAmount + pipe8MintAmount + 74379496319128800000 := by decide
  obtain ⟨assembled, after, hexec⟩ := exists_of_isOk hrun
  have hfinal : Finalised p (smallHeader 5 10) ⟨⟨7, 50, 1000⟩, [], [], none, 0⟩ after :=
    .assembled smallAuthor assembled hexec
  have hchain : ChainFrom p (smallHeader 4 5) [⟨smallHeader 5 10, _, after⟩] :=
    ⟨hparent, htime, hfinal, trivial⟩
  have hlimit : 1050 + (pepper8MintAmount + pipe8MintAmount + 74379496319128800000) < 2 ^ 256 := by
    decide
  have hsupply := (one_time_mints_once hlaws hchain).2.2 _ List.mem_cons_self _ hminted.symm
    (hmoves.symm ▸ hfinal) hlimit
  exact ⟨after, hfinal, hsupply⟩

end ChilizChain
