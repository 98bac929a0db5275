import ChilizChain.Parlia.Accountability
import ChilizChain.Parlia.NoTrace

/-! The fork choice with fast finality. Justified numbers are compared first, total difficulties
only if they are equal, so the justified number of the head never goes down. With the accountable
safety of finality the head then stays above every block that one of its snapshots finalized. -/

namespace ChilizChain

open Stateful Snapshot

/-- What the fork chooser reads of a chain. The total difficulties are those of the blocks that
the node has. -/
structure ForkChoice where
  chain : ChainStore
  getTd : Hash → ℕ → Option ℕ
  terminalTotalDifficulty : Option ℕ

inductive ReorgError
  | missingTd
  | errUnknownAncestor
deriving DecidableEq

namespace ForkChoice

variable (p : Parlia) (f : ForkChoice)

/-- The choice between two headers of the same total difficulty. `coin` is the outcome of the
random draw. -/
def breakTie (coin : Bool) (current external : Header) : Bool :=
  if external.number < current.number then true
  else if external.number = current.number then
    if external.time = current.time then
      if external.coinbase = current.coinbase then
        compare (p.k.hash external) (p.k.hash current) = .lt
      else coin
    else external.time < current.time
  else false

/-- The total difficulty of a header that may not be stored yet. The difficulty of an accepted
header is set. -/
def externTd (external : Header) : Except ReorgError ℕ :=
  match f.getTd (p.k.hash external) external.number with
  | some td => .ok td
  | none =>
    match f.getTd external.parentHash (sub64 external.number 1) with
    | some ptd => .ok (ptd + external.difficulty.getD 0)
    | none => .error .errUnknownAncestor

/-- `ReorgNeeded`. -/
def reorgNeeded (coin : Bool) (current external : Header) : Except ReorgError Bool :=
  match f.getTd (p.k.hash current) current.number with
  | none => .error .missingTd
  | some localTd => do
    let externTd ← f.externTd p external
    if f.terminalTotalDifficulty.any (· ≤ externTd) then return true
    if localTd < externTd then return true
    if externTd < localTd then return false
    return breakTie p coin current external

/-- `HeaderChain.GetJustifiedNumber`: 0 if the snapshot cannot be had. -/
def getJustifiedNumber (header : Header) : EngineM ℕ := do
  match ← attempt (p.getJustifiedNumberAndHash f.chain header [header]) with
  | .ok block => return block.1
  | .error _ => return 0

/-- The justified number of a header from Plato on. -/
def platoJustified (header : Header) : EngineM ℕ :=
  if p.c.isPlato header.number then f.getJustifiedNumber p header else pure 0

/-- `ReorgNeededWithFastFinality`, the engine being a PoSA engine. -/
def reorgNeededWithFastFinality (coin : Bool) (current header : Header) :
    EngineM (Except ReorgError Bool) := do
  let justifiedNumber ← f.platoJustified p header
  let curJustifiedNumber ← f.platoJustified p current
  if justifiedNumber = curJustifiedNumber then return f.reorgNeeded p coin current header
  return .ok (curJustifiedNumber < justifiedNumber)

end ForkChoice

/-! ## Heads -/

/-- `H` is a chain of accepted headers from the genesis block, with the snapshot `s` of its last
block. -/
def AcceptedChain (p : Parlia) (g : Header) (U : Set Header) (H : List Header) (s : Snapshot) :
    Prop :=
  ∃ s₀ run, Filed p g U [] s₀ ∧ Run (FinalityStep p g U) s₀ run s ∧ run.map Prod.fst = H

/-- The snapshot finalizes the last block of `X`. -/
def Finalizes (k : Crypto) (g : Header) (H : List Header) (s : Snapshot) (X : List Header) : Prop :=
  X <:+ H ∧ ∃ data, s.attestation = some data ∧
    (data.sourceNumber.toNat, data.sourceHash) = blockOf k g X

/-- A header that is offered to a node, as the last block of a branch, with what the node has at
that time: its chain and total difficulties, what its engine holds, and the next random draw. -/
structure Offer where
  fork : ForkChoice
  engine : Engine
  branch : List Header
  coin : Bool

namespace Offer

variable (p : Parlia) (g : Header) (o : Offer)

/-- The head after the offer. -/
def nextHead (head : List Header) : List Header :=
  if (exec (o.fork.reorgNeededWithFastFinality p o.coin (tip g head) (tip g o.branch))
    o.engine).1 = .ok (.ok true) then o.branch else head

/-- The engine can tell the justified block of the current head when the fork choice asks for it,
which is after it asked for that of the offered header. -/
def Readable (head : List Header) : Prop :=
  (exec (p.getJustifiedNumberAndHash o.fork.chain (tip g head) [tip g head])
    (exec (o.fork.platoJustified p (tip g o.branch)) o.engine).2).1.isOk = true

end Offer

/-- A step of a node that knows the snapshot of its head: a header of an accepted chain is offered,
and the head is switched if `ReorgNeededWithFastFinality` says so. -/
structure HeadStep (p : Parlia) (g : Header) (U : Set Header) (head : List Header) (o : Offer)
    (head' : List Header) : Prop where
  within : o.fork.chain.Within p.k g U
  holds : ∃ anchors, Holds p g U anchors o.engine ∧ Anchored p g anchors head ∧
    Anchored p g anchors o.branch
  readable : o.Readable p g head
  accepted : ∃ s, AcceptedChain p g U o.branch s
  head_eq : head' = o.nextHead p g head

/-! ## Nodes that know the snapshot of their head -/

section Knowing

variable {p : Parlia} {g : Header} {hg : g.number = 0} {U : Set Header} {A : Set Hash}
  {chain : ChainStore} {H : List Header}

theorem Grounded.justified_answers (hU : BeforeSnake8 p g U)
    (h : Grounded p g hg U A chain H []) : Answers (Consistent p g hg U A)
      (p.getJustifiedNumberAndHash chain (tip g H) [tip g H])
      (p.justified chain <$> canonical p g hg H) := by
  have htip := h.branch.tip_mem hU.genesis_mem
  have hparents : ∀ x ∈ [tip g H], x ∈ U := by simpa using htip
  have hsupplied : H ≠ [] → Supplied chain H [tip g H] := fun hne => by
    simpa using h.supplied.orTip hne
  have hanswer := ChilizChain.snapshot_answers hU h.within h.branch h.anchored hsupplied hparents
    h.checkpoints (some (tip g H))
  intro e he
  obtain ⟨hresult, he'⟩ := hanswer e he
  unfold Parlia.getJustifiedNumberAndHash
  rw [isSnake8Enabled_of_mem hU h.within htip, h.branch.tip_number hU.genesis_number, exec_bind]
  rcases hexec : exec (p.snapshot chain H.length (p.k.hash (tip g H)) [tip g H] false
    (some (tip g H))) e with ⟨err | snap, e'⟩ <;>
  · rw [hexec] at hresult he'
    rw [← hresult]
    exact ⟨rfl, he'⟩

/-- A node whose engine has correct snapshots, and whose store has its blocks, knows the snapshot
of its head, at least until Snake8. -/
theorem Offer.readable_of_grounded {o : Offer} {head : List Header} {s : Snapshot}
    (hU : BeforeSnake8 p g U) (he : Consistent p g hg U A o.engine)
    (hhead : Grounded p g hg U A o.fork.chain head [])
    (hbranch : Grounded p g hg U A o.fork.chain o.branch [])
    (hs : canonical p g hg head = .ok s) : o.Readable p g head := by
  have hoffered : Consistent p g hg U A
      (exec (o.fork.platoJustified p (tip g o.branch)) o.engine).2 := by
    unfold ForkChoice.platoJustified ForkChoice.getJustifiedNumber
    split_ifs
    · rw [exec_bind_ok (exec_attempt _ _)]
      have hread := (hbranch.justified_answers hU o.engine he).2
      split <;> exact hread
    · exact he
  rw [Offer.Readable, (hhead.justified_answers hU _ hoffered).1, hs]
  rfl

end Knowing

section Reading

variable {p : Parlia} {g : Header} {U : Set Header} {A : Set Hash} {f : ForkChoice}
  {H : List Header} {e : Engine} {s t : Snapshot}

theorem Applied.justified_eq (hs : Applied p g U H s) (ht : Applied p g U H t) :
    (justifiedBlock p.k g s).1 = (justifiedBlock p.k g t).1 := by
  rw [justifiedBlock, justifiedBlock, (hs.unique ht).1]

variable (hg : g.number = 0) (hgU : g ∈ U) (hinj : Set.InjOn p.k.hash U)
include hg hgU hinj

theorem AcceptedChain.filed (hlt : ∀ x ∈ U, x.number + 1 < 2 ^ 64)
    (h : AcceptedChain p g U H s) : Branch p.k g U H ∧ Applied p g U H s := by
  obtain ⟨s₀, run, h₀, hrun, rfl⟩ := h
  have hs := Finalizing.of_run hg hgU hinj hlt h₀ hrun
  exact ⟨hs.branch, hs.filed.applied⟩

theorem exec_getJustifiedNumber (hW : f.chain.Within p.k g U) (hH : Branch p.k g U H)
    (hanchored : Anchored p g A H) (he : Holds p g U A e) :
    ∃ n e', exec (f.getJustifiedNumber p (tip g H)) e = (.ok n, e') ∧ Holds p g U A e' ∧
      ((exec (p.getJustifiedNumberAndHash f.chain (tip g H) [tip g H]) e).1.isOk = true →
        ∃ s, Applied p g U H s ∧ n = (justifiedBlock p.k g s).1) ∧
      ((exec (p.getJustifiedNumberAndHash f.chain (tip g H) [tip g H]) e).1.isOk = false →
        n = 0) := by
  have hparents : ∀ x ∈ [tip g H], x ∈ U := by simpa using hH.tip_mem hgU
  unfold ForkChoice.getJustifiedNumber
  rw [exec_bind_ok (exec_attempt _ _)]
  rcases hexec : exec (p.getJustifiedNumberAndHash f.chain (tip g H) [tip g H]) e
    with ⟨err | block, e'⟩
  · refine ⟨0, e', rfl, ?_, (fun h => nomatch h), fun _ => rfl⟩
    have hfiled := snapshot_filed hg hgU hinj hW hH hanchored hparents
      (p.isSnake8Enabled f.chain (tip g H)) (some (tip g H)) e he
    unfold Parlia.getJustifiedNumberAndHash at hexec
    rw [hH.tip_number hg] at hexec
    rw [exec_bind_pure_eq_error hexec] at hfiled
    exact hfiled.1
  · obtain ⟨he', s, hs, hblock⟩ := getJustified_ok hg hgU hinj hW hparents hH hanchored he hexec
    exact ⟨block.1, e', rfl, he', fun _ => ⟨s, hs, by rw [hblock]⟩, (fun h => nomatch h)⟩

/-- **The justified number of the head does not go down.** -/
theorem HeadStep.justified_le {head head' : List Header} {o : Offer}
    (hlt : ∀ x ∈ U, x.number + 1 < 2 ^ 64) (hplato : ∀ x ∈ U, p.c.isPlato x.number = true)
    (h : HeadStep p g U head o head') (hs : AcceptedChain p g U head s) :
    ∃ t, AcceptedChain p g U head' t ∧ (justifiedBlock p.k g s).1 ≤ (justifiedBlock p.k g t).1 := by
  rw [h.head_eq, Offer.nextHead]
  split_ifs with hswitch
  swap
  · exact ⟨s, hs, le_rfl⟩
  obtain ⟨t, ht⟩ := h.accepted
  refine ⟨t, ht, ?_⟩
  obtain ⟨A, hholds, hhead, hbranch⟩ := h.holds
  obtain ⟨hH, hsH⟩ := hs.filed hg hgU hinj hlt
  obtain ⟨hB, htB⟩ := ht.filed hg hgU hinj hlt
  obtain ⟨n, e₁, hn, he₁, hok, hfail⟩ :=
    exec_getJustifiedNumber hg hgU hinj h.within hB hbranch hholds
  obtain ⟨m, e₂, hm, -, hcurrent, -⟩ := exec_getJustifiedNumber hg hgU hinj h.within hH hhead he₁
  have hofferPlato : o.fork.platoJustified p (tip g o.branch) =
      o.fork.getJustifiedNumber p (tip g o.branch) := if_pos (hplato _ (hB.tip_mem hgU))
  have hheadPlato : o.fork.platoJustified p (tip g head) =
      o.fork.getJustifiedNumber p (tip g head) := if_pos (hplato _ (hH.tip_mem hgU))
  have hread := h.readable
  rw [Offer.Readable, hofferPlato, hn] at hread
  obtain ⟨s', hs', hm_eq⟩ := hcurrent hread
  rw [ForkChoice.reorgNeededWithFastFinality, hofferPlato, hheadPlato, exec_bind_ok hn,
    exec_bind_ok hm] at hswitch
  -- whatever the difficulties say, the offered hd was read to be justified as high
  have hle : m ≤ n := by
    by_contra hgt
    rw [if_neg (by omega)] at hswitch
    have hlower : decide (m < n) = true := Except.ok.inj (Except.ok.inj hswitch)
    exact hgt (of_decide_eq_true hlower).le
  rw [hsH.justified_eq hs', ← hm_eq]
  cases hisOk : (exec (p.getJustifiedNumberAndHash o.fork.chain (tip g o.branch)
      [tip g o.branch]) o.engine).1.isOk with
  | false =>
    obtain rfl := hfail hisOk
    omega
  | true =>
    obtain ⟨t', ht', hn_eq⟩ := hok hisOk
    rw [htB.justified_eq ht', ← hn_eq]
    exact hle

end Reading

/-! ## Whole runs -/

section Runs

variable {p : Parlia} {g : Header} {U : Set Header} {V : Std.ExtTreeMap Address ValidatorInfo}
  {signed : BLSPublicKey → VoteData → Prop} {s : Snapshot} {H K : List Header}
  (hg : g.number = 0) (hgU : g ∈ U) (hinj : Set.InjOn p.k.hash U)
  (hlt : ∀ x ∈ U, x.number + 1 < 2 ^ 64)
include hg hgU hinj hlt

theorem heads_justified_le (hplato : ∀ x ∈ U, p.c.isPlato x.number = true)
    {offers : List (Offer × List Header)} {H₀ : List Header}
    (h₀ : ∃ s, AcceptedChain p g U H₀ s) (hrun : Run (fun _ => HeadStep p g U) H₀ offers H) :
    (∃ t, AcceptedChain p g U H t) ∧
    ∀ entry ∈ offers, ∀ s t, AcceptedChain p g U entry.2 s → AcceptedChain p g U H t →
      (justifiedBlock p.k g s).1 ≤ (justifiedBlock p.k g t).1 := by
  induction hrun with
  | start =>
    refine ⟨h₀, fun entry hentry => ?_⟩
    cases hentry
  | @next offers o head head' before h ih =>
    obtain ⟨⟨u, hu⟩, ih⟩ := ih
    obtain ⟨t, ht, hle⟩ := h.justified_le hg hgU hinj hlt hplato hu
    refine ⟨⟨t, ht⟩, fun entry hentry s t' hs ht' => ?_⟩
    rw [(ht'.filed hg hgU hinj hlt).2.justified_eq (ht.filed hg hgU hinj hlt).2]
    rcases List.mem_cons.mp hentry with rfl | hentry
    · rw [(hs.filed hg hgU hinj hlt).2.justified_eq (hu.filed hg hgU hinj hlt).2]
      exact hle
    · exact (ih entry hentry s u hs hu).trans hle

/-- A block that a snapshot finalizes is below every justified block with a higher number, unless
a third of the validators broke the rules. -/
theorem finalized_suffix (hV : FixedSet p g U V) (hkeys : (voteKeys V).Nodup)
    (hsigned : ∀ sig keys data, p.k.fastAggregateVerify sig keys (p.k.voteHash data) = true →
      ∀ key ∈ keys, signed key data)
    (hhonest : ∀ culprits : Finset BLSPublicKey, culprits ⊆ (voteKeys V).toFinset →
      (∀ key ∈ culprits, ∃ v w, signed key v ∧ signed key w ∧ Slashable v w) →
      3 * culprits.card < V.size) {t : Snapshot} {X : List Header} (hs : AcceptedChain p g U H s)
    (ht : AcceptedChain p g U K t) (hX : Finalizes p.k g H s X)
    (hle : (justifiedBlock p.k g s).1 ≤ (justifiedBlock p.k g t).1) : X <:+ K := by
  rcases eq_or_ne X [] with rfl | hne
  · exact List.nil_suffix
  obtain ⟨s₀, run, h₀, hrun, rfl⟩ := hs
  obtain ⟨t₀, run', h₀', hrun', rfl⟩ := ht
  obtain ⟨hsuffix, data, hdata, hblock⟩ := hX
  have hfinal : Casper.Finalized (LinkVotes p g U signed V) X :=
    finalized_of_run hg hgU hinj hlt hV hkeys hsigned h₀ hrun hdata hsuffix hblock hne
  have haccounted : Accounted p.k g (LinkVotes p g U signed V) (run'.map Prod.fst) t :=
    accounted_of_run hg hgU hinj hlt hV hkeys hsigned h₀' hrun'
  obtain ⟨J, hJ, hjustified, hchain⟩ := haccounted.justified
  have hlength : X.length < J.length := by
    have hbelow := ((Finalizing.of_run hg hgU hinj hlt h₀ hrun).onBranch data hdata).source_lt
    rw [UInt64.lt_iff_toNat_lt, (Prod.mk.inj hblock).1] at hbelow
    rw [hjustified, justifiedBlock, hdata] at hle
    exact hbelow.trans_le hle
  by_contra hapart
  obtain ⟨culprits, hsub, hcard, hculprits⟩ := slashable_of_conflict hg hgU hinj hkeys
    (hfinal.conflict_of_lt hchain hlength fun h => hapart (h.trans hJ))
  have hfew := hhonest culprits hsub hculprits
  omega

end Runs

/-- **The fork choice never abandons a finalized block.** Let the validator set be fixed, with
different vote keys, and let fewer than a third of the validators break the voting rules. Whatever
headers are offered, and whatever the total difficulties and the random draws are, every head stays
above each block that the snapshot of an earlier head finalized. -/
theorem head_keeps_finalized {p : Parlia} {g : Header} {U : Set Header}
    {V : Std.ExtTreeMap Address ValidatorInfo} {signed : BLSPublicKey → VoteData → Prop}
    (hg : g.number = 0) (hgU : g ∈ U) (hinj : Set.InjOn p.k.hash U)
    (hlt : ∀ x ∈ U, x.number + 1 < 2 ^ 64) (hplato : ∀ x ∈ U, p.c.isPlato x.number = true)
    (hV : FixedSet p g U V) (hkeys : (voteKeys V).Nodup)
    (hsigned : ∀ sig keys data, p.k.fastAggregateVerify sig keys (p.k.voteHash data) = true →
      ∀ key ∈ keys, signed key data)
    (hhonest : ∀ culprits : Finset BLSPublicKey, culprits ⊆ (voteKeys V).toFinset →
      (∀ key ∈ culprits, ∃ v w, signed key v ∧ signed key w ∧ Slashable v w) →
      3 * culprits.card < V.size) {offers : List (Offer × List Header)} {H₀ H : List Header}
    (h₀ : ∃ s, AcceptedChain p g U H₀ s) (hrun : Run (fun _ => HeadStep p g U) H₀ offers H) :
    ∀ entry ∈ offers, ∀ s X, AcceptedChain p g U entry.2 s → Finalizes p.k g entry.2 s X →
      X <:+ H := by
  intro entry hentry s X hs hX
  obtain ⟨⟨t, ht⟩, hle⟩ := heads_justified_le hg hgU hinj hlt hplato h₀ hrun
  exact finalized_suffix hg hgU hinj hlt hV hkeys hsigned hhonest hs ht hX
    (hle entry hentry s t hs ht)

/-! ## A side block with a high difficulty -/

namespace Sample

/-- The votes on the first fork. -/
def castVotes : List VoteData :=
  [⟨0, crypto.hash lubanGenesis, 1, crypto.hash (fork1 (addr 1))⟩,
    ⟨1, crypto.hash (fork1 (addr 1)), 2, crypto.hash (fork2 (addr 1) (addr 2))⟩]

/-- Signatures exist only for the votes that were cast. -/
def votingEngine : Parlia := { lubanEngine with
  k := { crypto with
    voteHash := fun data => if data ∈ castVotes then .ofBytes 32 [1] else default
    fastAggregateVerify := fun _ _ digest => digest = .ofBytes 32 [1] } }

theorem mem_castVotes_of_verify (sig : BLSSignature) (keys : List BLSPublicKey) (data : VoteData)
    (h : votingEngine.k.fastAggregateVerify sig keys (votingEngine.k.voteHash data) = true) :
    data ∈ castVotes := by
  by_contra hnot
  have hdigest : (if data ∈ castVotes then FixedBytes.ofBytes 32 [1] else default : Hash) =
      .ofBytes 32 [1] := of_decide_eq_true h
  rw [if_neg hnot] at hdigest
  exact absurd hdigest (by decide)

theorem castVotes_honest : ∀ v ∈ castVotes, ∀ w ∈ castVotes, ¬Slashable v w := by
  unfold Slashable
  decide

def votedBranch : List Header := fork (addr 1) (addr 2)

/-- The snapshot after one more block, as long as the block is accepted. -/
def votingAfter (s : Snapshot) (h : Header) : Snapshot :=
  match votingEngine.advance forkStore [] false none s h with
  | .ok s' => s'
  | .error _ => s

theorem voting_filed : Filed votingEngine lubanGenesis forks [] lubanSnap :=
  ⟨.genesis (show votingEngine.checkpointSnapshot 0 false lubanGenesis (crypto.hash lubanGenesis)
    defaultBlockInterval votingEngine.c.epoch = .ok lubanSnap by decide +kernel), rfl, rfl⟩

/-- The blocks of the branch with the snapshots they were applied to. -/
def votingRun : List (Header × Snapshot) :=
  [(fork3 (addr 1) (addr 2), votingAfter (votingAfter lubanSnap (fork1 (addr 1)))
      (fork2 (addr 1) (addr 2))),
    (fork2 (addr 1) (addr 2), votingAfter lubanSnap (fork1 (addr 1))), (fork1 (addr 1), lubanSnap)]

def votingSnap : Snapshot :=
  votingAfter (votingAfter (votingAfter lubanSnap (fork1 (addr 1))) (fork2 (addr 1) (addr 2)))
    (fork3 (addr 1) (addr 2))

theorem votedBranch_accepted :
    AcceptedChain votingEngine lubanGenesis forks votedBranch votingSnap := by
  have h : ∀ entry ∈ votingRun, entry.1 ∈ forkHeaders ∧
      votingEngine.advance forkStore [] false none entry.2 entry.1 =
        .ok (votingAfter entry.2 entry.1) ∧
      (exec (votingEngine.verifyVoteAttestation forkStore entry.1 []) Engine.fresh).1 = .ok () := by
    decide +kernel
  have hstep : ∀ {H : List (Header × Snapshot)} {s : Snapshot} {hd : Header},
      (hd, s) ∈ votingRun → H.length ≤ 3 →
      FinalityStep votingEngine lubanGenesis forks H s hd (votingAfter s hd) :=
    fun hmem hlength => finalityStep_of_fresh forkStore_within (h _ hmem).1 (h _ hmem).2.1
      (h _ hmem).2.2 (hlength.trans (by decide))
  refine ⟨lubanSnap, votingRun, voting_filed, ?_, rfl⟩
  exact .next (.next (.next .start (hstep (by simp [votingRun]) (by simp)))
    (hstep (by simp [votingRun]) (by simp))) (hstep (by simp [votingRun]) (by simp))

theorem side_accepted : ∃ s, AcceptedChain votingEngine lubanGenesis forks [fork1 (addr 2)] s := by
  have h : votingEngine.advance forkStore [] false none lubanSnap (fork1 (addr 2)) =
        .ok (votingAfter lubanSnap (fork1 (addr 2))) ∧
      (exec (votingEngine.verifyVoteAttestation forkStore (fork1 (addr 2)) []) Engine.fresh).1 =
        .ok () := by
    decide +kernel
  refine ⟨votingAfter lubanSnap (fork1 (addr 2)), lubanSnap, [(fork1 (addr 2), lubanSnap)],
    voting_filed, .next .start ?_, rfl⟩
  exact finalityStep_of_fresh forkStore_within
    (show _ ∈ forkHeaders by simp [forkHeaders, fork]) h.1 h.2
    (by decide)

/-- A node that knows all blocks, and the side block to have the highest total difficulty. -/
def sideFork : ForkChoice :=
  ⟨forkStore, fun hash number =>
    some (if hash = crypto.hash (fork1 (addr 2)) then 1000 else 2 * number), none⟩

def offerOf (branch : List Header) : Offer := ⟨sideFork, Engine.fresh, branch, true⟩

theorem offer_step (head branch : List Header) (hhead : head.length ≤ 3)
    (hbranch : branch.length ≤ 3) (hread : (offerOf branch).Readable votingEngine lubanGenesis head)
    (haccepted : ∃ s, AcceptedChain votingEngine lubanGenesis forks branch s) :
    HeadStep votingEngine lubanGenesis forks head (offerOf branch)
      ((offerOf branch).nextHead votingEngine lubanGenesis head) where
  within := forkStore_within
  holds := ⟨∅, .fresh, ⟨head, [], by simp, hhead.trans (by decide), .inl rfl⟩,
    ⟨branch, [], (List.append_nil branch).symm, hbranch.trans (by decide), .inl rfl⟩⟩
  readable := hread
  accepted := haccepted
  head_eq := rfl

theorem voting_fixedSet : FixedSet votingEngine lubanGenesis forks lubanSnap.validators :=
  ⟨forks_fixedSet.genesis, forks_fixedSet.switch⟩

end Sample

open Sample in
/-- The node takes the branch with the votes first; the side block does not win it over. -/
theorem head_keeps_finalized_side_block :
    (offerOf votedBranch).nextHead votingEngine lubanGenesis [] = votedBranch ∧ [fork1 (addr 1)] <:+
      (offerOf [fork1 (addr 2)]).nextHead votingEngine lubanGenesis votedBranch := by
  have htaken : (offerOf votedBranch).nextHead votingEngine lubanGenesis [] = votedBranch := by
    decide +kernel
  refine ⟨htaken, ?_⟩
  have hfirst : HeadStep votingEngine lubanGenesis forks [] (offerOf votedBranch) votedBranch := by
    have hstep := offer_step [] votedBranch (by decide) (by decide)
      (by unfold Offer.Readable; decide +kernel) ⟨_, votedBranch_accepted⟩
    rwa [htaken] at hstep
  have hsecond : HeadStep votingEngine lubanGenesis forks votedBranch (offerOf [fork1 (addr 2)])
      ((offerOf [fork1 (addr 2)]).nextHead votingEngine lubanGenesis votedBranch) :=
    offer_step _ _ (by decide) (by decide) (by unfold Offer.Readable; decide +kernel) side_accepted
  have hdata : votingSnap.attestation =
      some ⟨1, crypto.hash (fork1 (addr 1)), 2, crypto.hash (fork2 (addr 1) (addr 2))⟩ := by
    decide +kernel
  have hfinalizes : Finalizes votingEngine.k lubanGenesis votedBranch votingSnap
      [fork1 (addr 1)] :=
    ⟨⟨[fork3 (addr 1) (addr 2), fork2 (addr 1) (addr 2)], rfl⟩, _, hdata, rfl⟩
  have hplato : ∀ x ∈ forkHeaders, votingEngine.c.isPlato x.number = true := by decide
  have hhonest : ∀ culprits : Finset BLSPublicKey,
      culprits ⊆ (voteKeys lubanSnap.validators).toFinset →
      (∀ key ∈ culprits, ∃ v w, v ∈ castVotes ∧ w ∈ castVotes ∧ Slashable v w) →
      3 * culprits.card < lubanSnap.validators.size := by
    intro culprits _ hculprits
    have hnone : culprits = ∅ := Finset.eq_empty_of_forall_notMem fun key hkey => by
      obtain ⟨v, w, hv, hw, hslashable⟩ := hculprits key hkey
      exact castVotes_honest v hv w hw hslashable
    rw [hnone, Finset.card_empty]
    decide
  exact head_keeps_finalized rfl (show lubanGenesis ∈ forkHeaders by simp [forkHeaders])
    forks_injOn forks_number_lt hplato voting_fixedSet (by decide)
    (fun sig keys data h _ _ => mem_castVotes_of_verify sig keys data h) hhonest
    ⟨lubanSnap, lubanSnap, [], voting_filed, .start, rfl⟩ (.next (.next .start hfirst) hsecond)
    (offerOf [fork1 (addr 2)], votedBranch) List.mem_cons_self votingSnap _ votedBranch_accepted
    hfinalizes

end ChilizChain
