import ChilizChain.Lib.Heap
import ChilizChain.Vote.Manager

/-! The pool of received votes. Votes for blocks that the node has verified are in the current
pool, others in the future pool; each pool has a box of votes per target hash and a queue that is
ordered by the target number that the first vote for the hash claims. What the pool asks the chain
and the engine during a call is part of the call. -/

namespace ChilizChain

open List

def maxCurVoteAmountPerBlock : ℕ := 21
def maxFutureVoteAmountPerBlock : ℕ := 50
def lowerLimitOfVoteBlockNumber : UInt64 := 256

structure VoteBox where
  blockNumber : UInt64
  blockHash : Hash
  voteMessages : List VoteEnvelope
deriving DecidableEq

/-- One of the two pools: its boxes by target hash, and its queue. -/
structure VoteStore where
  votes : Std.ExtTreeMap Hash VoteBox
  pq : List VoteData
deriving DecidableEq

structure VotePool where
  receivedVotes : Finset Hash
  curVotes : VoteStore
  futureVotes : VoteStore
deriving DecidableEq

/-- The order of `votesPriorityQueue`. -/
def votesLess (a b : VoteData) : Bool := a.targetNumber < b.targetNumber

/-- What a call of the pool sees of the chain, of the engine and of the signature scheme. -/
structure PoolView where
  /-- The number of `CurrentBlock`. -/
  headNumber : UInt64
  /-- `GetVerifiedBlockByHash` finds a block. -/
  isVerifiedBlock : Hash → Bool
  /-- The BLS signature of the vote is good. -/
  verify : VoteEnvelope → Bool
  /-- `VerifyVote` of the engine accepts the vote. -/
  verifyVote : VoteEnvelope → Bool

namespace VoteStore

def empty : VoteStore := ⟨∅, []⟩

variable (store : VoteStore)

/-- A box and a queue entry for the target of the vote, if there is none yet. -/
def ensureBox (data : VoteData) : VoteStore :=
  if data.targetHash ∈ store.votes then store
  else
    { votes := store.votes.insert data.targetHash ⟨data.targetNumber, data.targetHash, []⟩
      pq := Heap.push votesLess store.pq
        ⟨0, FixedBytes.zero 32, data.targetNumber, data.targetHash⟩ }

/-- Append votes to the box of a target. -/
def append (targetHash : Hash) (votes : List VoteEnvelope) : VoteStore :=
  { store with
    votes := store.votes.modify targetHash fun box =>
      { box with voteMessages := box.voteMessages ++ votes } }

/-- Add a box with its queue entry, or append its votes to the box that is there. -/
def merge (voteData : VoteData) (targetHash : Hash) (box : VoteBox) :
    VoteStore :=
  if targetHash ∈ store.votes then store.append targetHash box.voteMessages
  else
    { votes := store.votes.insert targetHash box
      pq := Heap.push votesLess store.pq voteData }

end VoteStore

namespace VotePool

variable (hash : VoteEnvelope → Hash)

/-- `NewVotePool`. -/
def empty : VotePool := ⟨∅, .empty, .empty⟩

variable (pool : VotePool)

variable (view : PoolView) (vote : VoteEnvelope) (isFutureVote : Bool)

def store : VoteStore :=
  if isFutureVote then pool.futureVotes else pool.curVotes

/-- `putVote`. -/
def putVote : VotePool :=
  let put (store : VoteStore) := (store.ensureBox vote.data).append vote.data.targetHash [vote]
  let receivedVotes := insert (hash vote) pool.receivedVotes
  if isFutureVote then
    { pool with receivedVotes := receivedVotes, futureVotes := put pool.futureVotes }
  else { pool with receivedVotes := receivedVotes, curVotes := put pool.curVotes }

def basicVerify :
    Bool :=
  let maxVoteAmountPerBlock :=
    if isFutureVote then maxFutureVoteAmountPerBlock else maxCurVoteAmountPerBlock
  if hash vote ∈ pool.receivedVotes then false
  else if ((pool.store isFutureVote).votes[vote.data.targetHash]?).any fun box =>
      maxVoteAmountPerBlock ≤ box.voteMessages.length then false
  else view.verify vote

/-- `putIntoVotePool`. Votes for unknown blocks are verified when they are transferred. -/
def putIntoVotePool : VotePool :=
  let targetNumber := vote.data.targetNumber
  if targetNumber + lowerLimitOfVoteBlockNumber - 1 < view.headNumber ∨
      view.headNumber + upperLimitOfVoteBlockNumber < targetNumber then pool
  else
    let isFutureVote := !view.isVerifiedBlock vote.data.targetHash
    if !pool.basicVerify hash view vote isFutureVote then pool
    else if !isFutureVote && !view.verifyVote vote then pool
    else pool.putVote hash vote isFutureVote

/-- Forget the votes of a list. -/
def forget (receivedVotes : Finset Hash) (votes : List VoteEnvelope) : Finset Hash :=
  votes.foldl (fun received vote => received.erase (hash vote)) receivedVotes

/-- A box of the future pool becomes, or is merged into, a box of the current pool. Votes that the
engine rejects are dropped. -/
def moveBox (voteData : VoteData) (blockHash : Hash)
    (voteBox : VoteBox) : VotePool :=
  let validVotes := voteBox.voteMessages.filter view.verifyVote
  { receivedVotes := forget hash pool.receivedVotes
      (voteBox.voteMessages.filter fun vote => !view.verifyVote vote)
    curVotes := pool.curVotes.merge voteData blockHash
      ⟨voteBox.blockNumber, voteBox.blockHash, validVotes⟩
    futureVotes := { pool.futureVotes with votes := pool.futureVotes.votes.erase blockHash } }

/-- `transfer`: pop the queue of the future pool and move the box of `blockHash`. -/
def transfer (blockHash : Hash) : VotePool :=
  match Heap.pop votesLess pool.futureVotes.pq with
  | none => pool
  | some (voteData, futurePq) =>
    let pool := { pool with futureVotes := { pool.futureVotes with pq := futurePq } }
    match pool.futureVotes.votes[blockHash]? with
    | none => pool
    | some voteBox => pool.moveBox hash view voteData blockHash voteBox

/-- The first loop of `transferVotesFromFutureToCur`: old targets, known or not. Each round pops
the queue, so its length is enough fuel. -/
def transferOld (view : PoolView) (latestBlockNumber : UInt64) : ℕ → VotePool → VotePool
  | 0, pool => pool
  | fuel + 1, pool =>
    match pool.futureVotes.pq.head? with
    | none => pool
    | some top =>
      if top.targetNumber + upperLimitOfVoteBlockNumber < latestBlockNumber then
        transferOld view latestBlockNumber fuel (pool.transfer hash view top.targetHash)
      else pool

/-- The second loop: targets up to the latest block, as far as they are on the local fork. The
entries of the others are collected in `futurePqBuffer`. -/
def transferKnown (view : PoolView) (latestBlockNumber : UInt64) :
    ℕ → VotePool → List VoteData → VotePool × List VoteData
  | 0, pool, futurePqBuffer => (pool, futurePqBuffer)
  | fuel + 1, pool, futurePqBuffer =>
    match pool.futureVotes.pq.head? with
    | none => (pool, futurePqBuffer)
    | some top =>
      if top.targetNumber ≤ latestBlockNumber then
        if view.isVerifiedBlock top.targetHash then
          transferKnown view latestBlockNumber fuel (pool.transfer hash view top.targetHash)
            futurePqBuffer
        else
          match Heap.pop votesLess pool.futureVotes.pq with
          | none => (pool, futurePqBuffer)
          | some (voteData, futurePq) =>
            transferKnown view latestBlockNumber fuel
              { pool with futureVotes := { pool.futureVotes with pq := futurePq } }
              (futurePqBuffer ++ [voteData])
      else (pool, futurePqBuffer)

def transferVotesFromFutureToCur (latestBlockNumber : UInt64) : VotePool :=
  let pool := transferOld hash view latestBlockNumber pool.futureVotes.pq.length pool
  let (pool, futurePqBuffer) :=
    transferKnown hash view latestBlockNumber pool.futureVotes.pq.length pool []
  { pool with
    futureVotes := { pool.futureVotes with
      pq := futurePqBuffer.foldl (Heap.push votesLess) pool.futureVotes.pq } }

/-- One round of `prune`: drop the box of a popped entry and forget its votes. -/
def dropBox (blockHash : Hash) : VotePool :=
  match pool.curVotes.votes[blockHash]? with
  | none => pool
  | some voteBox =>
    { pool with
      receivedVotes := forget hash pool.receivedVotes voteBox.voteMessages
      curVotes := { pool.curVotes with votes := pool.curVotes.votes.erase blockHash } }

def pruneLoop (latestBlockNumber : UInt64) : ℕ → VotePool → VotePool
  | 0, pool => pool
  | fuel + 1, pool =>
    match Heap.pop votesLess pool.curVotes.pq with
    | none => pool
    | some (top, curPq) =>
      if top.targetNumber + lowerLimitOfVoteBlockNumber - 1 < latestBlockNumber then
        pruneLoop latestBlockNumber fuel
          (dropBox hash { pool with curVotes := { pool.curVotes with pq := curPq } }
            top.targetHash)
      else pool

/-- `prune`. -/
def prune (latestBlockNumber : UInt64) : VotePool :=
  pruneLoop hash latestBlockNumber pool.curVotes.pq.length pool

/-! Each round of the three loops pops its queue once, so a loop that is given as much fuel as its
queue is long ends by its own condition. -/

section Exit

variable {hash} {view : PoolView} {latest : UInt64} {pool : VotePool}

theorem transfer_length {top : VoteData} {rest : List VoteData}
    (hpq : pool.futureVotes.pq = top :: rest) (blockHash : Hash) :
    (pool.transfer hash view blockHash).futureVotes.pq.length = rest.length := by
  obtain ⟨futurePq, hpop, hperm⟩ := Heap.pop_cons votesLess top rest
  rw [transfer, hpq, hpop]
  dsimp only
  split
  · exact hperm.length_eq
  · exact hperm.length_eq

theorem transferOld_exits {fuel : ℕ} (hfuel : pool.futureVotes.pq.length ≤ fuel) :
    ∀ top ∈ (transferOld hash view latest fuel pool).futureVotes.pq.head?,
      ¬ top.targetNumber + upperLimitOfVoteBlockNumber < latest := by
  induction fuel generalizing pool with
  | zero =>
    rw [Nat.le_zero, length_eq_zero_iff] at hfuel
    simp [transferOld, hfuel]
  | succ fuel ih =>
    unfold transferOld
    cases hpq : pool.futureVotes.pq with
    | nil => simp [hpq]
    | cons top rest =>
      dsimp only [head?_cons]
      split
      · refine ih ?_
        rw [transfer_length hpq]
        simpa [hpq] using hfuel
      · rename_i hguard
        simpa [hpq] using hguard

theorem transferKnown_exits {fuel : ℕ} {futurePqBuffer : List VoteData}
    (hfuel : pool.futureVotes.pq.length ≤ fuel) : ∀ top ∈ (transferKnown hash view latest fuel pool
        futurePqBuffer).1.futureVotes.pq.head?, ¬ top.targetNumber ≤ latest := by
  induction fuel generalizing pool futurePqBuffer with
  | zero =>
    rw [Nat.le_zero, length_eq_zero_iff] at hfuel
    simp [transferKnown, hfuel]
  | succ fuel ih =>
    unfold transferKnown
    cases hpq : pool.futureVotes.pq with
    | nil => simp [hpq]
    | cons top rest =>
      have hrest : rest.length ≤ fuel := by simpa [hpq] using hfuel
      dsimp only [head?_cons]
      split
      · split
        · exact ih ((transfer_length hpq _).le.trans hrest)
        · obtain ⟨futurePq, hpop, hperm⟩ := Heap.pop_cons votesLess top rest
          rw [hpop]
          exact ih (hperm.length_eq.le.trans hrest)
      · rename_i hguard
        simpa [hpq] using hguard

theorem prune_exits (pool : VotePool) (latest : UInt64) :
    ∀ top ∈ (pool.prune hash latest).curVotes.pq.head?,
      ¬ top.targetNumber + lowerLimitOfVoteBlockNumber - 1 < latest := by
  unfold prune
  generalize hfuel : pool.curVotes.pq.length = fuel
  replace hfuel := hfuel.le
  induction fuel generalizing pool with
  | zero =>
    rw [Nat.le_zero, length_eq_zero_iff] at hfuel
    simp [pruneLoop, hfuel]
  | succ fuel ih =>
    unfold pruneLoop
    cases hpq : pool.curVotes.pq with
    | nil => simp [hpq, Heap.pop]
    | cons top rest =>
      obtain ⟨curPq, hpop, hperm⟩ := Heap.pop_cons votesLess top rest
      rw [hpop]
      dsimp only
      split
      · refine ih _ ?_
        have hlength : curPq.length ≤ fuel := by
          rw [hperm.length_eq]
          simpa [hpq] using hfuel
        unfold dropBox
        dsimp only
        split
        · exact hlength
        · exact hlength
      · rename_i hguard
        simpa [hpq] using hguard

variable (hash view latest pool) in
/-- The loops end by their own conditions. -/
structure LoopsEnd (moved : VotePool) : Prop where
  old : ∀ top ∈ moved.futureVotes.pq.head?,
    ¬ top.targetNumber + upperLimitOfVoteBlockNumber < latest
  known : ∀ top ∈ (transferKnown hash view latest moved.futureVotes.pq.length moved
    []).1.futureVotes.pq.head?, ¬ top.targetNumber ≤ latest
  prune : ∀ top ∈ (pool.prune hash latest).curVotes.pq.head?,
    ¬ top.targetNumber + lowerLimitOfVoteBlockNumber - 1 < latest

theorem loopsEnd (pool : VotePool) : LoopsEnd hash view latest pool
    (transferOld hash view latest pool.futureVotes.pq.length pool) :=
  ⟨transferOld_exits le_rfl, transferKnown_exits le_rfl, prune_exits pool latest⟩

end Exit

end VotePool

/-- A call of the pool, with what it sees. -/
inductive PoolCall
  | put (view : PoolView) (vote : VoteEnvelope)
  | transfer (view : PoolView) (latestBlockNumber : UInt64)
  | prune (latestBlockNumber : UInt64)

def VotePool.call (hash : VoteEnvelope → Hash) (pool : VotePool) : PoolCall → VotePool
  | .put view vote => pool.putIntoVotePool hash view vote
  | .transfer view latestBlockNumber =>
    pool.transferVotesFromFutureToCur hash view latestBlockNumber
  | .prune latestBlockNumber => pool.prune hash latestBlockNumber

end ChilizChain
