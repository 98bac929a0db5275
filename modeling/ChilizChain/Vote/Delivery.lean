import ChilizChain.Vote.Representation

/-! When votes are moved and pruned. Both loops of the vote pool stop at the first entry of a queue
that is too new, so they do what they should if the queues are ordered by the real numbers of the
blocks, that is, if no vote claims a wrong number for its target. One vote that does hides, keeps
or discards all votes for the same target. -/

namespace ChilizChain

open List VotePool Heap VoteStore

namespace VotePool

variable (hash : VoteEnvelope → Hash) (number : Hash → ℕ)

/-- A queue is a heap, and its entries have the real numbers of their targets. -/
structure InOrder (pq : List VoteData) : Prop where
  ordered : Heap.Ordered (fun entry : VoteData => entry.targetNumber.toNat) pq
  numbers : ∀ entry ∈ pq, entry.targetNumber.toNat = number entry.targetHash

/-- Both queues are in order, while `aside` holds entries that belong to the future queue. -/
structure Timely (aside : List VoteData) (pool : VotePool) : Prop where
  cur : InOrder number pool.curVotes.pq
  future : InOrder number pool.futureVotes.pq
  aside : ∀ entry ∈ aside, entry.targetNumber.toNat = number entry.targetHash

variable {hash number} {pool : VotePool} {view : PoolView} {aside : List VoteData}
  {latest : UInt64}

theorem votesLess_eq (a b : VoteData) :
    votesLess a b = decide (a.targetNumber.toNat < b.targetNumber.toNat) := by
  simp only [votesLess, UInt64.lt_iff_toNat_lt]

namespace InOrder

variable {pq pq' rest : List VoteData} {top entry : VoteData}

theorem empty : InOrder number [] where
  ordered := fun c a b _ _ ha => by simp at ha
  numbers := fun entry h => absurd h not_mem_nil

theorem push (h : InOrder number pq) (hentry : entry.targetNumber.toNat = number entry.targetHash) :
    InOrder number (Heap.push votesLess pq entry) where
  ordered := push_ordered votesLess_eq pq entry h.ordered
  numbers := by
    intro entry' hmem
    rcases mem_cons.mp ((push_perm pq entry).mem_iff.mp hmem) with rfl | hold
    · exact hentry
    · exact h.numbers entry' hold

theorem foldl_push (h : InOrder number pq) (entries : List VoteData)
    (hentries : ∀ entry ∈ entries, entry.targetNumber.toNat = number entry.targetHash) :
    InOrder number (entries.foldl (Heap.push votesLess) pq) := by
  induction entries generalizing pq with
  | nil => exact h
  | cons entry entries ih =>
    obtain ⟨hentry, hrest⟩ := forall_mem_cons.mp hentries
    exact ih (h.push hentry) hrest

theorem pop (h : InOrder number (top :: rest))
    (hpop : pop votesLess (top :: rest) = some (top, pq')) (hperm : pq'.Perm rest) :
    InOrder number pq' where
  ordered := pop_ordered votesLess_eq h.ordered hpop
  numbers := fun entry hmem =>
    h.numbers entry (mem_cons_of_mem top (hperm.mem_iff.mp hmem))

theorem top_le (h : InOrder number (top :: rest)) (hentry : entry ∈ top :: rest) :
    top.targetNumber.toNat ≤ number entry.targetHash :=
  h.numbers entry hentry ▸ root_le h.ordered entry hentry

end InOrder

theorem empty_timely : Timely number [] empty :=
  ⟨.empty, .empty, fun _ h => absurd h not_mem_nil⟩

/-! ## What keeps the queues in order -/

variable {store : VoteStore}

theorem ensureBox_inOrder {data : VoteData} (h : InOrder number store.pq)
    (hdata : data.targetNumber.toNat = number data.targetHash) :
    InOrder number (store.ensureBox data).pq := by
  unfold ensureBox
  split
  · exact h
  · exact h.push hdata

theorem merge_inOrder {data : VoteData} (h : InOrder number store.pq)
    (hdata : data.targetNumber.toNat = number data.targetHash) (targetHash : Hash) (box : VoteBox) :
    InOrder number (store.merge data targetHash box).pq := by
  unfold VoteStore.merge
  split
  · exact h
  · exact h.push hdata

theorem putIntoVotePool_timely (h : Timely number [] pool) (view : PoolView)
    {vote : VoteEnvelope} (hvote : vote.data.targetNumber.toNat = number vote.data.targetHash) :
    Timely number [] (pool.putIntoVotePool hash view vote) := by
  unfold putIntoVotePool
  dsimp only
  split
  · exact h
  · split
    · exact h
    · split
      · exact h
      · unfold putVote
        dsimp only
        split
        · exact ⟨h.cur, ensureBox_inOrder h.future hvote, h.aside⟩
        · exact ⟨ensureBox_inOrder h.cur hvote, h.future, h.aside⟩

theorem transfer_timely (h : Timely number aside pool) {top : VoteData}
    (htop : pool.futureVotes.pq.head? = some top) :
    Timely number aside (pool.transfer hash view top.targetHash) := by
  obtain ⟨rest, hpq⟩ := head?_eq_some_iff.mp htop
  obtain ⟨futurePq, hpop, hperm⟩ := pop_cons votesLess top rest
  have hfuture : InOrder number futurePq := (hpq ▸ h.future).pop hpop hperm
  have htopNumber := h.future.numbers top (hpq ▸ mem_cons_self)
  rw [transfer, hpq, hpop]
  dsimp only
  split
  · exact ⟨h.cur, hfuture, h.aside⟩
  · exact ⟨merge_inOrder h.cur htopNumber _ _, hfuture, h.aside⟩

theorem transferOld_timely (fuel : ℕ) (h : Timely number aside pool) :
    Timely number aside (transferOld hash view latest fuel pool) := by
  induction fuel generalizing pool with
  | zero => exact h
  | succ fuel ih =>
    unfold transferOld
    split
    · exact h
    · rename_i htop
      split
      · exact ih (transfer_timely h htop)
      · exact h

theorem transferKnown_timely (fuel : ℕ) (h : Timely number aside pool)
    (haside : ∀ entry ∈ aside, view.isVerifiedBlock entry.targetHash = false) :
    let result := transferKnown hash view latest fuel pool aside
    Timely number result.2 result.1 ∧
      ∀ entry ∈ result.2, view.isVerifiedBlock entry.targetHash = false := by
  induction fuel generalizing pool aside with
  | zero => exact ⟨h, haside⟩
  | succ fuel ih =>
    unfold transferKnown
    split
    · exact ⟨h, haside⟩
    · rename_i top htop
      split
      · split
        · exact ih (transfer_timely h htop) haside
        · rename_i hunknown
          obtain ⟨rest, hpq⟩ := head?_eq_some_iff.mp htop
          obtain ⟨futurePq, hpop, hperm⟩ := pop_cons votesLess top rest
          have htopNumber := h.future.numbers top (hpq ▸ mem_cons_self)
          simp only [hpq, hpop]
          refine ih ⟨h.cur, (hpq ▸ h.future).pop hpop hperm, ?_⟩ ?_
          · exact forall_mem_append.mpr ⟨h.aside, by simpa using htopNumber⟩
          · exact forall_mem_append.mpr ⟨haside, by simpa using hunknown⟩
      · exact ⟨h, haside⟩

theorem transferVotesFromFutureToCur_timely (h : Timely number [] pool) :
    Timely number [] (pool.transferVotesFromFutureToCur hash view latest) := by
  have hold : Timely number []
      (transferOld hash view latest pool.futureVotes.pq.length pool) :=
    transferOld_timely _ h
  obtain ⟨hknown, -⟩ := transferKnown_timely _ hold (fun _ h => absurd h not_mem_nil)
  exact ⟨hknown.cur, hknown.future.foldl_push _ hknown.aside, fun _ h => absurd h not_mem_nil⟩

theorem pruneLoop_timely (fuel : ℕ) (h : Timely number [] pool) :
    Timely number [] (pruneLoop hash latest fuel pool) := by
  induction fuel generalizing pool with
  | zero => exact h
  | succ fuel ih =>
    unfold pruneLoop
    cases hpq : pool.curVotes.pq with
    | nil => exact h
    | cons top rest =>
      obtain ⟨curPq, hpop, hperm⟩ := pop_cons votesLess top rest
      have hcur : InOrder number curPq := (hpq ▸ h.cur).pop hpop hperm
      rw [hpop]
      dsimp only
      split
      · refine ih ?_
        unfold dropBox
        split
        · exact ⟨hcur, h.future, h.aside⟩
        · exact ⟨hcur, h.future, h.aside⟩
      · exact h

theorem calls_timely (calls : List PoolCall) (h : Timely number [] pool)
    (hcalls : ∀ view vote, .put view vote ∈ calls →
      vote.data.targetNumber.toNat = number vote.data.targetHash) :
    Timely number [] (calls.foldl (call hash) pool) := by
  induction calls generalizing pool with
  | nil => exact h
  | cons call calls ih =>
    refine ih ?_ fun view vote hmem => hcalls view vote (mem_cons_of_mem call hmem)
    cases call with
    | put view vote => exact putIntoVotePool_timely h view (hcalls view vote mem_cons_self)
    | transfer view latest => exact transferVotesFromFutureToCur_timely h
    | prune latest => exact pruneLoop_timely _ h

/-! ## What is moved and what is pruned -/

variable {key : Hash}

theorem exists_entry {entries : List VoteData} {votes : Std.ExtTreeMap Hash VoteBox}
    (h : OneEntryPerBox entries votes) (hkey : key ∈ votes) :
    ∃ entry ∈ entries, entry.targetHash = key := by
  have hcount := h key
  rw [if_pos hkey] at hcount
  have hmem : key ∈ entries.map VoteData.targetHash := count_pos_iff.mp (by omega)
  exact mem_map.mp hmem

theorem votesFor_of_not_mem (h : key ∉ store.votes) : store.votesFor key = [] := by
  rw [votesFor, Std.ExtTreeMap.getElem?_eq_none h]
  rfl

theorem transferVotesFromFutureToCur_delivers (hrepresents : Represents hash [] pool)
    (h : Timely number [] pool) (hverified : view.isVerifiedBlock key = true)
    (hnumber : number key ≤ latest.toNat) :
    (pool.transferVotesFromFutureToCur hash view latest).futureVotes.votesFor key = [] := by
  let old := transferOld hash view latest pool.futureVotes.pq.length pool
  let known := transferKnown hash view latest old.futureVotes.pq.length old []
  have hold : Timely number [] old := transferOld_timely _ h
  obtain ⟨hknown, hunknown⟩ : Timely number known.2 known.1 ∧
      ∀ entry ∈ known.2, view.isVerifiedBlock entry.targetHash = false :=
    transferKnown_timely _ hold fun _ h => absurd h not_mem_nil
  have hentries : OneEntryPerBox (known.1.futureVotes.pq ++ known.2) known.1.futureVotes.votes :=
    (transferKnown_represents view latest _
      (transferOld_represents view latest _ hrepresents)).futureQueue
  change known.1.futureVotes.votesFor key = []
  refine votesFor_of_not_mem fun hkey => ?_
  obtain ⟨entry, hentry, rfl⟩ := exists_entry hentries hkey
  rcases mem_append.mp hentry with hqueued | haside
  · -- the loop has stopped at a top that is too new, so the entry is too new as well
    cases hpq : known.1.futureVotes.pq with
    | nil => simp [hpq] at hqueued
    | cons top rest =>
      have hexit : ¬top.targetNumber ≤ latest :=
        transferKnown_exits le_rfl top (by rw [hpq]; rfl)
      have htop : top.targetNumber.toNat ≤ number entry.targetHash :=
        (hpq ▸ hknown.future).top_le (hpq ▸ hqueued)
      rw [UInt64.le_iff_toNat_le] at hexit
      omega
  · rw [hunknown entry haside] at hverified
    cases hverified

theorem votesFor_dropBox (curPq : List VoteData) (blockHash : Hash) :
    (dropBox hash { pool with curVotes := { pool.curVotes with pq := curPq } }
        blockHash).curVotes.votesFor =
      Function.update pool.curVotes.votesFor blockHash [] := by
  unfold dropBox
  split
  · rename_i hnone
    have hempty : pool.curVotes.votesFor blockHash = [] := by
      simpa [votesFor] using congrArg (·.elim [] VoteBox.voteMessages) hnone
    rw [← hempty, Function.update_eq_self]
    rfl
  · exact votesFor_erase pool.curVotes curPq blockHash

variable (latest) in
theorem outside_window {targetNumber : UInt64} (h : targetNumber.toNat + 256 ≤ 2 ^ 64) :
    targetNumber + lowerLimitOfVoteBlockNumber - 1 < latest ↔
      targetNumber.toNat + 256 ≤ latest.toNat := by
  rw [UInt64.lt_iff_toNat_lt, lowerLimitOfVoteBlockNumber, UInt64.toNat_sub, UInt64.toNat_add]
  simp only [UInt64.reduceToNat]
  omega

/-- When the loop stops, there is no box outside the window: it would have an entry, which is not
older than the top. -/
theorem votesFor_of_stop (hrepresents : Represents hash [] pool) (h : Timely number [] pool)
    (hstop : ∀ top ∈ pool.curVotes.pq.head?,
      latest.toNat < top.targetNumber.toNat + 256) (key : Hash) : pool.curVotes.votesFor key =
      if number key + 256 ≤ latest.toNat then [] else pool.curVotes.votesFor key := by
  split
  · rename_i hold
    refine votesFor_of_not_mem fun hkey => ?_
    obtain ⟨entry, hentry, rfl⟩ := exists_entry hrepresents.curQueue hkey
    cases hpq : pool.curVotes.pq with
    | nil => simp [hpq] at hentry
    | cons top rest =>
      have hle : top.targetNumber.toNat ≤ number entry.targetHash :=
        (hpq ▸ h.cur).top_le (hpq ▸ hentry)
      have hnew := hstop top (by rw [hpq]; rfl)
      omega
  · rfl

theorem pruneLoop_prunes (hsmall : ∀ key, number key + 256 ≤ 2 ^ 64) {fuel : ℕ}
    (hfuel : pool.curVotes.pq.length ≤ fuel) (hrepresents : Represents hash [] pool)
    (h : Timely number [] pool) (key : Hash) :
    (pruneLoop hash latest fuel pool).curVotes.votesFor key =
      if number key + 256 ≤ latest.toNat then [] else pool.curVotes.votesFor key := by
  induction fuel generalizing pool with
  | zero =>
    refine votesFor_of_stop hrepresents h (fun top htop => ?_) key
    rw [Nat.le_zero, length_eq_zero_iff] at hfuel
    simp [hfuel] at htop
  | succ fuel ih =>
    unfold pruneLoop
    cases hpq : pool.curVotes.pq with
    | nil => exact votesFor_of_stop hrepresents h (fun top htop => by simp [hpq] at htop) key
    | cons top rest =>
      obtain ⟨curPq, hpop, hperm⟩ := pop_cons votesLess top rest
      have hcur : InOrder number curPq := (hpq ▸ h.cur).pop hpop hperm
      have htopNumber := h.cur.numbers top (hpq ▸ mem_cons_self)
      have hwindow := outside_window latest (htopNumber ▸ hsmall top.targetHash)
      have hlength : curPq.length ≤ fuel := by
        rw [hperm.length_eq]
        simpa [hpq] using hfuel
      rw [hpop]
      dsimp only
      by_cases hold : top.targetNumber + lowerLimitOfVoteBlockNumber - 1 < latest
      · rw [if_pos hold]
        rw [hwindow, htopNumber] at hold
        obtain ⟨hpq', htimely⟩ : (dropBox hash
              { pool with curVotes := { pool.curVotes with pq := curPq } }
              top.targetHash).curVotes.pq.length ≤ fuel ∧ Timely number [] (dropBox hash
              { pool with curVotes := { pool.curVotes with pq := curPq } } top.targetHash) := by
          unfold dropBox
          split
          · exact ⟨hlength, hcur, h.future, h.aside⟩
          · exact ⟨hlength, hcur, h.future, h.aside⟩
        rw [ih hpq' (dropBox_represents hrepresents hpq hperm) htimely, votesFor_dropBox]
        by_cases hkey : key = top.targetHash
        · rw [hkey, if_pos hold, if_pos hold]
        · rw [Function.update_of_ne hkey]
      · rw [if_neg hold]
        rw [hwindow] at hold
        refine votesFor_of_stop hrepresents h (fun top' htop => ?_) key
        rw [hpq] at htop
        cases htop
        omega

end VotePool

/-- **Votes are delivered and pruned in time, if they claim true numbers.** `number` gives the
number of the block with a hash. After any calls in which every vote that is put in claims the
number of its target, a transfer leaves no vote for a verified block up to the latest one in the
future pool, and pruning keeps exactly the votes whose target is inside the window. -/
theorem votes_delivered (hash : VoteEnvelope → Hash) (number : Hash → ℕ)
    (hsmall : ∀ key, number key + 256 ≤ 2 ^ 64) (calls : List PoolCall)
    (htrue : ∀ view vote, .put view vote ∈ calls →
      vote.data.targetNumber.toNat = number vote.data.targetHash) :
    let pool := calls.foldl (call hash) empty
    (∀ (view : PoolView) (latest : UInt64) (key : Hash), view.isVerifiedBlock key = true →
      number key ≤ latest.toNat →
        (pool.transferVotesFromFutureToCur hash view latest).futureVotes.votesFor key = []) ∧
    ∀ (latest : UInt64) (key : Hash), (pool.prune hash latest).curVotes.votesFor key =
      if number key + 256 ≤ latest.toNat then [] else pool.curVotes.votesFor key := by
  have hrepresents := calls_represent (@empty_represents hash) calls
  have htimely : Timely number [] (calls.foldl (call hash) empty) :=
    calls_timely calls empty_timely htrue
  refine ⟨fun view latest key hverified hnumber => ?_, fun latest key => ?_⟩
  · exact transferVotesFromFutureToCur_delivers hrepresents htimely hverified hnumber
  · exact pruneLoop_prunes hsmall le_rfl hrepresents htimely key

/-! ## A forged number -/

namespace Sample

/-- The hash of block 2. -/
def target : Hash := FixedBytes.ofBytes 32 [2]

/-- A vote for block 2 that claims some number for it. -/
def voteFor (voter : UInt8) (claimed : UInt64) : VoteEnvelope :=
  ⟨.ofBytes _ [voter], .ofBytes _ [], ⟨0, .zero 32, claimed, target⟩⟩

/-- A stand-in for the hash of a vote. -/
def voteHash (vote : VoteEnvelope) : Hash :=
  .ofBytes 32 (vote.voteAddress.bytes.drop 47 ++ [vote.data.targetNumber.toUInt8])

/-- The node at some head, where block 2 is verified or not. Votes are accepted by the engine if
their target is verified and they claim its number. -/
def poolView (headNumber : UInt64) (verified : Bool) : PoolView where
  headNumber := headNumber
  isVerifiedBlock _ := verified
  verify _ := true
  verifyVote vote := verified && vote.data.targetNumber == 2

/-- The pool of a node at block 1 that has received two votes for block 2. -/
def received (vote vote' : VoteEnvelope) : VotePool :=
  [.put (poolView 1 false) vote, .put (poolView 1 false) vote'].foldl
    (VotePool.call voteHash) .empty

end Sample

open Sample in
/-- Two votes with the true number are in the current pool once block 2 is verified. -/
theorem votes_delivered_sample : (∀ key : Hash, (fun _ => 2) key + 256 ≤ 2 ^ 64) ∧
    ((received (voteFor 1 2) (voteFor 3 2)).transferVotesFromFutureToCur voteHash
      (poolView 2 true) 2).futureVotes.votesFor target = [] := by
  refine ⟨fun _ => by norm_num, ?_⟩
  have hdelivered := votes_delivered voteHash (fun _ => 2) (fun _ => by norm_num)
    [.put (poolView 1 false) (voteFor 1 2), .put (poolView 1 false) (voteFor 3 2)] ?_
  · exact hdelivered.1 (poolView 2 true) 2 target rfl le_rfl
  · intro view vote hput
    simp only [mem_cons, PoolCall.put.injEq, not_mem_nil, or_false] at hput
    obtain ⟨-, rfl⟩ | ⟨-, rfl⟩ := hput <;> rfl

open Sample in
/-- One vote with a forged number: if it is too high, the true vote stays in the future pool when
block 2 is verified, and later in the current pool outside the window; if it is too low, the true
vote is discarded while block 2 is not verified yet, which it would not be otherwise. -/
theorem forged_number_hides_votes :
    ((received (voteFor 9 12) (voteFor 1 2)).transferVotesFromFutureToCur voteHash
      (poolView 2 true) 2).futureVotes.votesFor target = [voteFor 9 12, voteFor 1 2] ∧
    (((received (voteFor 9 12) (voteFor 1 2)).transferVotesFromFutureToCur voteHash
      (poolView 12 true) 12).prune voteHash 258).curVotes.votesFor target = [voteFor 1 2] ∧
    ((received (voteFor 9 0) (voteFor 1 2)).transferVotesFromFutureToCur voteHash
      (poolView 12 false) 12).futureVotes.votesFor target = [] ∧
    ((received (voteFor 3 2) (voteFor 1 2)).transferVotesFromFutureToCur voteHash
      (poolView 12 false) 12).futureVotes.votesFor target = [voteFor 3 2, voteFor 1 2] := by
  decide

end ChilizChain
