import ChilizChain.Lib.Inventory
import ChilizChain.Vote.Pool

/-! The three containers of the vote pool agree after every sequence of calls. The queues hold one
entry per box, although they are ordered by the number that the first vote claims and the boxes are
keyed by hash: a box comes and goes together with its entry. -/

namespace ChilizChain

open Std.ExtTreeMap Function List VoteStore Heap

section Queue

variable {entries entries' : List VoteData} {votes votes' : Std.ExtTreeMap Hash VoteBox}
  {entry : VoteData}

/-- The entries are one per box. -/
def OneEntryPerBox (entries : List VoteData) (votes : Std.ExtTreeMap Hash VoteBox) : Prop :=
  ∀ key, (entries.map VoteData.targetHash).count key = if key ∈ votes then 1 else 0

namespace OneEntryPerBox

theorem congr (h : OneEntryPerBox entries votes) (hperm : entries'.Perm entries)
    (hmem : ∀ key, key ∈ votes' ↔ key ∈ votes) : OneEntryPerBox entries' votes' := by
  intro key
  rw [(hperm.map _).count_eq, h key]
  simp only [hmem]

theorem cons (h : OneEntryPerBox entries votes) (hnew : entry.targetHash ∉ votes)
    (hmem : ∀ key, key ∈ votes' ↔ key = entry.targetHash ∨ key ∈ votes) :
    OneEntryPerBox (entry :: entries) votes' := by
  intro key
  rw [map_cons, count_cons, h key]
  by_cases hkey : key = entry.targetHash
  · subst hkey
    simp [hnew, hmem]
  · simp [hmem, hkey, Ne.symm hkey]

theorem head_mem (h : OneEntryPerBox (entry :: entries) votes) : entry.targetHash ∈ votes := by
  have hcount := h entry.targetHash
  rw [map_cons, count_cons_self] at hcount
  by_contra hmem
  simp [hmem] at hcount

theorem tail (h : OneEntryPerBox (entry :: entries) votes)
    (hmem : ∀ key, key ∈ votes' ↔ key ≠ entry.targetHash ∧ key ∈ votes) :
    OneEntryPerBox entries votes' := by
  intro key
  have hcount := h key
  rw [map_cons, count_cons] at hcount
  by_cases hkey : key = entry.targetHash
  · subst hkey
    simp only [h.head_mem, beq_self_eq_true, if_true] at hcount
    simp only [hmem, ne_eq, not_true, false_and, if_false]
    omega
  · simp only [hmem, ne_eq, hkey, not_false_iff, true_and, ← hcount, beq_iff_eq, Ne.symm hkey,
      if_false, Nat.add_zero]

end OneEntryPerBox

end Queue

namespace VoteStore

variable {store : VoteStore} {aside : List VoteData} {key target : Hash}

def votesFor (store : VoteStore) (key : Hash) : List VoteEnvelope :=
  (store.votes[key]?).elim [] VoteBox.voteMessages

theorem mem_ensureBox (store : VoteStore) (data : VoteData) (key : Hash) :
    key ∈ (store.ensureBox data).votes ↔ key = data.targetHash ∨ key ∈ store.votes := by
  unfold ensureBox
  split
  · rename_i hmem
    exact ⟨Or.inr, fun h => h.elim (· ▸ hmem) id⟩
  · rw [mem_insert, Std.LawfulEqCmp.compare_eq_iff_eq, eq_comm]

theorem mem_append (store : VoteStore) (votes : List VoteEnvelope) :
    key ∈ (store.append target votes).votes ↔ key ∈ store.votes :=
  mem_modify

theorem ensureBox_entries (h : OneEntryPerBox (store.pq ++ aside) store.votes) (data : VoteData) :
    OneEntryPerBox ((store.ensureBox data).pq ++ aside) (store.ensureBox data).votes := by
  by_cases hmem : data.targetHash ∈ store.votes
  · rwa [ensureBox, if_pos hmem]
  · let entry : VoteData := ⟨0, FixedBytes.zero 32, data.targetNumber, data.targetHash⟩
    have hcons : OneEntryPerBox (entry :: (store.pq ++ aside)) (store.ensureBox data).votes :=
      h.cons hmem (store.mem_ensureBox data)
    refine hcons.congr ?_ fun _ => Iff.rfl
    rw [ensureBox, if_neg hmem]
    exact (push_perm _ _).append_right aside

theorem votesFor_ensureBox (store : VoteStore) (data : VoteData) :
    (store.ensureBox data).votesFor = store.votesFor := by
  funext key
  by_cases hmem : data.targetHash ∈ store.votes
  · rw [ensureBox, if_pos hmem]
  · rw [ensureBox, if_neg hmem, votesFor, votesFor, Std.ExtTreeMap.getElem?_insert]
    split
    · rename_i hkey
      rw [Std.LawfulEqCmp.compare_eq_iff_eq] at hkey
      rw [← hkey, getElem?_eq_none hmem]
      rfl
    · rfl

theorem votesFor_append (h : target ∈ store.votes) (votes : List VoteEnvelope) :
    (store.append target votes).votesFor =
      update store.votesFor target (store.votesFor target ++ votes) := by
  funext key
  rw [votesFor, append, Std.ExtTreeMap.getElem?_modify]
  by_cases hkey : key = target
  · subst hkey
    obtain ⟨box, hbox⟩ := Option.isSome_iff_exists.mp (mem_iff_isSome_getElem?.mp h)
    simp [votesFor, hbox]
  · rw [if_neg (by simpa using Ne.symm hkey), update_of_ne hkey]
    rfl

theorem votesFor_merge (store : VoteStore) (voteData : VoteData) (target : Hash) (box : VoteBox) :
    (store.merge voteData target box).votesFor = update store.votesFor target
      (store.votesFor target ++ box.voteMessages) := by
  by_cases hmem : target ∈ store.votes
  · rw [merge, if_pos hmem, votesFor_append hmem]
  · rw [merge, if_neg hmem]
    funext key
    rw [votesFor, Std.ExtTreeMap.getElem?_insert]
    by_cases hkey : key = target
    · subst hkey
      simp [votesFor, getElem?_eq_none hmem]
    · rw [if_neg (by simpa using Ne.symm hkey), update_of_ne hkey]
      rfl

theorem merge_entries {voteData : VoteData} (h : OneEntryPerBox store.pq store.votes)
    (box : VoteBox) : OneEntryPerBox (store.merge voteData voteData.targetHash box).pq
      (store.merge voteData voteData.targetHash box).votes := by
  by_cases hmem : voteData.targetHash ∈ store.votes
  · rw [merge, if_pos hmem]
    exact h.congr (.refl _) fun _ => mem_append _ _
  · rw [merge, if_neg hmem]
    have hinsert : ∀ key, key ∈ store.votes.insert voteData.targetHash box ↔
        key = voteData.targetHash ∨ key ∈ store.votes := fun key => by
      rw [mem_insert, Std.LawfulEqCmp.compare_eq_iff_eq, eq_comm]
    exact (h.cons hmem hinsert).congr (push_perm _ _) fun _ => Iff.rfl

theorem mem_erase_votes (votes : Std.ExtTreeMap Hash VoteBox) (target : Hash) :
    key ∈ votes.erase target ↔ key ≠ target ∧ key ∈ votes := by
  rw [mem_erase, ne_eq, Std.LawfulEqCmp.compare_eq_iff_eq, eq_comm]

theorem votesFor_erase (store : VoteStore) (pq : List VoteData) (target : Hash) :
    votesFor ⟨store.votes.erase target, pq⟩ = update store.votesFor target [] := by
  funext key
  rw [votesFor, getElem?_erase]
  by_cases hkey : key = target
  · subst hkey
    simp
  · rw [if_neg (by simpa using Ne.symm hkey), update_of_ne hkey]
    rfl

end VoteStore

namespace VotePool

variable (hash : VoteEnvelope → Hash)

/-- The hashes of the votes in a box of the future pool or of the current one. -/
def hashesAt (pool : VotePool) (place : Bool × Hash) : List Hash :=
  ((pool.store place.1).votesFor place.2).map hash

/-- The representation, while `aside` holds entries that belong to the future queue. -/
structure Represents (aside : List VoteData) (pool : VotePool) : Prop where
  curQueue : OneEntryPerBox pool.curVotes.pq pool.curVotes.votes
  futureQueue : OneEntryPerBox (pool.futureVotes.pq ++ aside) pool.futureVotes.votes
  /-- `receivedVotes` lists exactly the stored votes, and none is stored twice. -/
  inventory : Inventory.Exact pool.receivedVotes (pool.hashesAt hash)

variable {hash} {pool : VotePool} {view : PoolView} {aside : List VoteData}

theorem empty_represents : Represents hash [] VotePool.empty where
  curQueue := fun key => by simp [empty, VoteStore.empty]
  futureQueue := fun key => by simp [empty, VoteStore.empty]
  inventory := by
    have hnone : VotePool.empty.hashesAt hash = fun _ => [] := by
      funext place
      simp [hashesAt, empty, store, votesFor, VoteStore.empty]
    rw [hnone]
    exact .empty

/-- The queue does not matter for what is stored. -/
theorem hashesAt_futurePq (pool : VotePool) (pq : List VoteData) :
    hashesAt hash { pool with futureVotes := { pool.futureVotes with pq := pq } } =
      pool.hashesAt hash := by
  funext ⟨future, key⟩
  cases future <;> simp [hashesAt, store, votesFor]

theorem hashesAt_putVote (pool : VotePool) (vote : VoteEnvelope) (future : Bool) :
    (pool.putVote hash vote future).hashesAt hash =
      update (pool.hashesAt hash) (future, vote.data.targetHash)
        (pool.hashesAt hash (future, vote.data.targetHash) ++ [hash vote]) := by
  have hput : ∀ store : VoteStore,
      ((store.ensureBox vote.data).append vote.data.targetHash [vote]).votesFor =
        update store.votesFor vote.data.targetHash
          (store.votesFor vote.data.targetHash ++ [vote]) := fun store => by
    rw [votesFor_append ((store.mem_ensureBox _ _).mpr (Or.inl rfl)), votesFor_ensureBox]
  funext ⟨future, key⟩
  cases future <;> cases future <;> by_cases hkey : key = vote.data.targetHash <;>
    simp [hashesAt, store, putVote, hput, hkey]

theorem putVote_represents (h : Represents hash [] pool) {vote : VoteEnvelope}
    (future : Bool) (hnew : hash vote ∉ pool.receivedVotes) :
    Represents hash [] (pool.putVote hash vote future) := by
  have hinventory := h.inventory.file (future, vote.data.targetHash) hnew
  rw [← hashesAt_putVote] at hinventory
  have hentries : ∀ {store : VoteStore}, OneEntryPerBox (store.pq ++ []) store.votes →
      let put := (store.ensureBox vote.data).append vote.data.targetHash [vote]
      OneEntryPerBox (put.pq ++ []) put.votes := fun hstore =>
    (ensureBox_entries hstore vote.data).congr (.refl _) fun _ => mem_append _ _
  cases future
  · have hcur : OneEntryPerBox (pool.curVotes.pq ++ []) pool.curVotes.votes := by
      simpa using h.curQueue
    have hput := hentries hcur
    simp only [append_nil] at hput
    exact ⟨hput, h.futureQueue, hinventory⟩
  · exact ⟨h.curQueue, hentries h.futureQueue, hinventory⟩

theorem putIntoVotePool_represents (h : Represents hash [] pool) (view : PoolView)
    (vote : VoteEnvelope) : Represents hash [] (pool.putIntoVotePool hash view vote) := by
  unfold putIntoVotePool
  dsimp only
  split
  · exact h
  · split
    · exact h
    · split
      · exact h
      · rename_i hverify _
        refine putVote_represents h _ fun hreceived => hverify ?_
        simp [basicVerify, hreceived]

theorem forget_eq (receivedVotes : Finset Hash) (votes : List VoteEnvelope) :
    forget hash receivedVotes votes = receivedVotes \ (votes.map hash).toFinset := by
  unfold forget
  induction votes generalizing receivedVotes with
  | nil => simp
  | cons vote votes ih =>
    rw [foldl_cons, ih, map_cons, toFinset_cons]
    grind

theorem hashesAt_moveBox (voteData : VoteData) (block : Hash) (voteBox : VoteBox) :
    let valid := (voteBox.voteMessages.filter view.verifyVote).map hash
    let kept := update (pool.hashesAt hash) (true, block) valid
    (pool.moveBox hash view voteData block voteBox).hashesAt hash =
      update (update kept (false, block)
        (kept (false, block) ++ kept (true, block))) (true, block) [] := by
  intro valid kept
  have hfuture := votesFor_erase pool.futureVotes pool.futureVotes.pq block
  have hcur := votesFor_merge pool.curVotes voteData block
    ⟨voteBox.blockNumber, voteBox.blockHash, voteBox.voteMessages.filter view.verifyVote⟩
  funext ⟨future, key⟩
  cases future <;> by_cases hkey : key = block <;>
    simp [hashesAt, store, moveBox, hfuture, hcur, kept, valid, hkey]

theorem moveBox_inventory (h : Inventory.Exact pool.receivedVotes (pool.hashesAt hash))
    (voteData : VoteData) {block : Hash} {voteBox : VoteBox}
    (hbox : pool.futureVotes.votes[block]? = some voteBox) :
    Inventory.Exact (pool.moveBox hash view voteData block voteBox).receivedVotes
      ((pool.moveBox hash view voteData block voteBox).hashesAt hash) := by
  have hstored : pool.hashesAt hash (true, block) = voteBox.voteMessages.map hash := by
    simp [hashesAt, store, votesFor, hbox]
  have hsplit := (filter_append_perm view.verifyVote voteBox.voteMessages).symm.map hash
  rw [← hstored, map_append] at hsplit
  rw [hashesAt_moveBox]
  have hreceived : (pool.moveBox hash view voteData block voteBox).receivedVotes = _ :=
    forget_eq _ _
  rw [hreceived]
  exact (h.drop (true, block) hsplit).move (by simp)

theorem transfer_represents (h : Represents hash aside pool) {top : VoteData}
    (htop : pool.futureVotes.pq.head? = some top) :
    Represents hash aside (pool.transfer hash view top.targetHash) := by
  obtain ⟨rest, hpq⟩ := head?_eq_some_iff.mp htop
  obtain ⟨futurePq, hpop, hperm⟩ := pop_cons votesLess top rest
  have hentries : OneEntryPerBox (top :: (rest ++ aside)) pool.futureVotes.votes := by
    simpa [hpq] using h.futureQueue
  obtain ⟨voteBox, hbox⟩ := Option.isSome_iff_exists.mp
    (mem_iff_isSome_getElem?.mp hentries.head_mem)
  rw [transfer, hpq, hpop]
  dsimp only
  rw [hbox]
  dsimp only
  refine ⟨merge_entries h.curQueue _, ?_, ?_⟩
  · refine OneEntryPerBox.congr (hentries.tail fun key => ?_) (hperm.append_right aside)
      fun _ => Iff.rfl
    exact mem_erase_votes _ _
  · refine moveBox_inventory ?_ top hbox
    rw [hashesAt_futurePq]
    exact h.inventory

section Transfer

variable (view)

theorem transferOld_represents (latest : UInt64) (fuel : ℕ) (h : Represents hash aside pool) :
    Represents hash aside (transferOld hash view latest fuel pool) := by
  induction fuel generalizing pool with
  | zero => exact h
  | succ fuel ih =>
    unfold transferOld
    split
    · exact h
    · rename_i htop
      split
      · exact ih (transfer_represents h htop)
      · exact h

theorem transferKnown_represents (latest : UInt64) (fuel : ℕ) (h : Represents hash aside pool) :
    Represents hash (transferKnown hash view latest fuel pool aside).2
      (transferKnown hash view latest fuel pool aside).1 := by
  induction fuel generalizing pool aside with
  | zero => exact h
  | succ fuel ih =>
    unfold transferKnown
    split
    · exact h
    · rename_i top htop
      split
      · split
        · exact ih (transfer_represents h htop)
        · -- the entry goes from the queue to those set aside
          obtain ⟨rest, hpq⟩ := head?_eq_some_iff.mp htop
          obtain ⟨futurePq, hpop, hperm⟩ := pop_cons votesLess top rest
          simp only [hpq, hpop]
          refine ih ⟨h.curQueue, h.futureQueue.congr ?_ fun _ => Iff.rfl, ?_⟩
          swap
          · rw [hashesAt_futurePq]
            exact h.inventory
          rw [hpq]
          calc (futurePq ++ (aside ++ [top])).Perm (rest ++ (aside ++ [top])) :=
                hperm.append_right _
            List.Perm _ (top :: (rest ++ aside)) := by
                rw [← append_assoc]
                exact perm_append_singleton _ _
      · exact h

theorem transferVotesFromFutureToCur_represents (h : Represents hash [] pool) (latest : UInt64) :
    Represents hash [] (pool.transferVotesFromFutureToCur hash view latest) := by
  have hold := transferOld_represents view latest pool.futureVotes.pq.length h
  have hknown := transferKnown_represents view latest
    (transferOld hash view latest pool.futureVotes.pq.length pool).futureVotes.pq.length
    hold
  refine ⟨hknown.curQueue, hknown.futureQueue.congr ?_ fun _ => Iff.rfl, ?_⟩
  · rw [append_nil]
    exact foldl_push_perm _ _
  · unfold transferVotesFromFutureToCur
    dsimp only
    rw [hashesAt_futurePq]
    exact hknown.inventory

end Transfer

theorem dropBox_represents {top : VoteData} {rest curPq : List VoteData}
    (h : Represents hash [] pool) (hpq : pool.curVotes.pq = top :: rest) (hperm : curPq.Perm rest) :
    Represents hash [] (dropBox hash { pool with curVotes := { pool.curVotes with pq := curPq } }
      top.targetHash) := by
  have hentries : OneEntryPerBox (top :: rest) pool.curVotes.votes := hpq ▸ h.curQueue
  obtain ⟨voteBox, hbox⟩ := Option.isSome_iff_exists.mp
    (mem_iff_isSome_getElem?.mp hentries.head_mem)
  have hstored : pool.hashesAt hash (false, top.targetHash) = voteBox.voteMessages.map hash := by
    simp [hashesAt, store, votesFor, hbox]
  have hperm' : (pool.hashesAt hash (false, top.targetHash)).Perm
      ([] ++ voteBox.voteMessages.map hash) := by simp [hstored]
  have hdrop := h.inventory.drop (false, top.targetHash) hperm'
  rw [dropBox]
  dsimp only
  rw [hbox]
  dsimp only
  refine ⟨(hentries.tail fun key => mem_erase_votes _ _).congr hperm fun _ => Iff.rfl,
    h.futureQueue, ?_⟩
  rw [forget_eq]
  convert hdrop using 1
  have herase := votesFor_erase pool.curVotes curPq top.targetHash
  funext ⟨future, key⟩
  cases future <;> by_cases hkey : key = top.targetHash <;>
    simp [hashesAt, store, herase, hkey]

theorem pruneLoop_represents (latest : UInt64) (fuel : ℕ) (h : Represents hash [] pool) :
    Represents hash [] (pruneLoop hash latest fuel pool) := by
  induction fuel generalizing pool with
  | zero => exact h
  | succ fuel ih =>
    unfold pruneLoop
    cases hpq : pool.curVotes.pq with
    | nil => exact h
    | cons top rest =>
      obtain ⟨curPq, hpop, hperm⟩ := pop_cons votesLess top rest
      rw [hpop]
      dsimp only
      split
      · exact ih (dropBox_represents h hpq hperm)
      · exact h

theorem call_represents (h : Represents hash [] pool) (call : PoolCall) :
    Represents hash [] (pool.call hash call) := by
  cases call with
  | put view vote => exact putIntoVotePool_represents h view vote
  | transfer view latest =>
    exact transferVotesFromFutureToCur_represents view h latest
  | prune latest => exact pruneLoop_represents latest _ h

theorem calls_represent (h : Represents hash [] pool) (calls : List PoolCall) :
    Represents hash [] (calls.foldl (VotePool.call hash) pool) := by
  induction calls generalizing pool with
  | nil => exact h
  | cons call calls ih => exact ih (call_represents h call)

end VotePool

/-- After every sequence of calls, whatever numbers the votes claim, each queue holds exactly one
entry per box, and the set of received votes lists exactly the stored votes, each stored once. The
loops of the next call end by their own conditions. -/
theorem votePool_representation (hash : VoteEnvelope → Hash) (calls : List PoolCall) :
    let pool := calls.foldl (VotePool.call hash) VotePool.empty
    (∀ isFutureVote key, ((pool.store isFutureVote).pq.map VoteData.targetHash).count key =
      if key ∈ (pool.store isFutureVote).votes then 1 else 0) ∧
    Inventory.Exact pool.receivedVotes (pool.hashesAt hash) ∧
    ∀ view latest, VotePool.LoopsEnd hash view latest pool
      (VotePool.transferOld hash view latest pool.futureVotes.pq.length pool) := by
  have h := VotePool.calls_represent (@VotePool.empty_represents hash) calls
  refine ⟨fun isFutureVote key => ?_, h.inventory, fun _ _ => VotePool.loopsEnd _⟩
  cases isFutureVote
  · exact h.curQueue key
  · have hqueue := h.futureQueue key
    rwa [append_nil] at hqueue

end ChilizChain
