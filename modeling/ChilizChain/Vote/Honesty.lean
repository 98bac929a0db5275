import ChilizChain.Lib.Run
import ChilizChain.Vote.Manager

/-! Does a node that follows the rules ever cast two votes that break them? The rules look only
eleven blocks above a new vote and only at the votes that are still in memory; within these limits
no two votes conflict. -/

namespace ChilizChain

open List

/-! ## What the scans find -/

section Scans

variable {offends : VoteData → Bool}

theorem lookup_scanVotes (k : UInt64) : ∀ (blocks : List UInt64) (buffer : Lru UInt64 VoteData),
    (scanVotes offends blocks buffer).2.lookup k = buffer.lookup k
  | [], _ => rfl
  | n :: rest, buffer => by
    unfold scanVotes
    split
    · exact lookup_scanVotes k rest buffer
    · dsimp only
      split
      · exact Lru.lookup_get _ _ _
      · rw [lookup_scanVotes k rest, Lru.lookup_get]

theorem scanVotes_passed : ∀ {blocks : List UInt64} {buffer : Lru UInt64 VoteData},
    (scanVotes offends blocks buffer).1 = true → ∀ n ∈ blocks, ∀ voteData,
      buffer.lookup n = some voteData → offends voteData = false
  | [], _, _, _, hmem, _, _ => nomatch hmem
  | first :: rest, buffer, h, n, hmem, voteData, hlookup => by
    unfold scanVotes at h
    split at h
    · rename_i hnone
      rcases mem_cons.mp hmem with rfl | hmem
      · rw [hnone] at hlookup
        cases hlookup
      · exact scanVotes_passed h n hmem voteData hlookup
    · rename_i found hfound
      dsimp only at h
      split at h
      · cases h
      · rename_i hpassed
        rcases mem_cons.mp hmem with rfl | hmem
        · rw [hfound] at hlookup
          obtain rfl := Option.some.inj hlookup
          exact Bool.eq_false_iff.mpr hpassed
        · refine scanVotes_passed h n hmem voteData ?_
          rw [Lru.lookup_get]
          exact hlookup

end Scans

/-- The two target numbers are close enough for a vote to be slashed. -/
def WithinScope (a b : UInt64) : Prop := a.toNat < b.toNat + 256 ∧ b.toNat < a.toNat + 256

variable {target : UInt64}

theorem mem_blocksBelow {source n : UInt64} (hsource : source < n)
    (htarget : n < target) (hscope : WithinScope n target) : n ∈ blocksBelow source target := by
  rw [UInt64.lt_iff_toNat_lt] at hsource htarget
  have hstart : ∀ first : UInt64, first.toNat ≤ n.toNat → n ∈
      (List.range' first.toNat (target.toNat - first.toNat)).map UInt64.ofNat := by
    intro first hle
    refine mem_map.mpr ⟨n.toNat, ?_, UInt64.ofNat_toNat⟩
    rw [mem_range'_1]
    omega
  have hlt := n.toNat_lt
  unfold blocksBelow
  dsimp only
  split_ifs with hfar
  · rw [UInt64.lt_iff_toNat_lt, UInt64.toNat_add, UInt64.toNat_add,
      show (1 : UInt64).toNat = 1 from rfl, show maliciousVoteSlashScope.toNat = 256 from rfl]
      at hfar
    refine hstart _ ?_
    rw [UInt64.toNat_sub, show maliciousVoteSlashScope.toNat = 256 from rfl]
    have hclose := hscope.2
    have hmax := target.toNat_lt
    omega
  · refine hstart _ ?_
    rw [UInt64.toNat_add, show (1 : UInt64).toNat = 1 from rfl]
    omega

theorem mem_blocksAbove {n : UInt64} (htarget : target < n)
    (hnear : n.toNat ≤ target.toNat + 11) (hmax : target.toNat + 11 < 2 ^ 64) :
    n ∈ blocksAbove target := by
  rw [UInt64.lt_iff_toNat_lt] at htarget
  have hone : (target + 1).toNat = target.toNat + 1 := by
    rw [UInt64.toNat_add, show (1 : UInt64).toNat = 1 from rfl]
    omega
  have hle : target + 1 ≤ target + upperLimitOfVoteBlockNumber := by
    rw [UInt64.le_iff_toNat_le, hone, UInt64.toNat_add,
      show upperLimitOfVoteBlockNumber.toNat = 11 from rfl]
    omega
  unfold blocksAbove
  rw [if_pos hle]
  refine mem_map.mpr ⟨n.toNat - target.toNat - 1, ?_, ?_⟩
  · rw [mem_range, show upperLimitOfVoteBlockNumber.toNat = 11 from rfl]
    omega
  · rw [← UInt64.toNat_inj, UInt64.toNat_add, hone, UInt64.toNat_ofNat']
    omega

/-! ## One vote -/

theorem underRules_passed {journal : VoteJournal} {justified : Option (UInt64 × Hash)}
    {source : UInt64 × Hash} (h : (journal.underRules target justified).1 = some source) :
    journal.voteDataBuffer.lookup target = none ∧ (∀ n ∈ blocksBelow source.1 target, ∀ voteData,
      journal.voteDataBuffer.lookup n = some voteData →
        voteData.sourceNumber ≤ source.1) ∧ ∀ n ∈ blocksAbove target, ∀ voteData,
      journal.voteDataBuffer.lookup n = some voteData → source.1 ≤ voteData.sourceNumber := by
  unfold VoteJournal.underRules at h
  split at h
  · cases h
  · rename_i sourceNumber sourceHash
    split at h
    · cases h
    · rename_i hfresh
      dsimp only at h
      split at h
      · cases h
      · rename_i hbelow
        split at h
        · rename_i habove
          obtain rfl := Option.some.inj h
          refine ⟨Option.not_isSome_iff_eq_none.mp hfresh, ?_, ?_⟩
          · intro n hmem voteData hlookup
            have hpassed := scanVotes_passed (by simpa using hbelow) n hmem voteData hlookup
            simpa using hpassed
          · intro n hmem voteData hlookup
            rw [← lookup_scanVotes] at hlookup
            have hpassed := scanVotes_passed habove n hmem voteData hlookup
            simpa using hpassed
        · cases h

namespace VoteManager

theorem onHead_vote {m : VoteManager} {event : HeadEvent} {vote : VoteEnvelope}
    (h : (m.onHead event).2 = some vote) :
    event.header = some (vote.data.targetNumber, vote.data.targetHash) ∧
    (m.journal.underRules vote.data.targetNumber event.justified).1 =
      some (vote.data.sourceNumber, vote.data.sourceHash) := by
  unfold onHead castVote at h
  dsimp only at h
  split at h
  · cases h
  split at h
  · cases h
  split at h
  · cases h
  split at h
  · cases h
  rename_i header hheader
  split at h
  · cases h
  split at h
  · cases h
  rename_i source journal hrules
  split at h
  · cases h
  rename_i written henvelope
  obtain rfl := Option.some.inj h
  unfold envelope at henvelope
  split at henvelope
  · cases henvelope
  split at henvelope
  · cases henvelope
  split at henvelope
  · obtain rfl := Option.some.inj henvelope
    exact ⟨hheader, by rw [hrules]⟩
  · cases henvelope

end VoteManager

/-! ## Whole runs -/

/-- The votes that were written, newest first. -/
def votesOf (H : List (VoteEvent × VoteManager)) : List VoteData :=
  H.filterMap fun entry => (entry.2.handle entry.1).2.map VoteEnvelope.data

theorem votesOf_cons (event : VoteEvent) (m : VoteManager) (H : List (VoteEvent × VoteManager)) :
    votesOf ((event, m) :: H) = ((m.handle event).2.map VoteEnvelope.data).toList ++ votesOf H := by
  unfold votesOf
  rw [filterMap_cons]
  cases (m.handle event).2 <;> rfl

/-- An event that leaves the votes in sight of the rules: an announced header is at most eleven
blocks below each vote in its scope, and each such vote is still in memory. Votes do not arrive
from other machines. -/
def InSight (H : List (VoteEvent × VoteManager)) (m : VoteManager) : VoteEvent → Prop
  | .downloader _ => True
  | .restart => True
  | .sync _ _ _ _ => False
  | .head event => ∀ header ∈ event.header, header.1.toNat + 11 < 2 ^ 64 ∧
      ∀ voteData ∈ votesOf H, WithinScope voteData.targetNumber header.1 →
        m.journal.voteDataBuffer.lookup voteData.targetNumber = some voteData ∧
          voteData.targetNumber.toNat ≤ header.1.toNat + 11

def VoteStep (H : List (VoteEvent × VoteManager)) (m : VoteManager) (event : VoteEvent)
    (m' : VoteManager) : Prop :=
  InSight H m event ∧ (m.handle event).1 = m'

theorem InSight.not_slashable {H : List (VoteEvent × VoteManager)} {m : VoteManager}
    {event : VoteEvent} (h : InSight H m event) {vote : VoteEnvelope}
    (hvote : (m.handle event).2 = some vote) {earlier : VoteData} (hearlier : earlier ∈ votesOf H)
    (hscope : WithinScope earlier.targetNumber vote.data.targetNumber) :
    ¬Slashable vote.data earlier ∧ ¬Slashable earlier vote.data := by
  cases event with
  | downloader isDone => cases hvote
  | restart => cases hvote
  | sync isMining isOwn written vote => exact h.elim
  | head event =>
    obtain ⟨hheader, hrules⟩ := VoteManager.onHead_vote hvote
    obtain ⟨hmax, hsight⟩ := h _ hheader
    obtain ⟨hlookup, hnear⟩ := hsight earlier hearlier hscope
    obtain ⟨hfresh, hbelow, habove⟩ := underRules_passed hrules
    have hne : earlier.targetNumber ≠ vote.data.targetNumber := by
      rintro heq
      rw [heq, hfresh] at hlookup
      cases hlookup
    refine ⟨?_, ?_⟩
    · rintro (⟨heq, -⟩ | ⟨hsource, hspan, htarget⟩)
      · exact hne heq.symm
      · have hmem := mem_blocksBelow (UInt64.lt_trans hsource hspan) htarget hscope
        exact UInt64.not_le.mpr hsource (hbelow _ hmem earlier hlookup)
    · rintro (⟨heq, -⟩ | ⟨hsource, hspan, htarget⟩)
      · exact hne heq
      · have hmem := mem_blocksAbove htarget hnear hmax
        exact UInt64.not_le.mpr hsource (habove _ hmem earlier hlookup)

/-- **Honest votes.** As long as the votes stay in sight of the rules, no two votes that a node
writes break the voting rules, whatever headers are announced to it and whenever it is started
again. -/
theorem honest_votes_not_slashable {m₀ m : VoteManager} {H : List (VoteEvent × VoteManager)}
    (hrun : Run VoteStep m₀ H m) :
    (votesOf H).Pairwise fun v w => WithinScope w.targetNumber v.targetNumber →
      ¬Slashable v w ∧ ¬Slashable w v := by
  induction hrun with
  | start => exact List.Pairwise.nil
  | @next H event m m' before h ih =>
    rw [votesOf_cons]
    cases hvote : (m.handle event).2 with
    | none => exact ih
    | some vote =>
      exact List.pairwise_cons.mpr ⟨fun earlier hearlier hscope =>
        h.1.not_slashable hvote hearlier hscope, ih⟩

namespace Sample

/-- The node is mining, and the announcement carries no header. -/
def idleEvent : HeadEvent := ⟨true, none, false, none, false, none, false⟩

/-- A header that is voted for in time. -/
def voteEvent (source target : UInt64) : HeadEvent where
  isMining := true
  header := some (target, .ofBytes 32 [1])
  isActiveValidator := true
  justified := some (source, .ofBytes 32 [2])
  tooLate := false
  signed := some (default, default)
  written := true

def voteData (source target : UInt64) : VoteData :=
  ⟨source, .ofBytes 32 [2], target, .ofBytes 32 [1]⟩

/-- A node that has been mining for a while. -/
def warmManager : VoteManager := { VoteManager.start [] with blockCountSinceMining := 40 }

theorem inSight_first : InSight [] warmManager (.head (voteEvent 1 2)) := by
  rintro _ ⟨⟩
  exact ⟨by decide, fun _ hmem => nomatch hmem⟩

theorem inSight_second : InSight [(.head (voteEvent 1 2), warmManager)]
    (warmManager.handle (.head (voteEvent 1 2))).1 (.head (voteEvent 2 3)) := by
  rintro _ ⟨⟩
  refine ⟨by decide, fun v hmem _ => ?_⟩
  have hvotes : votesOf [(.head (voteEvent 1 2), warmManager)] = [voteData 1 2] := by
    decide
  rw [hvotes, mem_singleton] at hmem
  subst hmem
  decide

/-- The events with the states they arrive in, newest first. -/
def history : VoteManager → List VoteEvent → List (VoteEvent × VoteManager)
  | _, [] => []
  | m, event :: rest => history (m.handle event).1 rest ++ [(event, m)]

end Sample

open Sample in
/-- Two votes in a row. -/
theorem honest_votes_not_slashable_sample :
    (votesOf [(.head (voteEvent 2 3), (warmManager.handle (.head (voteEvent 1 2))).1),
      (.head (voteEvent 1 2), warmManager)]).Pairwise fun v w =>
        WithinScope w.targetNumber v.targetNumber → ¬Slashable v w ∧ ¬Slashable w v :=
  honest_votes_not_slashable (.next (.next .start ⟨inSight_first, rfl⟩) ⟨inSight_second, rfl⟩)

open Sample in
/-- After a vote for block 100 with source 10, a reorganisation to a branch whose head is block 50
and whose justified block is block 40: the new vote lies inside the span of the old one, fifty
blocks below its target. -/
theorem reorganisation_slashable :
    votesOf (history (.start []) (List.replicate 40 (.head idleEvent) ++
      [.head (voteEvent 10 100), .head (voteEvent 40 50)])) = [voteData 40 50, voteData 10 100] ∧
    WithinScope (voteData 10 100).targetNumber (voteData 40 50).targetNumber ∧
    Slashable (voteData 10 100) (voteData 40 50) := by
  refine ⟨by decide +kernel, ⟨by decide, by decide⟩, .inr ⟨by decide, by decide, by decide⟩⟩

end ChilizChain
