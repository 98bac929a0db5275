import ChilizChain.Lib.Lru
import ChilizChain.Parlia.Extra

/-! The vote manager of a validator node: the journal of the votes that it cast, the rules it
checks before casting a vote, and the event loop. What the loop learns from the rest of the node
at an event (is the node mining, what is the justified block of the header, was the vote signed
in time) is part of the event. -/

namespace ChilizChain

structure VoteEnvelope where
  voteAddress : BLSPublicKey
  signature : BLSSignature
  data : VoteData
deriving DecidableEq

/-! ## The journal -/

def maxSizeOfRecentEntry : ℕ := 512
def maliciousVoteSlashScope : UInt64 := 256

/-- The log on disk, oldest vote first, and the votes in memory by target number. -/
structure VoteJournal where
  walLog : List VoteEnvelope
  voteDataBuffer : Lru UInt64 VoteData

namespace VoteJournal

/-- `NewVoteJournal`: the votes in memory are read back from the log. -/
def load (walLog : List VoteEnvelope) : VoteJournal where
  walLog := walLog
  voteDataBuffer := walLog.foldl (fun buffer vote => buffer.add vote.data.targetNumber vote.data)
    (Lru.empty maxSizeOfRecentEntry)

/-- The log keeps the newest entries. -/
def writeVote (journal : VoteJournal) (vote : VoteEnvelope) : VoteJournal :=
  let walLog := journal.walLog ++ [vote]
  { walLog := walLog.drop (walLog.length - maxSizeOfRecentEntry)
    voteDataBuffer := journal.voteDataBuffer.add vote.data.targetNumber vote.data }

end VoteJournal

/-! ## The rules -/

def upperLimitOfVoteBlockNumber : UInt64 := 11

/-- The target numbers below a new vote that are looked at: those inside its span, as far as
votes are slashed. -/
def blocksBelow (sourceNumber targetNumber : UInt64) : List UInt64 :=
  let blockNumber := sourceNumber + 1
  let blockNumber :=
    if blockNumber + maliciousVoteSlashScope < targetNumber then
      targetNumber - maliciousVoteSlashScope
    else blockNumber
  (List.range' blockNumber.toNat (targetNumber.toNat - blockNumber.toNat)).map UInt64.ofNat

/-- The target numbers above a new vote that are looked at. -/
def blocksAbove (targetNumber : UInt64) : List UInt64 :=
  if targetNumber + 1 ≤ targetNumber + upperLimitOfVoteBlockNumber then
    (List.range upperLimitOfVoteBlockNumber.toNat).map fun i => targetNumber + 1 + UInt64.ofNat i
  else []

/-- Look up the votes for the given targets until one offends. Each hit is marked as recently
used. -/
def scanVotes (offends : VoteData → Bool) :
    List UInt64 → Lru UInt64 VoteData → Bool × Lru UInt64 VoteData
  | [], buffer => (true, buffer)
  | blockNumber :: rest, buffer =>
    match buffer.lookup blockNumber with
    | none => scanVotes offends rest buffer
    | some voteData =>
      let buffer := (buffer.get blockNumber).2
      if offends voteData then (false, buffer) else scanVotes offends rest buffer

/-- `UnderRules`: the source of a vote for the header with this number, if it may be cast. -/
def VoteJournal.underRules (journal : VoteJournal) (targetNumber : UInt64)
    (justified : Option (UInt64 × Hash)) : Option (UInt64 × Hash) × VoteJournal :=
  match justified with
  | none => (none, journal)
  | some (sourceNumber, sourceHash) =>
    -- Rule 1: no two distinct votes for the same height
    if (journal.voteDataBuffer.lookup targetNumber).isSome then (none, journal)
    else
      -- Rule 2: no vote within the span of another one
      let below := scanVotes (fun voteData => sourceNumber < voteData.sourceNumber)
        (blocksBelow sourceNumber targetNumber) journal.voteDataBuffer
      if !below.1 then (none, { journal with voteDataBuffer := below.2 })
      else
        let above := scanVotes (fun voteData => voteData.sourceNumber < sourceNumber)
          (blocksAbove targetNumber) below.2
        (if above.1 then some (sourceNumber, sourceHash) else none,
          { journal with voteDataBuffer := above.2 })

/-! ## The event loop -/

def blocksNumberSinceMining : ℕ := 40

structure VoteManager where
  startVote : Bool
  blockCountSinceMining : ℕ
  journal : VoteJournal

/-- What the loop finds out when a highest verified block is announced. -/
structure HeadEvent where
  isMining : Bool
  /-- Number and hash of the announced header. -/
  header : Option (UInt64 × Hash)
  isActiveValidator : Bool
  /-- What `GetJustifiedNumberAndHash` answers for the header. -/
  justified : Option (UInt64 × Hash)
  tooLate : Bool
  /-- Vote key and signature, if signing succeeds. -/
  signed : Option (BLSPublicKey × BLSSignature)
  /-- The log on disk accepts the vote. -/
  written : Bool

inductive VoteEvent
  /-- The downloader starts, or is done or has failed. -/
  | downloader (isDone : Bool)
  | head (event : HeadEvent)
  /-- A vote of the same validator arrives from another machine. -/
  | sync (isMining isOwn written : Bool) (vote : VoteEnvelope)
  /-- The node is started again. -/
  | restart

namespace VoteManager

/-- `NewVoteManager`. -/
def start (walLog : List VoteEnvelope) : VoteManager := ⟨true, 0, .load walLog⟩

variable (m : VoteManager) (event : HeadEvent)

/-- The vote for a header that the rules allow, as far as it is signed and written. -/
def envelope (header source : UInt64 × Hash) : Option VoteEnvelope :=
  if source.2 = FixedBytes.zero 32 ∨ event.tooLate then none
  else
    match event.signed with
    | none => none
    | some (voteAddress, signature) =>
      if event.written then
        some ⟨voteAddress, signature, ⟨source.1, source.2, header.1, header.2⟩⟩
      else none

/-- Vote for an announced header. Returns the vote that was written. -/
def castVote (header : UInt64 × Hash) :
    VoteManager × Option VoteEnvelope :=
  match m.journal.underRules header.1 event.justified with
  | (none, journal) => ({ m with journal := journal }, none)
  | (some source, journal) =>
    match envelope event header source with
    | none => ({ m with journal := journal }, none)
    | some vote => ({ m with journal := journal.writeVote vote }, some vote)

/-- A highest verified block is announced. After mining starts the first blocks are skipped. -/
def onHead : VoteManager × Option VoteEnvelope :=
  if !m.startVote then (m, none)
  else if !event.isMining then ({ m with blockCountSinceMining := 0 }, none)
  else
    let m := { m with blockCountSinceMining := m.blockCountSinceMining + 1 }
    if m.blockCountSinceMining ≤ blocksNumberSinceMining then (m, none)
    else
      match event.header with
      | none => (m, none)
      | some header =>
        if !event.isActiveValidator then (m, none) else m.castVote event header

/-- One event: the new state, and the vote that was written to the journal. -/
def handle : VoteEvent → VoteManager × Option VoteEnvelope
  | .downloader isDone => ({ m with startVote := isDone }, none)
  | .head event => m.onHead event
  | .sync isMining isOwn written vote =>
    if isMining || !isOwn || !written then (m, none)
    else ({ m with journal := m.journal.writeVote vote }, some vote)
  | .restart => (start m.journal.walLog, none)

end VoteManager

end ChilizChain
