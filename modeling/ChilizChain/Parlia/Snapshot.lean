import ChilizChain.Parlia.Extra

/-! Validator-set snapshots: their recency windows, the in-turn selection, and `apply`, which
advances a snapshot over a run of headers. Maps of the code are extensional tree maps, so two
snapshots with the same entries are equal. -/

namespace ChilizChain

open Bytes

/-! ## Primitives from outside the repository -/

/-- Hashing, signature recovery and the pseudo-random shuffle. Nothing is assumed about them
here; a result that needs an assumption names it. -/
structure Crypto where
  /-- `Header.Hash`. -/
  hash : Header → Hash
  /-- `types.SealHash` of a header whose seal has been cut off. -/
  sealHash : Header → Hash
  /-- The address recovered from a digest and a 65-byte signature. -/
  recover : Hash → Bytes → Option Address
  sha256 : Bytes → Hash
  /-- `rand.Shuffle` of `[0, …, n - 1]` under a seed. -/
  shuffle : ℕ → ℕ → List ℕ
  /-- `VoteData.Hash`. -/
  voteHash : VoteData → Hash
  validBLSKey : BLSPublicKey → Bool
  validBLSSignature : BLSSignature → Bool
  fastAggregateVerify : BLSSignature → List BLSPublicKey → Hash → Bool
  emptyUncleHash : Hash
  emptyWithdrawalsHash : Hash
deriving Inhabited

/-- The signer of a header. The code also memoises the answer under the header's hash. -/
def ecrecover (k : Crypto) (header : Header) : Except Err Address :=
  if header.extra.length < extraSeal then throw .errMissingSignature
  else
    let sealStart := header.extra.length - extraSeal
    match k.recover (k.sealHash { header with extra := header.extra.take sealStart })
        (header.extra.drop sealStart) with
    | some signer => pure signer
    | none => throw .errSignature

/-- The headers a node knows, side branches included, and the canonical one at each height. -/
structure ChainStore where
  genesis : Header
  genesis_number : genesis.number = 0
  headers : List Header
  canonical : ℕ → Option Header

namespace ChainStore

variable (k : Crypto) (chain : ChainStore)

def getHeader (hash : Hash) (number : ℕ) : Option Header :=
  (chain.genesis :: chain.headers).find? fun h => k.hash h = hash ∧ h.number = number

def getHeaderByHash (hash : Hash) : Option Header :=
  (chain.genesis :: chain.headers).find? fun h => k.hash h = hash

def getHeaderByNumber (number : ℕ) : Option Header :=
  if number = 0 then some chain.genesis else chain.canonical number

end ChainStore

/-! ## Snapshots -/

def checkpointInterval : ℕ := 1024
def lorentzEpochLength : ℕ := 500
def maxwellEpochLength : ℕ := 1000
def defaultBlockInterval : ℕ := 3000
def lorentzBlockInterval : ℕ := 1500
def maxwellBlockInterval : ℕ := 750
def fermiBlockInterval : ℕ := 450
def defaultTurnLength : ℕ := 1
def snake8TurnLength : ℕ := 50
def validatorFrequencyPrecision : ℕ := 1000

structure ValidatorInfo where
  /-- Offset by one; zero when no index was assigned. -/
  index : ℕ
  voteAddress : BLSPublicKey
deriving DecidableEq, Inhabited

structure Snapshot where
  number : ℕ
  hash : Hash
  epochLength : ℕ
  blockInterval : ℕ
  turnLength : ℕ
  validators : Std.ExtTreeMap Address ValidatorInfo
  recents : Std.ExtTreeMap ℕ Address
  recentForkHashes : Std.ExtTreeMap ℕ Bytes
  attestation : Option VoteData
  isSnake8Fork : Bool
  frequencyRLP : Bytes
deriving DecidableEq

/-- Addition of two `uint64` values. -/
def add64 (a b : ℕ) : ℕ := if a + b < 2 ^ 64 then a + b else a + b - 2 ^ 64

/-- Subtraction of two `uint64` values. -/
def sub64 (a b : ℕ) : ℕ := if b ≤ a then a - b else a + 2 ^ 64 - b

namespace Snapshot

/-- Assign to the validators, in ascending order, the indices from one on. -/
def assignIndices (validators : Std.ExtTreeMap Address ValidatorInfo) :
    Std.ExtTreeMap Address ValidatorInfo :=
  validators.keys.zipIdx.foldl (fun vals entry =>
    vals.modify entry.1 fun info => { info with index := entry.2 + 1 }) validators

/-- The validator map of a parsed list; `voteAddrs` is empty when the list carries no keys. -/
def validatorMap (validators : List Address) (voteAddrs : List BLSPublicKey) :
    Std.ExtTreeMap Address ValidatorInfo :=
  validators.zipIdx.foldl (fun vals entry =>
    vals.insert entry.1 ⟨0, voteAddrs.getD entry.2 (FixedBytes.zero 48)⟩) ∅

def newSnapshot (c : ChainConfig) (number : ℕ) (hash : Hash) (validators : List Address)
    (voteAddrs : List BLSPublicKey) (isSnake8Fork : Bool) : Snapshot where
  number := number
  hash := hash
  epochLength := c.epoch
  blockInterval := defaultBlockInterval
  turnLength := defaultTurnLength
  -- the Luban fork from the genesis block
  validators :=
    if voteAddrs.length = validators.length then
      assignIndices (validatorMap validators voteAddrs)
    else validatorMap validators []
  recents := ∅
  recentForkHashes := ∅
  attestation := none
  isSnake8Fork := isSnake8Fork
  frequencyRLP := []

variable (s : Snapshot)

/-- A stored snapshot as `loadSnapshot` hands it out: fields that old snapshots lack get their
defaults, and the fork flag of the call is imposed on it. -/
def loaded (c : ChainConfig) (isSnake8Fork : Bool) : Snapshot :=
  { s with
    epochLength := if s.epochLength = 0 then c.epoch else s.epochLength
    blockInterval := if s.blockInterval = 0 then defaultBlockInterval else s.blockInterval
    turnLength :=
      if isSnake8Fork then snake8TurnLength
      else if s.turnLength = 0 then defaultTurnLength else s.turnLength
    isSnake8Fork := isSnake8Fork }

/-- `copy` leaves the frequency data behind. -/
def copy : Snapshot := { s with frequencyRLP := [] }

def validatorList : List Address := s.validators.keys

/-! ## Recency windows -/

def versionHistoryCheckLen : ℕ := s.validators.size * s.turnLength

def minerHistoryCheckLen : ℕ := sub64 ((s.validators.size / 2 + 1) * s.turnLength) 1

/-- The blocks in the window that `validator` signed. The zero address marks the entry of a
validator-set switch. -/
def recentBlocks (validator : Address) : List ℕ :=
  let leftHistoryBound :=
    if s.minerHistoryCheckLen < s.number then s.number - s.minerHistoryCheckLen else 0
  (s.recents.toList.filter fun entry =>
    leftHistoryBound < entry.1 ∧ entry.2 ≠ FixedBytes.zero 20 ∧ entry.2 = validator).map Prod.fst

/-- `SignRecently`; the counter of `countRecents` is a byte. -/
def signRecently (validator : Address) : Bool :=
  let blocks := s.recentBlocks validator
  !blocks.isEmpty && decide (s.turnLength ≤ blocks.length % 256)

def getFinalizedNumber : ℕ :=
  match s.attestation with
  | some data => data.sourceNumber.toNat
  | none => 0

end Snapshot

/-! ## In-turn selection -/

/-- A candidate of the frequency data. -/
structure CandidateEntry where
  address : Address
  frequency : ℕ
deriving DecidableEq

namespace CandidateEntry

def encode (entry : CandidateEntry) : Bytes :=
  Rlp.encodeList (Rlp.encodeBytes entry.address.bytes ++ Rlp.encodeBigInt entry.frequency)

def decode : Bool → Bytes → Except Rlp.Error (CandidateEntry × Bytes) :=
  Rlp.decodeList fun bs => do
    let (address, bs) ← Rlp.field (Rlp.decodeByteArray 20 true bs)
    let (frequency, bs) ← Rlp.field (Rlp.decodeBigInt true bs)
    return (⟨address, frequency⟩, bs)

/-- The first candidate whose cumulative frequency exceeds the target; `last` is the one seen
before, which is returned when the frequencies do not add up to the target. -/
def pick (target : ℕ) : ℕ → Address → List CandidateEntry → Address
  | _, last, [] => last
  | cumulative, _, entry :: rest =>
    if target < cumulative + entry.frequency then entry.address
    else pick target (cumulative + entry.frequency) entry.address rest

end CandidateEntry

namespace Snapshot

variable (k : Crypto) (s : Snapshot)

/-- An empty validator set or a zero turn length is a division by zero in the code. -/
def selectValidatorRoundRobin : Except Err Address :=
  if s.turnLength = 0 then throw .panicked
  else
    match s.validatorList[add64 s.number 1 / s.turnLength % s.validatorList.length]? with
    | some validator => pure validator
    | none => throw .panicked

def selectValidatorFromFrequencyRLP (freqRLP : Bytes) : Except Err Address :=
  match Rlp.decodeExact (Rlp.decodeSlice CandidateEntry.decode) freqRLP with
  | .error _ => s.selectValidatorRoundRobin
  | .ok candidates =>
    match candidates.insertionSort fun a b => (compare a.address b.address).isLE = true with
    | [] => s.selectValidatorRoundRobin
    | first :: rest =>
      let target := beNat (k.sha256 (leBytes 8 (s.number + 1))).bytes % validatorFrequencyPrecision
      pure (CandidateEntry.pick target 0 first.address (first :: rest))

def inturnValidator : Except Err Address :=
  if s.number = 0 ∨ !s.isSnake8Fork then s.selectValidatorRoundRobin
  else if s.frequencyRLP = [] then s.selectValidatorRoundRobin
  else s.selectValidatorFromFrequencyRLP k s.frequencyRLP

end Snapshot

/-! ## Ancestors -/

/-- `sort.Search`: binary search for the smallest index in `[0, n)` at which `f` holds. -/
def sortSearch (f : ℕ → Bool) (n : ℕ) : ℕ := go n 0 n
where
  go : ℕ → ℕ → ℕ → ℕ
    | 0, i, _ => i
    | fuel + 1, i, j =>
      if i < j then
        let h := (i + j) / 2
        if f h then go fuel i h else go fuel (h + 1) j
      else i

/-- One step back: from the candidates where they hold the parent, else from the store. -/
def findParent (k : Crypto) (chain : ChainStore) (candidateParents : List Header)
    (header : Header) : Option Header :=
  let parentHeight := sub64 header.number 1
  let index := sortSearch (fun i =>
    match candidateParents[i]? with
    | some candidate => decide (parentHeight ≤ candidate.number)
    | none => true) candidateParents.length
  match candidateParents[index]? with
  | some candidate =>
    if candidate.number = parentHeight ∧ k.hash candidate = header.parentHash then some candidate
    else chain.getHeader k header.parentHash parentHeight
  | none => chain.getHeader k header.parentHash parentHeight

/-- `FindAncientHeader`: `ite` steps back. -/
def findAncientHeader (k : Crypto) (chain : ChainStore) (candidateParents : List Header) :
    ℕ → Header → Option Header
  | 0, header => some header
  | ite + 1, header => do
    let parent ← findParent k chain candidateParents header
    findAncientHeader k chain candidateParents ite parent

/-! ## Applying headers -/

namespace Snapshot

variable (k : Crypto) (c : ChainConfig) (s : Snapshot)

variable (header : Header) (chain : ChainStore) (parents : List Header) (validator : Address)

/-- Before Fermi only an attestation for the direct parent counts. When the attestation does
not finalize its source, the finalized block stays and only the justified one moves. -/
def updateAttestation : Snapshot :=
  if !c.isLuban header.number then s
  else
    match getVoteAttestationFromHeader header c s.epochLength with
    | .error _ => s
    | .ok none => s
    | .ok (some attestation) =>
      let data := attestation.data
      if !c.isFermi header.number header.time ∧
          (data.targetHash ≠ header.parentHash ∨
            (data.targetNumber + 1).toNat ≠ header.number) then s
      else
        match s.attestation with
        | some previous =>
          if data.sourceNumber + 1 ≠ data.targetNumber then
            { s with
              attestation := some { previous with
                targetNumber := data.targetNumber, targetHash := data.targetHash } }
          else { s with attestation := some data }
        | none => { s with attestation := some data }

/-- Drop the entries that leave the two windows at `number`. -/
def expire (number : ℕ) : Snapshot :=
  let minerLimit := add64 s.minerHistoryCheckLen 1
  let versionLimit := s.versionHistoryCheckLen
  { s with
    recents := if minerLimit ≤ number then s.recents.erase (number - minerLimit) else s.recents
    recentForkHashes :=
      if versionLimit ≤ number then s.recentForkHashes.erase (number - versionLimit)
      else s.recentForkHashes }

/-- Whether `apply` refuses the validator as a recent signer. After Snake8 and before Bohr the
check is left to `verifySeal`. -/
def refusesRecent : Bool :=
  if c.isBohr header.number header.time then s.signRecently validator
  else !s.isSnake8Fork && s.recents.toList.any fun entry => entry.2 = validator

/-- Record the signer; after Maxwell forget what is finalized. -/
def recordSigner : Snapshot :=
  let recents := s.recents.insert header.number validator
  { s with
    recents :=
      if c.isMaxwell header.number header.time then
        recents.filter fun blockNumber _ => decide (s.getFinalizedNumber < blockNumber)
      else recents }

def updateBlockInterval : Snapshot :=
  if c.isFermi header.number header.time then { s with blockInterval := fermiBlockInterval }
  else if c.isMaxwell header.number header.time then
    { s with blockInterval := maxwellBlockInterval }
  else if c.isLorentz header.number header.time then
    { s with blockInterval := lorentzBlockInterval }
  else s

/-- The epoch length grows on the last block before a multiple of the new length. -/
def updateEpochLength : Snapshot :=
  let nextBlockNumber := header.number + 1
  let s :=
    if s.epochLength = c.epoch ∧ c.isLorentz header.number header.time ∧
        nextBlockNumber % lorentzEpochLength = 0 then
      { s with epochLength := lorentzEpochLength }
    else s
  if s.epochLength = lorentzEpochLength ∧ c.isMaxwell header.number header.time ∧
      nextBlockNumber % maxwellEpochLength = 0 then
    { s with epochLength := maxwellEpochLength }
  else s

/-- Recent signers after a validator-set switch: Bohr clears them and leaves a marker entry,
earlier forks drop the blocks that a smaller window no longer covers. -/
def switchRecents (epochKey newSize : ℕ) :
    Std.ExtTreeMap ℕ Address :=
  if c.isBohr header.number header.time then
    (∅ : Std.ExtTreeMap ℕ Address).insert epochKey (FixedBytes.zero 20)
  else
    let oldLimit := s.validators.size / 2 + 1
    let newLimit := newSize / 2 + 1
    (List.range (oldLimit - newLimit)).foldl
      (fun recents i => recents.erase (sub64 (sub64 header.number newLimit) i)) s.recents

/-- The validator map that a checkpoint header announces. Vote keys are read for every validator
after Luban, also from a list without keys. -/
def announcedValidators (newValArr : List Address)
    (voteAddrs : List BLSPublicKey) : Except Err (Std.ExtTreeMap Address ValidatorInfo) :=
  if !c.isLuban header.number then pure (validatorMap newValArr [])
  else if voteAddrs.length < newValArr.length then throw .panicked
  else pure (assignIndices (validatorMap newValArr voteAddrs))

/-- Put a validator set and a turn length in force, and drop the entries that smaller windows no
longer cover. -/
def installValidators (epochKey : ℕ) (turnLength : ℕ)
    (newVals : Std.ExtTreeMap Address ValidatorInfo) : Snapshot :=
  let newVersionsLen := newVals.size * turnLength
  { s with
    turnLength := turnLength
    recents := s.switchRecents c header epochKey newVals.size
    validators := newVals
    recentForkHashes := (List.range (s.versionHistoryCheckLen - newVersionsLen)).foldl
      (fun hashes i => hashes.erase (sub64 header.number (newVersionsLen + i)))
      s.recentForkHashes }

/-- Switch to the validator set and turn length carried by the checkpoint header. -/
def switchTo (epochLength epochKey : ℕ)
    (checkpointHeader : Header) : Except Err Snapshot := do
  let turnLength ← parseTurnLength checkpointHeader c epochLength
  let (newValArr, voteAddrs) ← parseValidators checkpointHeader c epochLength
  let newVals ← announcedValidators c header newValArr voteAddrs
  return s.installValidators c header epochKey ((turnLength.map UInt8.toNat).getD s.turnLength)
    newVals

/-- The checkpoint header is the epoch block, `minerHistoryCheckLen` blocks back. -/
def switchValidators (s : Snapshot)
    (header : Header) (epochLength epochKey : ℕ) : Except Err Snapshot :=
  match findAncientHeader k chain parents s.minerHistoryCheckLen header with
  | none => throw .errUnknownAncestor
  | some checkpointHeader => s.switchTo c header epochLength epochKey checkpointHeader

/-- The validator set changes `minerHistoryCheckLen` blocks into an epoch. After Bohr a marker
entry prevents a second switch in the same epoch. -/
def changeValidators (s : Snapshot)
    (header : Header) (epochLength : ℕ) : Except Err Snapshot :=
  let number := header.number
  let epochKey := sub64 (2 ^ 64 - 1) (number / epochLength)
  if 0 < number ∧ number % epochLength = s.minerHistoryCheckLen then
    if c.isBohr number header.time ∧ epochKey ∈ s.recents then pure s
    else switchValidators k c chain parents s header epochLength epochKey
  else pure s

/-- The fork hash that the vanity announces. -/
def recordForkHash : Snapshot :=
  { s with
    recentForkHashes := s.recentForkHashes.insert header.number
      (slice header.extra (extraVanity - nextForkHashSize) extraVanity) }

/-- What a header leaves in the snapshot before the validator set is looked at. -/
def recordBlock : Snapshot :=
  (((s.updateAttestation c header).recordSigner c header validator).recordForkHash
    header).updateBlockInterval c header

/-- One iteration of the loop of `apply`. -/
def applyHeader (s : Snapshot) (header : Header) :
    Except Err Snapshot := do
  let s := s.expire header.number
  let validator ← ecrecover k header
  if validator ∉ s.validators then throw (.errUnauthorizedValidator validator)
  if s.refusesRecent c header validator then throw .errRecentlySigned
  let s := s.recordBlock c header validator
  let epochLength := s.epochLength
  changeValidators k c chain parents (s.updateEpochLength c header) header epochLength

/-- Each header is the child of the one before it. -/
def checkLinks : List Header → Except Err Unit
  | header :: next :: rest => do
    if next.number ≠ header.number + 1 then throw .errOutOfRangeChain
    if next.parentHash ≠ k.hash header then throw .errBlockHashInconsistent
    checkLinks (next :: rest)
  | _ => pure ()

/-- `apply`: a snapshot for the last of `headers`. `parents` are the candidates in which
checkpoint headers are looked up before the store. -/
def apply (s : Snapshot) (headers : List Header)
    (isSnake8Fork : Bool) : Except Err Snapshot := do
  let s := { s with isSnake8Fork := isSnake8Fork }
  match headers with
  | [] => return s
  | first :: rest =>
    checkLinks k headers
    if first.number ≠ s.number + 1 then throw .errOutOfRangeChain
    if first.parentHash ≠ s.hash then throw .errBlockHashInconsistent
    let snap ← headers.foldlM (applyHeader k c chain parents) s.copy
    return { snap with
      number := s.number + headers.length
      hash := k.hash ((first :: rest).getLast (List.cons_ne_nil first rest)) }

end Snapshot

end ChilizChain
