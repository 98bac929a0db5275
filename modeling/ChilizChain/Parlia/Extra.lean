import ChilizChain.Parlia.Header

/-! The extra-data field of a header: what `Prepare` and `Seal` write into it and how the
decoders find the sections again. After the Snake8 fork the field reads

  vanity | validators (epoch blocks) | turn length (Bohr epoch blocks) |
  `VFQ` | parent timestamp | frequency data | vote attestation | seal

and each decoder locates its own section independently of the others. -/

namespace ChilizChain

open Bytes

/-! ## Layout constants -/

def extraVanity : ℕ := 32
def extraSeal : ℕ := 65
def nextForkHashSize : ℕ := 4
def turnLengthSize : ℕ := 1
def validatorBytesLengthBeforeLuban : ℕ := 20
def validatorBytesLength : ℕ := 20 + 48
def validatorNumberSize : ℕ := 1

/-- `"VFQ"`, the marker of the frequency section. -/
def validatorFrequencyDataPrefix : Bytes := [0x56, 0x46, 0x51]

/-! ## Vote attestations -/

structure VoteData where
  sourceNumber : UInt64
  sourceHash : Hash
  targetNumber : UInt64
  targetHash : Hash
deriving DecidableEq

/-- Two votes of one validator that break the voting rules. -/
def Slashable (v w : VoteData) : Prop :=
  (v.targetNumber = w.targetNumber ∧ v ≠ w) ∨
    (v.sourceNumber < w.sourceNumber ∧ w.sourceNumber < w.targetNumber ∧
      w.targetNumber < v.targetNumber)

structure VoteAttestation where
  voteAddressSet : UInt64
  aggSignature : BLSSignature
  data : VoteData
  extra : Bytes
deriving DecidableEq

def VoteData.encode (d : VoteData) : Bytes :=
  Rlp.encodeList (Rlp.encodeUint64 d.sourceNumber ++ (Rlp.encodeBytes d.sourceHash.bytes ++
    (Rlp.encodeUint64 d.targetNumber ++ Rlp.encodeBytes d.targetHash.bytes)))

def VoteData.decode : Bool → Bytes → Except Rlp.Error (VoteData × Bytes) :=
  Rlp.decodeList fun bs => do
    let (sourceNumber, bs) ← Rlp.field (Rlp.decodeUint64 true bs)
    let (sourceHash, bs) ← Rlp.field (Rlp.decodeByteArray 32 true bs)
    let (targetNumber, bs) ← Rlp.field (Rlp.decodeUint64 true bs)
    let (targetHash, bs) ← Rlp.field (Rlp.decodeByteArray 32 true bs)
    return (⟨sourceNumber, sourceHash, targetNumber, targetHash⟩, bs)

def VoteAttestation.encode (a : VoteAttestation) : Bytes :=
  Rlp.encodeList (Rlp.encodeUint64 a.voteAddressSet ++ (Rlp.encodeBytes a.aggSignature.bytes ++
    (a.data.encode ++ Rlp.encodeBytes a.extra)))

def VoteAttestation.decode : Bool → Bytes → Except Rlp.Error (VoteAttestation × Bytes) :=
  Rlp.decodeList fun bs => do
    let (voteAddressSet, bs) ← Rlp.field (Rlp.decodeUint64 true bs)
    let (aggSignature, bs) ← Rlp.field (Rlp.decodeByteArray 96 true bs)
    let (data, bs) ← Rlp.field (VoteData.decode true bs)
    let (extra, bs) ← Rlp.field (Rlp.decodeBytes true bs)
    return (⟨voteAddressSet, aggSignature, data, extra⟩, bs)

/-! ## Decoders -/

/-- The first position in `extra` where the marker starts and ends before `stop`, counted
from byte 0; `stop` when there is none. -/
def findFrequencyPrefix (extra : Bytes) (stop : ℕ) : ℕ :=
  ((List.range (stop - 2)).find? fun i =>
    slice extra i (i + 3) == validatorFrequencyDataPrefix).getD stop

variable (header : Header)

/-- The validators section, empty where the code returns `nil`. -/
def getValidatorBytesFromHeader (c : ChainConfig) (epochLength : ℕ) : Bytes :=
  if header.extra.length ≤ extraVanity + extraSeal then []
  else if !c.isLuban header.number then
    let start := extraVanity
    let stop := header.extra.length - extraSeal
    if validatorFrequencyDataPrefix.isPrefixOf (slice header.extra start stop) then []
    else
      let stop := findFrequencyPrefix header.extra stop
      if stop ≤ start then []
      else if header.number % epochLength = 0 ∧
          (stop - start) % validatorBytesLengthBeforeLuban ≠ 0 then []
      else slice header.extra start stop
  else if header.number % epochLength ≠ 0 then []
  else
    let num := (header.extra.getD extraVanity 0).toNat
    let start := extraVanity + validatorNumberSize
    let stop := start + num * validatorBytesLength
    let extraMinLen := stop + extraSeal +
      if c.isBohr header.number header.time then turnLengthSize else 0
    if num = 0 ∨ header.extra.length < extraMinLen then []
    else slice header.extra start stop

/-- The attestation record at the front of `bs`; bytes after it are ignored. -/
def decodeVoteAttestation (number : ℕ) (bs : Bytes) : Except Err (Option VoteAttestation) :=
  match Rlp.decode VoteAttestation.decode bs with
  | .ok attestation => .ok (some attestation)
  | .error reason => .error (.errDecodeAttestation number reason)

def getVoteAttestationFromHeader (c : ChainConfig) (epochLength : ℕ) :
    Except Err (Option VoteAttestation) :=
  if header.extra.length ≤ extraVanity + extraSeal then .ok none
  else if !c.isLuban header.number then .ok none
  else
    let stop := header.extra.length - extraSeal
    let start :=
      if header.number % epochLength ≠ 0 then extraVanity
      else extraVanity + validatorNumberSize +
        (header.extra.getD extraVanity 0).toNat * validatorBytesLength +
        if c.isBohr header.number header.time then turnLengthSize else 0
    -- only an epoch block can have a start past the end; elsewhere the length check above
    -- leaves at least one byte
    if stop ≤ start then .ok none
    else decodeVoteAttestation header.number (slice header.extra start stop)

/-- Where the frequency section starts; `none` for an extra-data field that is too short. -/
def snake8FreqDataOffset (c : ChainConfig) : Option ℕ :=
  if header.extra.length ≤ extraVanity + extraSeal then none
  else if header.number % c.epoch ≠ 0 then some extraVanity
  else
    let stop := header.extra.length - extraSeal
    let start :=
      if !c.isLuban header.number then
        extraVanity + (getValidatorBytesFromHeader header c c.epoch).length
      else
        extraVanity + validatorNumberSize +
          (header.extra.getD extraVanity 0).toNat * validatorBytesLength
    let start := start + if c.isBohr header.number header.time then turnLengthSize else 0
    if stop ≤ start then none else some start

def extractSnake8ParentTimestamp (c : ChainConfig) : Option ℕ := do
  let start ← snake8FreqDataOffset header c
  let prefixEnd := start + validatorFrequencyDataPrefix.length
  if header.extra.length - extraSeal < prefixEnd + 8 then none
  else if slice header.extra start prefixEnd ≠ validatorFrequencyDataPrefix then none
  else some (leNat (slice header.extra prefixEnd (prefixEnd + 8)))

def parseValidatorFrequencies (c : ChainConfig) : Except Err Bytes := do
  if !c.isSnake8 header.time then throw (.errNotSnake8Block header.number)
  let some start := snake8FreqDataOffset header c
    | throw (.errMalformedSnake8Extra header.number)
  let prefixEnd := start + validatorFrequencyDataPrefix.length
  let dataStart := prefixEnd + 8
  let stop := header.extra.length - extraSeal
  if stop < dataStart then throw (.errNoFrequencies header.number)
  if slice header.extra start prefixEnd ≠ validatorFrequencyDataPrefix then
    throw (.errMissingFrequencyPrefix header.number)
  return slice header.extra dataStart stop

/-- Validator addresses and, after Luban, their vote keys. -/
def parseValidators (c : ChainConfig) (epochLength : ℕ) :
    Except Err (List Address × List BLSPublicKey) :=
  let validatorsBytes := getValidatorBytesFromHeader header c epochLength
  if validatorsBytes.length = 0 then .error .errInvalidValidatorsBytes
  else if !c.isLuban header.number then
    let size := validatorBytesLengthBeforeLuban
    .ok ((List.range (validatorsBytes.length / size)).map fun i =>
      FixedBytes.ofBytes 20 (slice validatorsBytes (i * size) ((i + 1) * size)), [])
  else
    let size := validatorBytesLength
    let n := validatorsBytes.length / size
    .ok ((List.range n).map fun i =>
        FixedBytes.ofBytes 20 (slice validatorsBytes (i * size) (i * size + 20)),
      (List.range n).map fun i =>
        FixedBytes.ofBytes 48 (slice validatorsBytes (i * size + 20) ((i + 1) * size)))

/-- The turn length carried by an epoch block after Bohr. -/
def parseTurnLength (c : ChainConfig) (epochLength : ℕ) :
    Except Err (Option UInt8) :=
  if header.number % epochLength ≠ 0 ∨ !c.isBohr header.number header.time then .ok none
  else if header.extra.length ≤ extraVanity + extraSeal then .error .errInvalidSpanValidators
  else
    let num := (header.extra.getD extraVanity 0).toNat
    let pos := extraVanity + validatorNumberSize + num * validatorBytesLength
    match header.extra[pos]? with
    | none => .error .errInvalidTurnLength
    | some turnLength => .ok (some turnLength)

/-! ## Encoders -/

/-- What `Prepare` has looked up by the time it assembles the extra-data field: the epoch
length of the parent's snapshot, the validators and vote keys the contract returned, the turn
length, the parent's timestamp and the frequency data of the parent's snapshot. -/
structure PrepareData where
  epochLength : ℕ
  newValidators : List Address
  voteAddressMap : Address → BLSPublicKey
  turnLength : UInt8
  parentTime : ℕ
  frequencyRLP : Bytes
deriving Inhabited

variable (c : ChainConfig) (d : PrepareData)

/-- The vote key `prepareValidators` writes for a validator. On the Luban block itself no
validator has registered a key yet. -/
def PrepareData.voteKey (c : ChainConfig) (number : ℕ) (validator : Address) :
    BLSPublicKey :=
  if c.isOnLuban number then FixedBytes.zero 48 else d.voteAddressMap validator

/-- Ascending order by `bytes.Compare`, as `validatorsAscending` sorts. -/
def sortValidators (validators : List Address) : List Address :=
  validators.insertionSort fun a b => (compare a b).isLE = true

variable (header : Header)

def prepareValidators : Header :=
  if header.number % d.epochLength ≠ 0 then header
  else
    let newValidators := sortValidators d.newValidators
    if !c.isLuban header.number then
      { header with extra := header.extra ++ newValidators.flatMap (·.bytes) }
    else
      { header with
        extra := header.extra ++ (UInt8.ofNat newValidators.length ::
          newValidators.flatMap fun v => v.bytes ++ (d.voteKey c header.number v).bytes) }

def prepareTurnLength : Header :=
  if header.number % d.epochLength ≠ 0 ∨ !c.isBohr header.number header.time then header
  else { header with extra := header.extra ++ [d.turnLength] }

def prepareFrequencies : Header :=
  if c.isSnake8 d.parentTime then
    { header with
      extra := header.extra ++
        (validatorFrequencyDataPrefix ++ (leBytes 8 d.parentTime ++ d.frequencyRLP)) }
  else header

/-- The part of `Prepare` that assembles the extra-data field after the vanity, up to and
including the space for the seal. -/
def prepareExtra (vanity : FixedBytes 32)
    (header : Header) : Header :=
  let header := { header with extra := vanity.bytes }
  let header := prepareFrequencies c d (prepareTurnLength c d (prepareValidators c d header))
  { header with extra := header.extra ++ List.replicate extraSeal 0 }

/-- The last step of `assembleVoteAttestation`: insert the attestation before the seal. -/
def insertVoteAttestation (attestation : VoteAttestation) (header : Header) : Header :=
  let extraSealStart := header.extra.length - extraSeal
  { header with
    extra := header.extra.take extraSealStart ++
      (attestation.encode ++ header.extra.drop extraSealStart) }

/-- `Seal` copies the signature over the seal space. -/
def writeSeal (signature : FixedBytes 65) (header : Header) : Header :=
  { header with
    extra := header.extra.take (header.extra.length - extraSeal) ++ signature.bytes }

/-- The header a producer publishes. -/
def produceHeader (vanity : FixedBytes 32)
    (attestation : Option VoteAttestation) (signature : FixedBytes 65) (header : Header) :
    Header :=
  let header := prepareExtra c d vanity header
  let header :=
    match attestation with
    | some a => insertVoteAttestation a header
    | none => header
  writeSeal signature header

end ChilizChain
