import ChilizChain.Parlia.Extra

/-! # Extra-data round trips

What the decoders of `Extra` read back from a header assembled by `Prepare`,
`assembleVoteAttestation` and `Seal`. Every result is derived from `produceHeader_extra`,
which lists the sections of a published header in order. -/

namespace ChilizChain

open Bytes List FixedBytes Rlp Option

/-! ## The sections of a published header -/

section Layout

variable (c : ChainConfig) (d : PrepareData)

def validatorSection (number : ℕ) : Bytes :=
  if number % d.epochLength ≠ 0 then []
  else if !c.isLuban number then (sortValidators d.newValidators).flatMap (·.bytes)
  else UInt8.ofNat (sortValidators d.newValidators).length ::
    (sortValidators d.newValidators).flatMap fun v => v.bytes ++ (d.voteKey c number v).bytes

def turnLengthSection (number time : ℕ) : Bytes :=
  if number % d.epochLength ≠ 0 ∨ !c.isBohr number time then [] else [d.turnLength]

def frequencySection : Bytes :=
  if c.isSnake8 d.parentTime then
    validatorFrequencyDataPrefix ++ (leBytes 8 d.parentTime ++ d.frequencyRLP)
  else []

def attestationSection : Option VoteAttestation → Bytes
  | none => []
  | some a => a.encode

end Layout

variable {c : ChainConfig} {d : PrepareData} {vanity : FixedBytes 32}
  {att : Option VoteAttestation} {sig : FixedBytes 65} {header hd : Header}

theorem prepareValidators_eq : prepareValidators c d hd =
    { hd with extra := hd.extra ++ validatorSection c d hd.number } := by
  simp only [prepareValidators, validatorSection]
  split_ifs <;> simp

theorem prepareTurnLength_eq : prepareTurnLength c d hd =
    { hd with extra := hd.extra ++ turnLengthSection c d hd.number hd.time } := by
  simp only [prepareTurnLength, turnLengthSection]
  split_ifs <;> simp

theorem prepareFrequencies_eq : prepareFrequencies c d hd =
    { hd with extra := hd.extra ++ frequencySection c d } := by
  simp only [prepareFrequencies, frequencySection]
  split_ifs <;> simp

theorem insertVoteAttestation_eq {a : VoteAttestation} {front back : Bytes}
    (hback : back.length = extraSeal) :
    insertVoteAttestation a { hd with extra := front ++ back } =
      { hd with extra := front ++ (a.encode ++ back) } := by
  have hlen : (front ++ back).length - extraSeal = front.length := by simp [hback]
  simp only [insertVoteAttestation, hlen, take_left, drop_left]

theorem writeSeal_eq {front back : Bytes} (hback : back.length = extraSeal) :
    writeSeal sig { hd with extra := front ++ back } =
      { hd with extra := front ++ sig.bytes } := by
  have hlen : (front ++ back).length - extraSeal = front.length := by simp [hback]
  simp only [writeSeal, hlen, take_left]

/-- **The layout.** A published header carries its sections in this order. -/
theorem produceHeader_eq : produceHeader c d vanity att sig hd =
    { hd with
      extra := vanity.bytes ++ (validatorSection c d hd.number ++
        (turnLengthSection c d hd.number hd.time ++
          (frequencySection c d ++ (attestationSection att ++ sig.bytes)))) } := by
  have hspace : (List.replicate extraSeal (0 : UInt8)).length = extraSeal :=
    length_replicate ..
  simp only [produceHeader, prepareExtra, prepareValidators_eq, prepareTurnLength_eq,
    prepareFrequencies_eq]
  cases att with
  | none =>
    rw [writeSeal_eq hspace]
    simp only [attestationSection, append_assoc, nil_append]
  | some a =>
    simp only [insertVoteAttestation_eq hspace, attestationSection]
    rw [← append_assoc _ a.encode, writeSeal_eq hspace]
    simp only [append_assoc]

theorem produceHeader_number : (produceHeader c d vanity att sig hd).number = hd.number := by
  rw [produceHeader_eq]

theorem produceHeader_time : (produceHeader c d vanity att sig hd).time = hd.time := by
  rw [produceHeader_eq]

/-! ## Attestation records -/

private theorem VoteData.encode_length_le (v : VoteData) : v.encode.length ≤ 134 := by
  have h1 := encodeUint64_length_le v.sourceNumber
  have h2 := encodeUint64_length_le v.targetNumber
  have h3 : (encodeBytes v.sourceHash.bytes).length ≤ v.sourceHash.bytes.length + 9 :=
    encodeBytes_length_le (by simp)
  have h4 : (encodeBytes v.targetHash.bytes).length ≤ v.targetHash.bytes.length + 9 :=
    encodeBytes_length_le (by simp)
  simp only [length_bytes] at h3 h4
  refine le_trans (encodeList_length_le ?_) ?_ <;> simp only [length_append] <;> omega

theorem VoteData.decode_encode {inList : Bool} (v : VoteData) (rest : Bytes) :
    VoteData.decode inList (v.encode ++ rest) = .ok (v, rest) := by
  have hlen := v.encode_length_le
  refine decodeList_encodeList rest ?_ ?_
  · simp only [VoteData.encode, encodeList, length_append] at hlen ⊢
    omega
  · have hlast : decodeByteArray 32 true (encodeBytes v.targetHash.bytes ++ []) =
        .ok (v.targetHash, []) :=
      decodeByteArray_encodeBytes v.targetHash [] (by decide) (by decide)
    rw [append_nil] at hlast
    simp [decodeUint64_encodeUint64, decodeByteArray_encodeBytes, hlast]

/-- A slice of the host language is shorter than `2 ^ 63` bytes, which keeps every size of
the record below the largest one that can be encoded. -/
theorem VoteAttestation.decode_encode {inList : Bool} (a : VoteAttestation) (rest : Bytes)
    (hextra : a.extra.length < 2 ^ 63) :
    VoteAttestation.decode inList (a.encode ++ rest) = .ok (a, rest) := by
  refine decodeList_encodeList rest ?_ ?_
  · have h1 := encodeUint64_length_le a.voteAddressSet
    have h2 : (encodeBytes a.aggSignature.bytes).length ≤ a.aggSignature.bytes.length + 9 :=
      encodeBytes_length_le (by simp)
    have h3 := a.data.encode_length_le
    have h4 : (encodeBytes a.extra).length ≤ a.extra.length + 9 :=
      encodeBytes_length_le (by omega)
    simp only [length_bytes] at h2
    simp only [length_append]
    omega
  · have hlast : decodeBytes true (encodeBytes a.extra ++ []) = .ok (a.extra, []) :=
      decodeBytes_encodeBytes [] (by omega)
    rw [append_nil] at hlast
    simp [decodeUint64_encodeUint64, decodeByteArray_encodeBytes, VoteData.decode_encode, hlast]

theorem VoteAttestation.encode_ne_nil (a : VoteAttestation) : a.encode ≠ [] :=
  encodeList_ne_nil _

/-! ## Reading back after Luban

`front` is everything before the attestation section, `count` the number byte and `body` the
validator entries of an epoch block. -/

/-- Addresses in strictly ascending order. -/
def Ascending (validators : List Address) : Prop :=
  validators.Pairwise fun a b => compare a b = .lt

instance (validators : List Address) : Decidable (Ascending validators) :=
  inferInstanceAs (Decidable (List.Pairwise _ _))

theorem sortValidators_of_ascending {vs : List Address} (h : Ascending vs) :
    sortValidators vs = vs := by
  refine (List.Pairwise.imp ?_ h).insertionSort_eq
  intro a b hab
  simp [hab]

/-- The decoders read back every section that the encoders wrote. -/
structure ExtraReadsBack (c : ChainConfig) (d : PrepareData)
    (attestation : Option VoteAttestation) (h : Header) : Prop where
  validators : h.number % d.epochLength = 0 → parseValidators h c d.epochLength =
    .ok (d.newValidators, d.newValidators.map (d.voteKey c h.number))
  turnLength : parseTurnLength h c d.epochLength =
    .ok (if h.number % d.epochLength = 0 ∧ c.isBohr h.number h.time then some d.turnLength
      else none)
  parentTimestamp : c.isSnake8 d.parentTime →
    extractSnake8ParentTimestamp h c = some d.parentTime
  frequencies : c.isSnake8 d.parentTime → parseValidatorFrequencies h c = .ok d.frequencyRLP
  attestation : getVoteAttestationFromHeader h c d.epochLength = .ok attestation

section AfterLuban

variable {h : Header} {epoch : ℕ}

theorem getVoteAttestationFromHeader_eq {front middle sig : Bytes}
    (hextra : h.extra = front ++ (middle ++ sig)) (hsig : sig.length = extraSeal)
    (hluban : c.isLuban h.number = true) (hstart : front.length =
      if h.number % epoch ≠ 0 then extraVanity
      else extraVanity + validatorNumberSize +
        (h.extra.getD extraVanity 0).toNat * validatorBytesLength +
        if c.isBohr h.number h.time then turnLengthSize else 0) :
    getVoteAttestationFromHeader h c epoch =
      if middle = [] then .ok none else decodeVoteAttestation h.number middle := by
  have hlen : h.extra.length = front.length + middle.length + extraSeal := by
    simp [hextra, hsig, Nat.add_assoc]
  have hvanity : extraVanity ≤ front.length := by
    rw [hstart]
    split_ifs <;> omega
  have hslice : slice h.extra front.length (front.length + middle.length) = middle := by
    rw [hextra]
    exact slice_middle front middle sig rfl rfl
  simp only [getVoteAttestationFromHeader, hluban, ← hstart, hlen, Nat.add_sub_cancel, hslice]
  by_cases hmid : middle = []
  · simp [hmid]
  · have hpos : 0 < middle.length := length_pos_iff.mpr hmid
    rw [if_neg (by omega), if_neg (by simp), if_neg (by omega), if_neg hmid]

/-- An epoch block's entries: the number byte says how many there are. -/
structure EpochLayout (c : ChainConfig) (epochLength : ℕ) (h : Header) (count : UInt8)
    (body tail : Bytes) : Prop where
  extra : ∃ vanity : FixedBytes 32, h.extra = vanity.bytes ++ (count :: (body ++ tail))
  body_length : body.length = count.toNat * validatorBytesLength
  count_ne_zero : count.toNat ≠ 0
  tail_length : (if c.isBohr h.number h.time then turnLengthSize else 0) + extraSeal ≤ tail.length
  luban : c.isLuban h.number = true
  epoch : h.number % epochLength = 0

namespace EpochLayout

variable {count : UInt8} {body tail : Bytes} (l : EpochLayout c epoch h count body tail)

include l

theorem getD_count : h.extra.getD extraVanity 0 = count := by
  obtain ⟨vanity, hextra⟩ := l.extra
  simp [hextra, extraVanity]

theorem extra_length :
    h.extra.length = extraVanity + validatorNumberSize + body.length + tail.length := by
  obtain ⟨vanity, hextra⟩ := l.extra
  simp [hextra, extraVanity, validatorNumberSize]
  omega

theorem getValidatorBytes : getValidatorBytesFromHeader h c epoch = body := by
  obtain ⟨vanity, hextra⟩ := l.extra
  have hlen := l.extra_length
  have htail := l.tail_length
  have hpos : 0 < body.length := by
    rw [l.body_length]
    exact Nat.mul_pos (Nat.pos_of_ne_zero l.count_ne_zero) (by decide)
  have hslice : slice h.extra (extraVanity + validatorNumberSize)
      (extraVanity + validatorNumberSize + body.length) = body := by
    have hcons : h.extra = (vanity.bytes ++ [count]) ++ (body ++ tail) := by simp [hextra]
    rw [hcons]
    exact slice_middle _ body tail (by simp [extraVanity, validatorNumberSize])
      (by simp [extraVanity, validatorNumberSize])
  simp only [getValidatorBytesFromHeader, l.luban, l.epoch, l.getD_count, ← l.body_length, hslice]
  rw [if_neg (by omega), if_neg (by simp), if_neg (by simp),
    if_neg (by have := l.count_ne_zero; omega)]

theorem parseTurnLength_eq {turnLength : UInt8} (hbohr : c.isBohr h.number h.time = true)
    (hhead : tail.head? = some turnLength) : parseTurnLength h c epoch = .ok (some turnLength) := by
  obtain ⟨vanity, hextra⟩ := l.extra
  have hlen := l.extra_length
  have htail := l.tail_length
  have hget : h.extra[extraVanity + validatorNumberSize + body.length]? = some turnLength := by
    have hcons : h.extra = (vanity.bytes ++ (count :: body)) ++ tail := by simp [hextra]
    have hpos : (vanity.bytes ++ (count :: body)).length =
        extraVanity + validatorNumberSize + body.length := by
      simp [extraVanity, validatorNumberSize]
      omega
    rw [hcons, ← hpos, getElem?_append_right (Nat.le_refl _), Nat.sub_self,
      ← head?_eq_getElem?, hhead]
  simp only [parseTurnLength, l.epoch, hbohr, l.getD_count, ← l.body_length, hget]
  have hnumber : 0 < validatorNumberSize := by decide
  rw [if_neg (by simp), if_neg (by omega)]

end EpochLayout

private theorem entry_length (v : Address) (key : Address → BLSPublicKey) :
    (v.bytes ++ (key v).bytes).length = validatorBytesLength := by
  simp [validatorBytesLength]

private theorem entry_halves {vs : List Address} {key : Address → BLSPublicKey}
    {i : ℕ} (hi : i < vs.length) :
    let all := vs.flatMap fun v => v.bytes ++ (key v).bytes
    let size := validatorBytesLength
    slice all (i * size) (i * size + 20) = vs[i].bytes ∧
      slice all (i * size + 20) ((i + 1) * size) = (key vs[i]).bytes := by
  intro all size
  have hblock : slice all (i * size) ((i + 1) * size) =
      vs[i].bytes ++ (key vs[i]).bytes :=
    slice_flatMap (fun v => entry_length v key) vs i hi
  have hstop : (i + 1) * size = i * size + 68 := by
    simp [Nat.add_mul, size, validatorBytesLength]
  constructor
  · have hsub := slice_slice all (a := i * size) (b := (i + 1) * size) (c := 0) (d := 20)
      (by omega)
    rw [hblock, Nat.add_zero] at hsub
    rw [← hsub, slice_append_left _ _ (by simp), slice_all _ (by simp)]
  · have hsub := slice_slice all (a := i * size) (b := (i + 1) * size) (c := 20) (d := 68)
      (by omega)
    rw [hblock] at hsub
    rw [hstop, ← hsub, slice_append_right _ _ (by simp), length_bytes,
      slice_all _ (by simp)]

theorem parseValidators_eq {vs : List Address} {key : Address → BLSPublicKey}
    (hluban : c.isLuban h.number = true) (hne : vs ≠ [])
    (hbytes : getValidatorBytesFromHeader h c epoch =
      vs.flatMap fun v => v.bytes ++ (key v).bytes) :
    parseValidators h c epoch = .ok (vs, vs.map key) := by
  have hlen : (vs.flatMap fun v => v.bytes ++ (key v).bytes).length =
      vs.length * validatorBytesLength :=
    flatMap_length (fun v => entry_length v key) vs
  have hpos : 0 < vs.length := length_pos_iff.mpr hne
  have hcount : vs.length * validatorBytesLength / validatorBytesLength =
      vs.length := Nat.mul_div_cancel _ (by decide)
  simp only [parseValidators, hbytes, hluban, hlen, hcount, Bool.not_true]
  rw [if_neg (Nat.mul_ne_zero (by omega) (by decide)), if_neg (by simp)]
  congr 2
  · refine (map_range_eq_map fun i hi => ?_).trans (map_id _)
    rw [(entry_halves hi).1]
    exact ofBytes_bytes _
  · refine map_range_eq_map fun i hi => ?_
    rw [(entry_halves hi).2]
    exact ofBytes_bytes _

section Produced

variable (hluban : c.isLuban hd.number = true) (hasc : Ascending d.newValidators)
  (hne : d.newValidators ≠ []) (hmax : d.newValidators.length ≤ 255)

include hluban hasc hne hmax

theorem epochLayout_produceHeader (vanity : FixedBytes 32) (att : Option VoteAttestation)
    (sig : FixedBytes 65) (hepoch : hd.number % d.epochLength = 0) :
    EpochLayout c d.epochLength (produceHeader c d vanity att sig hd)
      (UInt8.ofNat d.newValidators.length)
      (d.newValidators.flatMap fun v => v.bytes ++ (d.voteKey c hd.number v).bytes)
      (turnLengthSection c d hd.number hd.time ++
        (frequencySection c d ++ (attestationSection att ++ sig.bytes))) := by
  have hcount : (UInt8.ofNat d.newValidators.length).toNat = d.newValidators.length := by
    simp [Nat.mod_eq_of_lt (show d.newValidators.length < 256 by omega)]
  have hpos : 0 < d.newValidators.length := length_pos_iff.mpr hne
  rw [produceHeader_eq]
  constructor
  · refine ⟨vanity, ?_⟩
    simp only [validatorSection, hluban, hepoch, sortValidators_of_ascending hasc]
    simp
  · rw [hcount]
    exact flatMap_length (fun v => entry_length v _) _
  · omega
  · simp only [turnLengthSection, hepoch, extraSeal]
    by_cases hbohr : c.isBohr hd.number hd.time = true
    · simp [hbohr, turnLengthSize]
      omega
    · simp [hbohr]
      omega
  · exact hluban
  · exact hepoch

theorem getVoteAttestation_produceHeader :
    getVoteAttestationFromHeader (produceHeader c d vanity att sig hd) c d.epochLength =
      if frequencySection c d ++ attestationSection att = [] then .ok none
      else decodeVoteAttestation hd.number
        (frequencySection c d ++ attestationSection att) := by
  have hextra : (produceHeader c d vanity att sig hd).extra =
      (vanity.bytes ++ (validatorSection c d hd.number ++
        turnLengthSection c d hd.number hd.time)) ++
      ((frequencySection c d ++ attestationSection att) ++ sig.bytes) := by
    simp [produceHeader_eq]
  rw [getVoteAttestationFromHeader_eq hextra sig.length_eq (by rw [produceHeader_number, hluban]),
    produceHeader_number]
  rw [produceHeader_number, produceHeader_time]
  by_cases hepoch : hd.number % d.epochLength = 0
  · have layout := epochLayout_produceHeader hluban hasc hne hmax vanity att sig hepoch
    rw [layout.getD_count, ← layout.body_length]
    simp only [validatorSection, turnLengthSection, hepoch, hluban,
      sortValidators_of_ascending hasc, length_append]
    by_cases hbohr : c.isBohr hd.number hd.time = true
    · simp [hbohr, extraVanity, validatorNumberSize, turnLengthSize]
      omega
    · simp [hbohr, extraVanity, validatorNumberSize]
      omega
  · simp [validatorSection, turnLengthSection, hepoch, extraVanity]

end Produced

/-- **Round trip after Luban, before Snake8.** The decoders return exactly the validators and
vote keys that were written, the turn length and the attestation; off-epoch blocks carry no
validator list. -/
theorem luban_extra_reads_back (hluban : c.isLuban header.number = true)
    (hsnake8 : c.isSnake8 d.parentTime = false) (hasc : Ascending d.newValidators)
    (hne : d.newValidators ≠ []) (hmax : d.newValidators.length ≤ 255)
    (hatt : ∀ a ∈ attestation, a.extra.length < 2 ^ 63) :
    ExtraReadsBack c d attestation (produceHeader c d vanity attestation signature header) ∧
      (header.number % d.epochLength ≠ 0 →
        parseValidators (produceHeader c d vanity attestation signature header) c d.epochLength =
          .error .errInvalidValidatorsBytes) := by
  have hfreq : frequencySection c d = [] := by simp [frequencySection, hsnake8]
  refine ⟨⟨?_, ?_, ?_, ?_, ?_⟩, ?_⟩
  · intro hepoch
    rw [produceHeader_number] at hepoch ⊢
    have layout := epochLayout_produceHeader hluban hasc hne hmax vanity attestation signature
      hepoch
    exact parseValidators_eq (by rw [produceHeader_number, hluban]) hne layout.getValidatorBytes
  · by_cases hwrite : header.number % d.epochLength = 0 ∧ c.isBohr header.number header.time
    · have layout := epochLayout_produceHeader hluban hasc hne hmax vanity attestation signature
        hwrite.1
      rw [produceHeader_number, produceHeader_time, if_pos hwrite]
      refine layout.parseTurnLength_eq
        (by rw [produceHeader_number, produceHeader_time, hwrite.2]) ?_
      simp [turnLengthSection, hwrite.1, hwrite.2]
    · rw [produceHeader_number, produceHeader_time, if_neg hwrite, parseTurnLength, if_pos]
      rw [produceHeader_number, produceHeader_time]
      by_cases hepoch : header.number % d.epochLength = 0
      · exact .inr (by simpa [hepoch] using hwrite)
      · exact .inl hepoch
  · intro h
    simp [hsnake8] at h
  · intro h
    simp [hsnake8] at h
  · rw [getVoteAttestation_produceHeader hluban hasc hne hmax, hfreq, nil_append]
    cases attestation with
    | none => rfl
    | some a =>
      have hdecode : VoteAttestation.decode false (a.encode ++ []) = .ok (a, []) :=
        a.decode_encode [] (hatt a rfl)
      rw [append_nil] at hdecode
      rw [attestationSection, if_neg a.encode_ne_nil, decodeVoteAttestation, decode, hdecode]
      rfl
  · intro hepoch
    have hempty : getValidatorBytesFromHeader
        (produceHeader c d vanity attestation signature header) c d.epochLength = [] := by
      simp [getValidatorBytesFromHeader, produceHeader_number, hluban, hepoch]
    simp [parseValidators, hempty]

/-- One validator, on the first epoch block after Bohr, with an attestation. -/
theorem luban_extra_reads_back_single :
    let c := { (default : ChainConfig) with
      lubanBlock := some 0, londonBlock := some 0, bohrTime := some 0 }
    let d := { (default : PrepareData) with
      epochLength := 200, newValidators := [zero 20], turnLength := 4 }
    let attestation := some
      { voteAddressSet := 1, aggSignature := default, data := ⟨7, default, 8, default⟩,
        extra := [] }
    ExtraReadsBack c d attestation
      (produceHeader c d default attestation default { (default : Header) with number := 200 }) :=
  (luban_extra_reads_back (by decide) (by decide) (by decide) (by decide) (by decide)
    (by decide)).1

/-- **No round trip after Luban and Snake8.** The attestation decoder starts at the frequency
section, whose marker is not a list, so it fails on every header a producer publishes. -/
theorem luban_snake8_extra_never_reads_back (hluban : c.isLuban header.number = true)
    (hsnake8 : c.isSnake8 d.parentTime = true) (hasc : Ascending d.newValidators)
    (hne : d.newValidators ≠ []) (hmax : d.newValidators.length ≤ 255) :
    ¬ExtraReadsBack c d attestation (produceHeader c d vanity attestation signature header) := by
  intro hback
  have hread := hback.attestation
  rw [getVoteAttestation_produceHeader hluban hasc hne hmax] at hread
  have hfreq : frequencySection c d = 0x56 :: ([0x46, 0x51] ++
      (leBytes 8 d.parentTime ++ d.frequencyRLP)) := by
    simp [frequencySection, hsnake8, validatorFrequencyDataPrefix]
  rw [hfreq, cons_append, if_neg (by simp), decodeVoteAttestation, decode,
    VoteAttestation.decode, decodeList_of_lt (by decide)] at hread
  cases hread

theorem luban_snake8_extra_never_reads_back_single :
    let c := { (default : ChainConfig) with lubanBlock := some 0, snake8Time := some 0 }
    let d := { (default : PrepareData) with
      epochLength := 200, newValidators := [zero 20] }
    ¬ExtraReadsBack c d none
      (produceHeader c d default none default { (default : Header) with number := 200 }) :=
  luban_snake8_extra_never_reads_back (by decide) (by decide) (by decide) (by decide) (by decide)

/-- Block 201 carries no attestation, but the decoder reports one that it cannot decode. -/
theorem luban_snake8_attestation_unreadable :
    let c := { (default : ChainConfig) with lubanBlock := some 0, snake8Time := some 0 }
    let d := { (default : PrepareData) with
      epochLength := 200, newValidators := [zero 20] }
    let h := produceHeader c d default none default { (default : Header) with number := 201 }
    getVoteAttestationFromHeader h c d.epochLength =
        .error (.errDecodeAttestation 201 .expectedList) ∧
      ¬ExtraReadsBack c d none h := by
  refine ⟨by decide, fun hback => ?_⟩
  exact absurd hback.attestation (by decide)

end AfterLuban

/-! ## Reading back before Luban, after Snake8

The end of the validators section is not stored: the decoder looks for the first marker,
starting at byte 0 of the extra-data field. -/

section BeforeLuban

variable {h : Header} {front freq sig : Bytes}

theorem frequencySection_reads_back {ts : ℕ} (hts : ts < 2 ^ 64) (hextra : h.extra = front ++
      ((validatorFrequencyDataPrefix ++ (leBytes 8 ts ++ freq)) ++ sig))
    (hsig : sig.length = extraSeal) (hoffset : snake8FreqDataOffset h c = some front.length)
    (hsnake8 : c.isSnake8 h.time = true) :
    extractSnake8ParentTimestamp h c = some ts ∧ parseValidatorFrequencies h c = .ok freq := by
  have hlen : h.extra.length = front.length + 3 + 8 + freq.length + extraSeal := by
    simp [hextra, hsig, validatorFrequencyDataPrefix]
    omega
  have hmarker : slice h.extra front.length (front.length + 3) =
      validatorFrequencyDataPrefix := by
    rw [hextra, append_assoc]
    exact slice_middle _ _ _ rfl rfl
  have hstamp : slice h.extra (front.length + 3) (front.length + 3 + 8) = leBytes 8 ts := by
    have hsplit : h.extra =
        (front ++ validatorFrequencyDataPrefix) ++ (leBytes 8 ts ++ (freq ++ sig)) := by
      simp [hextra]
    rw [hsplit]
    exact slice_middle _ _ _ (by simp [validatorFrequencyDataPrefix])
      (by simp [validatorFrequencyDataPrefix])
  have hdata : slice h.extra (front.length + 3 + 8) (h.extra.length - extraSeal) = freq := by
    have hsplit : h.extra =
        (front ++ (validatorFrequencyDataPrefix ++ leBytes 8 ts)) ++ (freq ++ sig) := by
      simp [hextra]
    rw [hlen, hsplit]
    exact slice_middle _ _ _ (by simp [validatorFrequencyDataPrefix])
      (by simp [validatorFrequencyDataPrefix])
  have hpre : validatorFrequencyDataPrefix.length = 3 := rfl
  constructor
  · simp only [extractSnake8ParentTimestamp, hoffset, bind_eq_bind, bind_some,
      hpre]
    rw [if_neg (by omega), if_neg (not_not.mpr hmarker), hstamp,
      leNat_leBytes 8 ts (by norm_num; omega)]
  · simp only [parseValidatorFrequencies, hoffset, hpre, hmarker, hdata, hsnake8]
    simp only [Bool.not_true, ne_eq, not_true, if_false]
    rw [if_neg (by simp), if_neg (by omega)]
    rfl

/-- The marker starts nowhere in the vanity or the validators, and does not straddle into
the frequency section either. -/
def MarkerOnlyAtEnd (vanity : FixedBytes 32) (validators : List Address) : Prop :=
  ∀ i < (vanity.bytes ++ validators.flatMap (·.bytes)).length,
    slice ((vanity.bytes ++ validators.flatMap (·.bytes)) ++ validatorFrequencyDataPrefix) i
      (i + 3) ≠ validatorFrequencyDataPrefix

instance (vanity : FixedBytes 32) (validators : List Address) :
    Decidable (MarkerOnlyAtEnd vanity validators) :=
  inferInstanceAs (Decidable (∀ i < _, _))

/-- The search stops at the marker of the frequency section, or earlier. -/
theorem findFrequencyPrefix_le (front rest : Bytes) {stop : ℕ} (hstop : front.length + 3 ≤ stop) :
    ∃ i ≤ front.length,
      findFrequencyPrefix (front ++ (validatorFrequencyDataPrefix ++ rest)) stop = i ∧
      slice (front ++ validatorFrequencyDataPrefix) i (i + 3) = validatorFrequencyDataPrefix ∧
      ∀ j < i, slice (front ++ validatorFrequencyDataPrefix) j (j + 3) ≠
        validatorFrequencyDataPrefix := by
  have hwindow : ∀ i ≤ front.length,
      slice (front ++ (validatorFrequencyDataPrefix ++ rest)) i (i + 3) =
        slice (front ++ validatorFrequencyDataPrefix) i (i + 3) := by
    intro i hi
    rw [← append_assoc]
    exact slice_append_left _ _ (by simp [validatorFrequencyDataPrefix]; omega)
  have hlast : slice (front ++ (validatorFrequencyDataPrefix ++ rest)) front.length
      (front.length + 3) = validatorFrequencyDataPrefix := slice_middle _ _ _ rfl rfl
  simp only [findFrequencyPrefix]
  cases hfind : (List.range (stop - 2)).find? fun i =>
      slice (front ++ (validatorFrequencyDataPrefix ++ rest)) i (i + 3) ==
        validatorFrequencyDataPrefix with
  | none =>
    -- impossible: the marker of the frequency section is in range
    rw [find?_range_eq_none] at hfind
    have := hfind front.length (by omega)
    simp [hlast] at this
  | some i =>
    obtain ⟨hi, -, hmin⟩ := find?_range_eq_some.mp hfind
    have hile : i ≤ front.length := by
      by_contra hlt
      have := hmin front.length (by omega)
      simp [hlast] at this
    refine ⟨i, hile, rfl, ?_, ?_⟩
    · rw [← hwindow i hile]
      simpa using hi
    · intro j hj
      rw [← hwindow j (by omega)]
      simpa using hmin j hj

/-- The extra-data field of an epoch block before Luban. -/
structure MarkedLayout (c : ChainConfig) (epochLength : ℕ) (h : Header)
    (vanity : FixedBytes 32) (validators : List Address) (rest sig : Bytes) : Prop where
  extra : h.extra = (vanity.bytes ++ validators.flatMap (·.bytes)) ++
    (validatorFrequencyDataPrefix ++ (rest ++ sig))
  sig_length : sig.length = extraSeal
  not_luban : c.isLuban h.number = false
  epoch : h.number % epochLength = 0
  nonempty : validators ≠ []

namespace MarkedLayout

variable {epoch : ℕ} {vs : List Address} {rest : Bytes}
  (l : MarkedLayout c epoch h vanity vs rest sig)

theorem validators_length (vs : List Address) : (vs.flatMap (·.bytes)).length = vs.length * 20 :=
  flatMap_length (fun a => a.length_eq) vs

include l

theorem extra_length : h.extra.length = 32 + vs.length * 20 + 3 + rest.length + 65 := by
  have hsig := l.sig_length
  have hv := validators_length vs
  rw [l.extra]
  simp only [length_append, hv, hsig, length_bytes, validatorFrequencyDataPrefix,
    extraSeal, length_cons, length_nil]
  omega

theorem not_markerOnlyAtEnd_of_slice (hslice : slice h.extra 32 35 = validatorFrequencyDataPrefix) :
    ¬MarkerOnlyAtEnd vanity vs := by
  have hv := validators_length vs
  have hpos : 0 < vs.length := length_pos_iff.mpr l.nonempty
  rw [l.extra, ← append_assoc _ validatorFrequencyDataPrefix,
    slice_append_left _ (rest ++ sig) (by simp [hv, validatorFrequencyDataPrefix]; omega)] at hslice
  intro hmark
  exact hmark 32 (by simp [hv]; omega) hslice

theorem not_markerOnlyAtEnd_of_isPrefixOf (hpre : validatorFrequencyDataPrefix.isPrefixOf
      (slice h.extra extraVanity (h.extra.length - extraSeal)) = true) :
    ¬MarkerOnlyAtEnd vanity vs := by
  have hlen := l.extra_length
  refine l.not_markerOnlyAtEnd_of_slice ?_
  have htake := prefix_iff_eq_take.mp ( isPrefixOf_iff_prefix.mp hpre)
  rw [htake]
  simp only [slice, take_drop, take_take, extraVanity, extraSeal, hlen,
    validatorFrequencyDataPrefix, length_cons, length_nil]
  rw [Nat.min_eq_left (by omega)]

/-- The decoder returns the whole section when the marker occurs only at its end, and a
shorter one otherwise. -/
theorem getValidatorBytes_cases : (MarkerOnlyAtEnd vanity vs ∧
      getValidatorBytesFromHeader h c epoch = vs.flatMap (·.bytes)) ∨ (¬MarkerOnlyAtEnd vanity vs ∧
      (getValidatorBytesFromHeader h c epoch).length < vs.length * 20) := by
  have hlen := l.extra_length
  have hv := validators_length vs
  have hpos : 0 < vs.length := length_pos_iff.mpr l.nonempty
  have hfront : (vanity.bytes ++ vs.flatMap (·.bytes)).length =
      32 + vs.length * 20 := by simp [hv]
  obtain ⟨i, hile, hfind, hat, hmin⟩ := findFrequencyPrefix_le
    (vanity.bytes ++ vs.flatMap (·.bytes)) (rest ++ sig)
    (show _ ≤ h.extra.length - extraSeal by rw [hfront, hlen, extraSeal]; omega)
  rw [← l.extra] at hfind
  simp only [getValidatorBytesFromHeader, l.not_luban, l.epoch, hfind]
  rw [if_neg (by rw [hlen, extraVanity, extraSeal]; omega), if_pos (by simp)]
  by_cases hmark : MarkerOnlyAtEnd vanity vs
  · -- the search runs up to the marker of the frequency section
    have hi : i = 32 + vs.length * 20 := by
      by_contra hne
      exact hmark i (by omega) hat
    left
    refine ⟨hmark, ?_⟩
    rw [if_neg (fun hpre => l.not_markerOnlyAtEnd_of_isPrefixOf hpre hmark), hi,
      if_neg (by rw [extraVanity]; omega),
      if_neg (by rw [extraVanity, validatorBytesLengthBeforeLuban]; omega), l.extra,
      append_assoc]
    exact slice_middle _ _ _ (by simp [extraVanity]) (by simp [hv])
  · have hi : i < 32 + vs.length * 20 := by
      simp only [MarkerOnlyAtEnd, not_forall, not_not] at hmark
      obtain ⟨j, hj, hjat⟩ := hmark
      by_contra hge
      exact hmin j (by omega) hjat
    right
    refine ⟨hmark, ?_⟩
    split_ifs with hpre hstart hmod
    · simp
      omega
    · simp
      omega
    · simp
      omega
    · rw [slice_length, extraVanity]
      rw [extraVanity] at hstart
      omega

theorem parseValidators_iff :
    parseValidators h c epoch = .ok (vs, []) ↔ MarkerOnlyAtEnd vanity vs := by
  have hv := validators_length vs
  have hpos : 0 < vs.length := length_pos_iff.mpr l.nonempty
  rcases l.getValidatorBytes_cases with ⟨hmark, hbytes⟩ | ⟨hmark, hshort⟩
  · refine iff_of_true ?_ hmark
    have hcount : vs.length * 20 / validatorBytesLengthBeforeLuban =
        vs.length := Nat.mul_div_cancel _ (by decide)
    simp only [parseValidators, hbytes, l.not_luban, hv, hcount]
    rw [if_neg (by omega), if_pos (by simp)]
    congr 2
    refine (map_range_eq_map fun i hi => ?_).trans (map_id _)
    rw [slice_flatMap (f := (·.bytes)) (k := validatorBytesLengthBeforeLuban)
      (fun a => a.length_eq) vs i hi]
    exact ofBytes_bytes _
  · refine iff_of_false ?_ hmark
    intro hparse
    simp only [parseValidators, l.not_luban] at hparse
    split_ifs at hparse with hzero hluban
    · have hlist := congrArg List.length (congrArg Prod.fst (Except.ok.inj hparse))
      simp only [length_map, length_range, validatorBytesLengthBeforeLuban] at hlist
      omega
    · simp at hluban

end MarkedLayout

/-- The decoders read back what `Prepare` wrote before Luban and after Snake8. -/
structure Snake8ReadsBack (c : ChainConfig) (d : PrepareData) (h : Header) : Prop where
  validators : h.number % d.epochLength = 0 →
    parseValidators h c d.epochLength = .ok (d.newValidators, [])
  parentTimestamp : extractSnake8ParentTimestamp h c = some d.parentTime
  frequencies : parseValidatorFrequencies h c = .ok d.frequencyRLP

/-- Without a validators section the frequency section follows the vanity, whether the
configured epoch length takes the block for an epoch block or not. -/
theorem snake8FreqDataOffset_of_empty
    (hextra : h.extra = vanity.bytes ++ ((validatorFrequencyDataPrefix ++ freq) ++ sig))
    (hsig : sig.length = extraSeal) (hluban : c.isLuban h.number = false)
    (hbohr : c.isBohr h.number h.time = false) : snake8FreqDataOffset h c = some 32 := by
  have hlen : h.extra.length = 32 + 3 + freq.length + 65 := by
    simp [hextra, hsig, validatorFrequencyDataPrefix, extraSeal]
    omega
  have hslice : slice h.extra extraVanity (h.extra.length - extraSeal) =
      validatorFrequencyDataPrefix ++ freq := by
    rw [hlen, hextra]
    exact slice_middle _ _ _ (by simp [extraVanity])
      (by simp [extraSeal, validatorFrequencyDataPrefix]; omega)
  have hempty : getValidatorBytesFromHeader h c c.epoch = [] := by
    simp only [getValidatorBytesFromHeader, hluban, hslice]
    simp [ isPrefixOf_iff_prefix]
  simp only [snake8FreqDataOffset, hluban, hbohr, hempty, hlen, extraVanity, extraSeal]
  rw [if_neg (by omega)]
  by_cases hepoch : h.number % c.epoch = 0
  · simp only [hepoch, ne_eq, not_true, if_false, Bool.not_false, if_true, length_nil,
      Bool.false_eq_true]
    rw [if_neg (by omega)]
  · simp [hepoch]

namespace MarkedLayout

variable {vs : List Address} {rest : Bytes}

theorem snake8FreqDataOffset_eq (l : MarkedLayout c c.epoch h vanity vs rest sig)
    (hbohr : c.isBohr h.number h.time = false) (hmark : MarkerOnlyAtEnd vanity vs) :
    snake8FreqDataOffset h c = some (vanity.bytes ++ vs.flatMap (·.bytes)).length := by
  have hlen := l.extra_length
  have hv := validators_length vs
  rcases l.getValidatorBytes_cases with ⟨-, hbytes⟩ | ⟨hnot, -⟩
  · simp only [snake8FreqDataOffset, l.not_luban, hbohr, l.epoch, hbytes, hlen, hv, extraVanity,
      extraSeal, length_append, length_bytes, ne_eq, not_true, if_false,
      Bool.not_false, if_true, Bool.false_eq_true]
    rw [if_neg (by omega), if_neg (by omega), Nat.add_zero]
  · exact absurd hmark hnot

/-- When the configured epoch length disagrees, the frequency section is looked for right
after the vanity, where the validators are. -/
theorem not_markerOnlyAtEnd_of_extract {epoch ts : ℕ}
    (l : MarkedLayout c epoch h vanity vs rest sig)
    (hconf : h.number % c.epoch ≠ 0) (hextract : extractSnake8ParentTimestamp h c = some ts) :
    ¬MarkerOnlyAtEnd vanity vs := by
  have hlen := l.extra_length
  have hoffset : snake8FreqDataOffset h c = some 32 := by
    rw [snake8FreqDataOffset, if_neg (by rw [hlen, extraVanity, extraSeal]; omega), if_pos hconf]
    rfl
  simp only [extractSnake8ParentTimestamp, hoffset, bind_eq_bind, bind_some] at hextract
  split_ifs at hextract with _ hslice
  exact l.not_markerOnlyAtEnd_of_slice (not_not.mp hslice)

end MarkedLayout

/-- **Round trip before Luban, after Snake8.** Off-epoch blocks always read back. An epoch
block reads back exactly when the configured epoch length agrees that it is one and the marker
occurs nowhere in its vanity and validator addresses. -/
theorem snake8_extra_reads_back_iff (hluban : c.isLuban header.number = false)
    (hbohr : c.isBohr header.number header.time = false)
    (hsnake8 : c.isSnake8 d.parentTime = true) (htime : d.parentTime ≤ header.time)
    (hts : d.parentTime < 2 ^ 64) (hasc : Ascending d.newValidators) (hne : d.newValidators ≠ []) :
    Snake8ReadsBack c d (produceHeader c d vanity none signature header) ↔
      (header.number % d.epochLength = 0 →
        header.number % c.epoch = 0 ∧ MarkerOnlyAtEnd vanity d.newValidators) := by
  have hs8 : c.isSnake8 header.time = true := isForked_mono htime hsnake8
  rw [produceHeader_eq]
  simp only [turnLengthSection, hbohr, frequencySection, hsnake8, attestationSection,
    nil_append, Bool.not_false, or_true, if_true]
  by_cases hepoch : header.number % d.epochLength = 0
  · have hsection : validatorSection c d header.number = d.newValidators.flatMap (·.bytes) := by
      simp [validatorSection, hepoch, hluban, sortValidators_of_ascending hasc]
    rw [hsection, ← append_assoc]
    generalize hh : ({ header with extra := _ } : Header) = h
    have layout : ∀ e, header.number % e = 0 → MarkedLayout c e h vanity d.newValidators
        (leBytes 8 d.parentTime ++ d.frequencyRLP) signature.bytes := by
      intro e he
      subst hh
      exact ⟨by simp, signature.length_eq, hluban, he, hne⟩
    have l := layout _ hepoch
    have hnumber : h.number = header.number := by rw [← hh]
    constructor
    · intro hback _
      have hmark := l.parseValidators_iff.mp (hback.validators l.epoch)
      refine ⟨?_, hmark⟩
      by_contra hconf
      exact l.not_markerOnlyAtEnd_of_extract (by rwa [hnumber]) hback.parentTimestamp hmark
    · intro hcond
      obtain ⟨hconf, hmark⟩ := hcond hepoch
      have hoffset := (layout _ hconf).snake8FreqDataOffset_eq (by rw [← hh]; exact hbohr) hmark
      have hextra : h.extra = (vanity.bytes ++ d.newValidators.flatMap (·.bytes)) ++
          ((validatorFrequencyDataPrefix ++ (leBytes 8 d.parentTime ++ d.frequencyRLP)) ++
            signature.bytes) := by rw [← hh]
      obtain ⟨hstamp, hfreq⟩ := frequencySection_reads_back hts hextra signature.length_eq hoffset
        (by rw [← hh]; exact hs8)
      exact ⟨fun _ => l.parseValidators_iff.mpr hmark, hstamp, hfreq⟩
  · have hsection : validatorSection c d header.number = [] := by
      simp [validatorSection, hepoch]
    rw [hsection, nil_append]
    generalize hh : ({ header with extra := _ } : Header) = h
    have hextra : h.extra = vanity.bytes ++ ((validatorFrequencyDataPrefix ++
        (leBytes 8 d.parentTime ++ d.frequencyRLP)) ++ signature.bytes) := by rw [← hh]
    have hoffset := snake8FreqDataOffset_of_empty hextra signature.length_eq
      (by rw [← hh]; exact hluban) (by rw [← hh]; exact hbohr)
    obtain ⟨hstamp, hfreq⟩ := frequencySection_reads_back hts hextra signature.length_eq
      (by simpa using hoffset) (by rw [← hh]; exact hs8)
    have hnumber : h.number = header.number := by rw [← hh]
    exact iff_of_true ⟨fun h0 => absurd (hnumber ▸ h0) hepoch, hstamp, hfreq⟩
      (fun h0 => absurd h0 hepoch)

/-- Two validators on an epoch block, no marker among their bytes. -/
theorem snake8_extra_reads_back_plain :
    let c := { (default : ChainConfig) with snake8Time := some 0 }
    let d := { (default : PrepareData) with
      epochLength := 200, newValidators := [zero 20, .ofBytes 20 [1]],
      parentTime := 7, frequencyRLP := [0xC0] }
    Snake8ReadsBack c d
      (produceHeader c d default none default
        { (default : Header) with number := 200, time := 10 }) :=
  (snake8_extra_reads_back_iff (by decide) (by decide) (by decide) (by decide) (by decide)
    (by decide) (by decide)).mpr fun _ => ⟨by decide, by decide⟩

/-- A validator whose address contains the marker at byte 4: the section is cut there, its
length is no multiple of 20, and the whole list is dropped. -/
theorem snake8_marker_in_address_unreadable :
    let c := { (default : ChainConfig) with snake8Time := some 0 }
    let d := { (default : PrepareData) with
      epochLength := 200,
      newValidators :=
        [.ofBytes 20 ([0, 0, 0, 1, 0x56, 0x46, 0x51] ++ List.replicate 13 0)],
      parentTime := 7, frequencyRLP := [0xC0] }
    let h := produceHeader c d default none default
      { (default : Header) with number := 200, time := 10 }
    parseValidators h c d.epochLength = .error .errInvalidValidatorsBytes ∧
      ¬Snake8ReadsBack c d h := by
  refine ⟨by decide +kernel, fun hback => ?_⟩
  exact absurd (hback.validators (by decide)) (by decide +kernel)

end BeforeLuban

end ChilizChain
