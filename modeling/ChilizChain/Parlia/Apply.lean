import ChilizChain.Parlia.Branch

/-! Applying headers one at a time and in a batch. Inside a batch the code leaves the block
number of the snapshot at the number it started from, so a step sees a different left end of the
recency window than it would on a snapshot of its own parent. The two agree because the entries
that fall out of the window have been erased by then (`InWindow`). -/

namespace ChilizChain

open Std.ExtTreeMap Except

theorem parseTurnLength_of_not_isBohr {h : Header} {c : ChainConfig}
    (hbohr : c.isBohr h.number h.time = false) (epoch : ℕ) :
    parseTurnLength h c epoch = .ok none := by
  unfold parseTurnLength
  rw [if_pos (.inr (by simp [hbohr]))]

namespace Snapshot

/-! ## What one header changes -/

section Frames

variable {k : Crypto} {c : ChainConfig} {chain : ChainStore} {ps : List Header}

theorem updateAttestation_frame (c : ChainConfig) (s : Snapshot) (hd : Header) :
    ∃ attestation, s.updateAttestation c hd = { s with attestation := attestation } := by
  unfold updateAttestation
  split
  · exact ⟨_, rfl⟩
  · split
    · exact ⟨_, rfl⟩
    · exact ⟨_, rfl⟩
    · dsimp only
      split
      · exact ⟨_, rfl⟩
      · split
        · split
          · exact ⟨_, rfl⟩
          · exact ⟨_, rfl⟩
        · exact ⟨_, rfl⟩

theorem updateBlockInterval_frame (c : ChainConfig) (s : Snapshot) (hd : Header) :
    ∃ interval, s.updateBlockInterval c hd = { s with blockInterval := interval } ∧
      (s.blockInterval ≠ 0 → interval ≠ 0) := by
  unfold updateBlockInterval
  split_ifs
  · exact ⟨_, rfl, fun _ => by decide⟩
  · exact ⟨_, rfl, fun _ => by decide⟩
  · exact ⟨_, rfl, fun _ => by decide⟩
  · exact ⟨_, rfl, id⟩

theorem updateEpochLength_frame (c : ChainConfig) (s : Snapshot) (hd : Header) :
    ∃ epoch, s.updateEpochLength c hd = { s with epochLength := epoch } ∧
      (s.epochLength ≠ 0 → epoch ≠ 0) := by
  unfold updateEpochLength
  dsimp only
  split_ifs
  · exact ⟨_, rfl, fun _ => by decide⟩
  · exact ⟨_, rfl, fun _ => by decide⟩
  · exact ⟨_, rfl, fun _ => by decide⟩
  · exact ⟨_, rfl, id⟩

theorem recordSigner_frame (c : ChainConfig) (s : Snapshot) (hd : Header)
    (val : Address) :
    ∃ recents, s.recordSigner c hd val = { s with recents := recents } ∧
      ∀ block signer, recents[block]? = some signer →
        block = hd.number ∨ s.recents[block]? = some signer := by
  refine ⟨_, rfl, fun block signer hentry => ?_⟩
  have hinsert : (s.recents.insert hd.number val)[block]? = some signer := by
    split at hentry
    · rw [getElem?_filter, Option.pfilter_eq_some_iff] at hentry
      exact hentry.fst
    · exact hentry
  rw [getElem?_insert] at hinsert
  split at hinsert
  · rename_i heq
    exact .inl (Std.LawfulEqCmp.eq_of_compare heq).symm
  · exact .inr hinsert

theorem recordBlock_frame (c : ChainConfig) (s : Snapshot) (hd : Header)
    (val : Address) :
    ∃ attestation recents hashes interval,
      s.recordBlock c hd val = { s with
        attestation := attestation, recents := recents, recentForkHashes := hashes,
        blockInterval := interval } ∧
      (s.blockInterval ≠ 0 → interval ≠ 0) ∧
      ∀ block signer, recents[block]? = some signer →
        block = hd.number ∨ s.recents[block]? = some signer := by
  obtain ⟨attestation, hattestation⟩ := updateAttestation_frame c s hd
  obtain ⟨recents, hrecents, hentries⟩ :=
    recordSigner_frame c { s with attestation := attestation } hd val
  obtain ⟨interval, hinterval, hne⟩ := updateBlockInterval_frame c
    (recordForkHash { s with attestation := attestation, recents := recents } hd) hd
  refine ⟨attestation, recents, (s.recordBlock c hd val).recentForkHashes, interval,
    ?_, hne, hentries⟩
  rw [recordBlock, hattestation, hrecents, hinterval]
  rfl

/-- A switch installs what the checkpoint header announces. -/
structure Switched (c : ChainConfig) (x : Snapshot) (header checkpoint : Header)
    (epochLength epochKey : ℕ) (s' : Snapshot) where
  turnLength : Option UInt8
  validators : List Address
  voteAddrs : List BLSPublicKey
  newVals : Std.ExtTreeMap Address ValidatorInfo
  parseTurnLength_eq : parseTurnLength checkpoint c epochLength = .ok turnLength
  parseValidators_eq : parseValidators checkpoint c epochLength = .ok (validators, voteAddrs)
  announced : announcedValidators c header validators voteAddrs = .ok newVals
  eq : s' = x.installValidators c header epochKey
    ((turnLength.map UInt8.toNat).getD x.turnLength) newVals

variable {s s' : Snapshot} {hd : Header}

theorem switchTo_ok {cp : Header} {epoch epochKey : ℕ}
    (h : s.switchTo c hd epoch epochKey cp = .ok s') :
    Nonempty (Switched c s hd cp epoch epochKey s') := by
  obtain ⟨turn, hturn, h⟩ := bind_eq_ok.mp h
  obtain ⟨⟨validators, voteAddrs⟩, hvalidators, h⟩ := bind_eq_ok.mp h
  obtain ⟨newVals, hnewVals, h⟩ := bind_eq_ok.mp h
  exact ⟨turn, validators, voteAddrs, newVals, hturn, hvalidators, hnewVals, (Except.ok.inj h).symm⟩

/-- The key of the marker entry of an epoch. -/
def epochKey (number epochLength : ℕ) : ℕ := sub64 (2 ^ 64 - 1) (number / epochLength)

theorem changeValidators_ok {epoch : ℕ} (h : changeValidators k c chain ps s hd epoch = .ok s') :
    (s' = s ∧ (0 < hd.number → hd.number % epoch = s.minerHistoryCheckLen →
      c.isBohr hd.number hd.time = true ∧ epochKey hd.number epoch ∈ s.recents)) ∨
    (hd.number % epoch = s.minerHistoryCheckLen ∧
      ∃ cp, findAncientHeader k chain ps s.minerHistoryCheckLen hd =
          some cp ∧ Nonempty (Switched c s hd cp epoch (epochKey hd.number epoch) s')) := by
  unfold changeValidators at h
  dsimp only at h
  split_ifs at h with hswitch hmarker
  · exact .inl ⟨(Except.ok.inj h).symm, fun _ _ => hmarker⟩
  · unfold switchValidators at h
    split at h
    · cases h
    · exact .inr ⟨hswitch.2, _, ‹_›, switchTo_ok h⟩
  · exact .inl ⟨(Except.ok.inj h).symm, fun hpos hmod => absurd ⟨hpos, hmod⟩ hswitch⟩

/-- What the steps before the validator-set switch leave alone, and what they record. -/
structure Recorded (header : Header) (s x : Snapshot) : Prop where
  number : x.number = s.number
  hash : x.hash = s.hash
  turnLength : x.turnLength = s.turnLength
  validators : x.validators = s.validators
  isSnake8Fork : x.isSnake8Fork = s.isSnake8Fork
  frequencyRLP : x.frequencyRLP = s.frequencyRLP
  blockInterval : s.blockInterval ≠ 0 → x.blockInterval ≠ 0
  epochLength : s.epochLength ≠ 0 → x.epochLength ≠ 0
  recents : ∀ block signer, x.recents[block]? = some signer →
    block = header.number ∨ (s.expire header.number).recents[block]? = some signer

theorem Recorded.minerHistoryCheckLen {x : Snapshot} (hx : Recorded hd s x) :
    x.minerHistoryCheckLen = s.minerHistoryCheckLen := by
  rw [Snapshot.minerHistoryCheckLen, hx.validators, hx.turnLength]
  rfl

theorem recorded (c : ChainConfig) (s : Snapshot) (hd : Header) (val : Address) : Recorded hd s
      (((s.expire hd.number).recordBlock c hd val).updateEpochLength c hd) := by
  obtain ⟨attestation, recents, hashes, interval, hrecord, hinterval, hrecents⟩ :=
    recordBlock_frame c (s.expire hd.number) hd val
  obtain ⟨epoch, hepoch, hne⟩ := updateEpochLength_frame c
    ((s.expire hd.number).recordBlock c hd val) hd
  rw [hrecord] at hne
  rw [hepoch, hrecord]
  exact ⟨rfl, rfl, rfl, rfl, rfl, rfl, hinterval, hne, hrecents⟩

theorem applyHeader_eq_ok (h : applyHeader k c chain ps s hd = .ok s') :
    ∃ val, ecrecover k hd = .ok val ∧ val ∈ s.validators ∧
      (s.expire hd.number).refusesRecent c hd val = false ∧ changeValidators k c chain ps
        (((s.expire hd.number).recordBlock c hd val).updateEpochLength c hd)
        hd s.epochLength = .ok s' := by
  unfold applyHeader at h
  simp only [throw_eq_error, error_bind] at h
  obtain ⟨val, hrec, h⟩ := bind_eq_ok.mp h
  split_ifs at h with hmem hrecent
  obtain ⟨_, _, _, _, hrecord, -⟩ :=
    recordBlock_frame c (s.expire hd.number) hd val
  have hepoch : ((s.expire hd.number).recordBlock c hd val).epochLength =
      s.epochLength := by
    rw [hrecord]
    rfl
  rw [hepoch] at h
  exact ⟨val, hrec, hmem, Bool.eq_false_iff.mpr hrecent, h⟩

/-- Everything a header can do to a snapshot: its block is recorded, and the validator set may
be replaced by the one of a checkpoint header. -/
theorem applyHeader_ok (h : applyHeader k c chain ps s hd = .ok s') :
    ∃ x, Recorded hd s x ∧ (s' = x ∨ ∃ cp epoch epochKey turn newVals,
      x.minerHistoryCheckLen ≤ hd.number ∧
      findAncientHeader k chain ps x.minerHistoryCheckLen hd = some cp ∧
      parseTurnLength cp c epoch = .ok turn ∧ s' = x.installValidators c hd epochKey
        ((turn.map UInt8.toNat).getD x.turnLength) newVals) := by
  obtain ⟨val, -, -, -, h⟩ := applyHeader_eq_ok h
  refine ⟨_, recorded c s hd val, ?_⟩
  rcases changeValidators_ok h with ⟨h, -⟩ | ⟨hmod, cp, hfound, ⟨hswitch⟩⟩
  · exact .inl h
  · exact .inr ⟨cp, _, _, hswitch.turnLength, hswitch.newVals, hmod ▸ Nat.mod_le _ _,
      hfound, hswitch.parseTurnLength_eq, hswitch.eq⟩

theorem applyHeader_frame (h : applyHeader k c chain ps s hd = .ok s') :
    s'.number = s.number ∧ s'.isSnake8Fork = s.isSnake8Fork ∧ s'.frequencyRLP = s.frequencyRLP := by
  obtain ⟨x, hx, rfl | ⟨_, _, _, _, _, -, -, -, rfl⟩⟩ := applyHeader_ok h
  · exact ⟨hx.number, hx.isSnake8Fork, hx.frequencyRLP⟩
  · exact ⟨hx.number, hx.isSnake8Fork, hx.frequencyRLP⟩

end Frames

/-! ## The recency window -/

/-- Each recorded signer is still inside the window of block `n`. -/
def InWindow (s : Snapshot) (n : ℕ) : Prop :=
  ∀ block signer, s.recents[block]? = some signer → signer ≠ FixedBytes.zero 20 →
    0 < block ∧ n ≤ block + s.minerHistoryCheckLen

variable {s : Snapshot} {n : ℕ}

theorem recentBlocks_eq (hs : s.InWindow n) (hn : s.number < n) (val : Address) :
    s.recentBlocks val = (s.recents.toList.filter fun entry =>
        entry.2 ≠ FixedBytes.zero 20 ∧ entry.2 = val).map Prod.fst := by
  unfold recentBlocks
  refine congrArg (List.map Prod.fst) (List.filter_congr ?_)
  rintro ⟨block, signer⟩ hmem
  rw [mem_toList_iff_getElem?_eq_some] at hmem
  rw [decide_eq_decide]
  constructor
  · exact And.right
  · rintro ⟨hne, heq⟩
    obtain ⟨hpos, hwindow⟩ := hs block signer hmem hne
    refine ⟨?_, hne, heq⟩
    split <;> omega

theorem InWindow.expire (hs : s.InWindow n) (hn : n + 1 < 2 ^ 64) :
    ∀ block signer, (s.expire (n + 1)).recents[block]? = some signer →
      signer ≠ FixedBytes.zero 20 → 0 < block ∧ n + 1 ≤ block + s.minerHistoryCheckLen := by
  intro block signer hentry hne
  have hkept : s.recents[block]? = some signer ∧
      (add64 s.minerHistoryCheckLen 1 ≤ n + 1 →
        block ≠ n + 1 - add64 s.minerHistoryCheckLen 1) := by
    unfold Snapshot.expire at hentry
    dsimp only at hentry
    split at hentry
    · rw [getElem?_erase] at hentry
      split at hentry
      · cases hentry
      · rename_i hcmp
        exact ⟨hentry, fun _ heq => hcmp (by rw [heq]; exact Std.ReflCmp.compare_self)⟩
    · rename_i hlimit
      exact ⟨hentry, fun h => absurd h hlimit⟩
  obtain ⟨hmem, herased⟩ := hkept
  obtain ⟨hpos, hwindow⟩ := hs block signer hmem hne
  refine ⟨hpos, ?_⟩
  by_contra hlt
  have hlimit : add64 s.minerHistoryCheckLen 1 = s.minerHistoryCheckLen + 1 :=
    if_pos (by omega)
  rw [hlimit] at herased
  exact herased (by omega) (by omega)

variable {hd : Header}

theorem InWindow.recorded {x : Snapshot} (hs : s.InWindow n) (hnumber : hd.number = n + 1)
    (hn : n + 1 < 2 ^ 64) (hx : Recorded hd s x) : x.InWindow (n + 1) := by
  intro block signer hentry hne
  rw [hx.minerHistoryCheckLen]
  rcases hx.recents block signer hentry with rfl | hold
  · omega
  · rw [hnumber] at hold
    exact hs.expire hn block signer hold hne

theorem getElem?_foldl_erase {f : ℕ → ℕ} {block : ℕ} {signer : Address} :
    ∀ {l : List ℕ} {recents : Std.ExtTreeMap ℕ Address},
      (l.foldl (fun recents i => recents.erase (f i)) recents)[block]? = some signer →
      (∀ i ∈ l, f i ≠ block) ∧ recents[block]? = some signer
  | [], recents, h => ⟨by simp, h⟩
  | i :: l, recents, h => by
    obtain ⟨hrest, hentry⟩ := getElem?_foldl_erase (l := l) h
    rw [getElem?_erase] at hentry
    split at hentry
    · cases hentry
    · rename_i hcmp
      refine ⟨fun j hj => ?_, hentry⟩
      rcases List.mem_cons.mp hj with rfl | hj
      · intro heq
        exact hcmp (by rw [heq]; exact Std.ReflCmp.compare_self)
      · exact hrest j hj

/-- Before Bohr the turn length is one, and the blocks that a smaller window no longer covers
are erased; Bohr erases them all. -/
theorem InWindow.installValidators {c : ChainConfig} {x : Snapshot} {turn : ℕ}
    (hx : x.InWindow hd.number) (epochKey : ℕ) (newVals : Std.ExtTreeMap Address ValidatorInfo)
    (hturn : c.isBohr hd.number hd.time = false → x.turnLength = 1 ∧ turn = 1) :
    (x.installValidators c hd epochKey turn newVals).InWindow hd.number := by
  intro block signer hentry hne
  unfold Snapshot.installValidators switchRecents at hentry
  dsimp only at hentry
  split at hentry
  · rw [getElem?_insert] at hentry
    split at hentry
    · exact absurd (Option.some.inj hentry).symm hne
    · simp at hentry
  · rename_i hbohr
    obtain ⟨hold, hnew⟩ := hturn (Bool.eq_false_iff.mpr hbohr)
    obtain ⟨herased, hmem⟩ := getElem?_foldl_erase hentry
    obtain ⟨hpos, hwindow⟩ := hx block signer hmem hne
    have holdLen : x.minerHistoryCheckLen = x.validators.size / 2 := by
      rw [minerHistoryCheckLen, hold, Nat.mul_one, sub64_of_le (Nat.le_add_left 1 _),
        Nat.add_sub_cancel]
    have hnewLen : (x.installValidators c hd epochKey turn
        newVals).minerHistoryCheckLen = newVals.size / 2 := by
      rw [minerHistoryCheckLen, Snapshot.installValidators, hnew, Nat.mul_one,
        sub64_of_le (Nat.le_add_left 1 _), Nat.add_sub_cancel]
    refine ⟨hpos, ?_⟩
    rw [hnewLen]
    by_contra hlt
    have hstart : sub64 hd.number (newVals.size / 2 + 1) =
        hd.number - (newVals.size / 2 + 1) := sub64_of_le (by omega)
    -- the loop erases exactly the blocks between the two left ends
    refine herased (hd.number - (newVals.size / 2 + 1) - block)
      (List.mem_range.mpr (by omega)) ?_
    rw [hstart, sub64_of_le (by omega)]
    omega

/-- One header keeps the recorded signers in the window, and before Bohr the turn length at one,
if no checkpoint header is ahead of the header in its forks. -/
theorem InWindow.applyHeader {k : Crypto} {c : ChainConfig} {chain : ChainStore}
    {ps : List Header} {s' : Snapshot} (hs : s.InWindow n) (hnumber : hd.number = n + 1)
    (hn : n + 1 < 2 ^ 64) (hone : c.isBohr hd.number hd.time = false → s.turnLength = 1)
    (hcheckpoint : c.isBohr hd.number hd.time = false → ∀ cp, s.minerHistoryCheckLen ≤ hd.number →
      findAncientHeader k chain ps s.minerHistoryCheckLen hd = some cp →
      c.isBohr cp.number cp.time = false) (happly : s.applyHeader k c chain ps hd = .ok s') :
    s'.InWindow (n + 1) ∧ (c.isBohr hd.number hd.time = false → s'.turnLength = 1) := by
  obtain ⟨x, hx, hs'⟩ := applyHeader_ok happly
  have hwindow : x.InWindow (n + 1) := hs.recorded hnumber hn hx
  have hone' : c.isBohr hd.number hd.time = false → x.turnLength = 1 :=
    fun hbohr => hx.turnLength.trans (hone hbohr)
  rcases hs' with rfl | ⟨cp, epoch, epochKey, turn, newVals, hle, hfound, hturn, rfl⟩
  · exact ⟨hwindow, hone'⟩
  · rw [hx.minerHistoryCheckLen] at hle hfound
    -- before Bohr the cp hd carries no turn length
    have hkept : c.isBohr hd.number hd.time = false →
        (turn.map UInt8.toNat).getD x.turnLength = 1 := by
      intro hbohr
      rw [parseTurnLength_of_not_isBohr (hcheckpoint hbohr cp hle hfound)] at hturn
      obtain rfl := Except.ok.inj hturn
      exact hone' hbohr
    refine ⟨?_, hkept⟩
    rw [← hnumber] at hwindow ⊢
    exact hwindow.installValidators epochKey newVals fun hbohr => ⟨hone' hbohr, hkept hbohr⟩

/-! ## The block a snapshot is filed under -/

section Relocate

variable {k : Crypto} {c : ChainConfig} {chain : ChainStore} {ps : List Header}

/-- The same snapshot under another block. -/
def relocate (s : Snapshot) (number : ℕ) (hash : Hash) : Snapshot :=
  { s with number := number, hash := hash }

theorem signRecently_relocate {s : Snapshot} {n m : ℕ} (hs : s.InWindow n) (hn : s.number < n)
    (hm : m < n) (hash : Hash) (val : Address) :
    (s.relocate m hash).signRecently val = s.signRecently val := by
  have hblocks : (s.relocate m hash).recentBlocks val = s.recentBlocks val := by
    rw [recentBlocks_eq hs hn, recentBlocks_eq (s := s.relocate m hash) (n := n) hs hm]
    rfl
  rw [signRecently, signRecently, hblocks]
  rfl

theorem updateAttestation_relocate (s : Snapshot) (hd : Header) (m : ℕ) (hash : Hash) :
    (s.relocate m hash).updateAttestation c hd = (s.updateAttestation c hd).relocate m hash := by
  unfold updateAttestation relocate
  dsimp only
  split_ifs
  · rfl
  · split
    · rfl
    · rfl
    · split_ifs
      · rfl
      · split <;> rfl
      · split <;> rfl

theorem recordBlock_relocate (s : Snapshot) (hd : Header) (val : Address) (m : ℕ)
    (hash : Hash) : (s.relocate m hash).recordBlock c hd val =
      (s.recordBlock c hd val).relocate m hash := by
  unfold recordBlock
  rw [updateAttestation_relocate]
  unfold updateBlockInterval
  split_ifs <;> rfl

theorem updateEpochLength_relocate (s : Snapshot) (hd : Header) (m : ℕ) (hash : Hash) :
    (s.relocate m hash).updateEpochLength c hd = (s.updateEpochLength c hd).relocate m hash := by
  unfold updateEpochLength relocate
  dsimp only
  split_ifs <;> rfl

theorem switchTo_relocate (s : Snapshot) (hd : Header) (epoch epochKey : ℕ)
    (cp : Header) (m : ℕ) (hash : Hash) : (s.relocate m hash).switchTo c hd epoch epochKey cp =
      (·.relocate m hash) <$> s.switchTo c hd epoch epochKey cp := by
  unfold switchTo
  cases parseTurnLength cp c epoch with
  | error e => rfl
  | ok turn =>
    cases parseValidators cp c epoch with
    | error e => rfl
    | ok parsed =>
      simp only [ok_bind]
      cases announcedValidators c hd parsed.1 parsed.2 with
      | error e => rfl
      | ok newVals => rfl

theorem changeValidators_relocate (s : Snapshot) (hd : Header) (epoch m : ℕ)
    (hash : Hash) : changeValidators k c chain ps (s.relocate m hash) hd epoch =
      (·.relocate m hash) <$> changeValidators k c chain ps s hd epoch := by
  have hlen : (s.relocate m hash).minerHistoryCheckLen = s.minerHistoryCheckLen := rfl
  have hrecents : (s.relocate m hash).recents = s.recents := rfl
  unfold changeValidators switchValidators
  simp only [hlen, hrecents, switchTo_relocate]
  split_ifs
  · rfl
  · cases findAncientHeader k chain ps s.minerHistoryCheckLen hd with
    | none => rfl
    | some cp => rfl
  · rfl

/-- Inside the window a header does not see under which block the snapshot is filed. -/
theorem applyHeader_relocate {s : Snapshot} {hd : Header} {m : ℕ}
    (hs : (s.expire hd.number).InWindow hd.number) (hn : s.number < hd.number)
    (hm : m < hd.number) (hash : Hash) : applyHeader k c chain ps (s.relocate m hash) hd =
      (·.relocate m hash) <$> applyHeader k c chain ps s hd := by
  have hrefuses : ∀ val,
      ((s.expire hd.number).relocate m hash).refusesRecent c hd val =
        (s.expire hd.number).refusesRecent c hd val := by
    intro val
    rw [refusesRecent, refusesRecent, signRecently_relocate hs hn hm]
    rfl
  have hexpire : (s.relocate m hash).expire hd.number =
      (s.expire hd.number).relocate m hash := rfl
  have hepoch : ∀ x : Snapshot, (x.relocate m hash).epochLength = x.epochLength := fun _ => rfl
  have hvalidators : ∀ x : Snapshot, (x.relocate m hash).validators = x.validators := fun _ => rfl
  unfold applyHeader
  simp only [hexpire, hrefuses, hvalidators, recordBlock_relocate, hepoch,
    updateEpochLength_relocate, changeValidators_relocate]
  cases ecrecover k hd with
  | error e => rfl
  | ok val =>
    simp only [ok_bind]
    split_ifs <;> rfl

end Relocate

end Snapshot

end ChilizChain
