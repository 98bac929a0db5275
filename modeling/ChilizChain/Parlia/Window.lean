import ChilizChain.Parlia.Chain
import ChilizChain.Parlia.PathIndependence

/-! The recent signers of a snapshot against the chain. Entries leave the map one by one as blocks
are added, in bulk when a smaller validator set is installed, and all at once at a validator-set
switch after Bohr. As long as the window does not grow and the bulk removal stays outside the new
window, the entries inside the window are the signers of the last blocks (`Tracks`). -/

namespace ChilizChain

open Snapshot Bytes List Std.ExtTreeMap Nat Std.LawfulEqCmp Std.ReflCmp

/-- The number of `headers` that `validator` signed. -/
def signedCount (k : Crypto) (validator : Address) (headers : List Header) : ℕ :=
  headers.countP fun h => ecrecover k h = .ok validator

namespace Snapshot

/-! ## The window in lookups -/

variable {s : Snapshot}

theorem minerHistoryCheckLen_succ (hturn : 0 < s.turnLength) :
    s.minerHistoryCheckLen + 1 = (s.validators.size / 2 + 1) * s.turnLength := by
  have hpos : 1 ≤ (s.validators.size / 2 + 1) * s.turnLength :=
    mul_pos (succ_pos _) hturn
  rw [minerHistoryCheckLen, sub64_of_le hpos]
  omega

theorem minerHistoryCheckLen_congr {s' : Snapshot} (hturn : s'.turnLength = s.turnLength)
    (hlimit : s'.validators.size / 2 = s.validators.size / 2) :
    s'.minerHistoryCheckLen = s.minerHistoryCheckLen := by
  rw [minerHistoryCheckLen, minerHistoryCheckLen, hturn, hlimit]

theorem minerHistoryCheckLen_le {s' : Snapshot} (hpos : 0 < s.turnLength)
    (hturn : s'.turnLength = s.turnLength) (hsize : s'.validators.size ≤ s.validators.size) :
    s'.minerHistoryCheckLen ≤ s.minerHistoryCheckLen := by
  have hle : (s'.validators.size / 2 + 1) * s.turnLength ≤
      (s.validators.size / 2 + 1) * s.turnLength :=
    Nat.mul_le_mul_right _ (Nat.succ_le_succ (Nat.div_le_div_right hsize))
  have h := minerHistoryCheckLen_succ hpos
  have h' := minerHistoryCheckLen_succ (s := s') (hturn ▸ hpos)
  rw [hturn] at h'
  omega

theorem getElem?_expire (hlimit : s.minerHistoryCheckLen + 1 < 2 ^ 64) (number block : ℕ) :
    (s.expire number).recents[block]? =
      if block + (s.minerHistoryCheckLen + 1) = number then none else s.recents[block]? := by
  have hadd : add64 s.minerHistoryCheckLen 1 = s.minerHistoryCheckLen + 1 := if_pos hlimit
  unfold expire
  dsimp only
  rw [hadd]
  split_ifs with hle hblock hblock
  · rw [getElem?_erase, if_pos]
    rw [show number - (s.minerHistoryCheckLen + 1) = block by omega]
    exact compare_self
  · rw [getElem?_erase, if_neg]
    intro hcmp
    have := eq_of_compare hcmp
    omega
  · omega
  · rfl

/-- Nothing is finalized by the block: Maxwell is not active, or there are no attestations. -/
def NothingFinalized (s : Snapshot) (c : ChainConfig) (header : Header) : Prop :=
  c.isMaxwell header.number header.time = false ∨
    (s.attestation = none ∧ c.isLuban header.number = false)

variable {block : ℕ}

theorem getElem?_recordBlock {c : ChainConfig} {hd : Header}
    (hfinal : s.NothingFinalized c hd) (val : Address) (hpos : 0 < block) :
    ((s.recordBlock c hd val).updateEpochLength c hd).recents[block]? =
      (s.recents.insert hd.number val)[block]? := by
  obtain ⟨epochLength, hepoch, -⟩ := updateEpochLength_frame c
    (s.recordBlock c hd val) hd
  obtain ⟨interval, hinterval, -⟩ := updateBlockInterval_frame c
    (((s.updateAttestation c hd).recordSigner c hd val).recordForkHash hd) hd
  obtain ⟨attestation, hattestation⟩ := updateAttestation_frame c s hd
  rw [hepoch, recordBlock, hinterval, recordForkHash, recordSigner]
  dsimp only
  rcases hfinal with hmaxwell | ⟨hnone, hluban⟩
  · rw [if_neg (by simp [hmaxwell]), hattestation]
  · have hsame : s.updateAttestation c hd = s := by
      rw [updateAttestation, if_pos (by simp [hluban])]
    have hzero : s.getFinalizedNumber = 0 := by rw [getFinalizedNumber, hnone]
    rw [hsame, hzero]
    split_ifs
    · rw [Std.ExtTreeMap.getElem?_filter]
      simp only [getKey_eq, hpos, decide_true, Option.pfilter_eq_filter]
      cases (s.recents.insert hd.number val)[block]? <;> rfl
    · rfl

theorem getElem?_recorded {c : ChainConfig} {hd : Header} (hfinal : s.NothingFinalized c hd)
    (hlimit : s.minerHistoryCheckLen + 1 < 2 ^ 64) (val : Address) (hpos : 0 < block) :
    (((s.expire hd.number).recordBlock c hd val).updateEpochLength c hd).recents[block]? =
      if block = hd.number then some val
      else if block + (s.minerHistoryCheckLen + 1) = hd.number then none
      else s.recents[block]? := by
  have hfinal' : (s.expire hd.number).NothingFinalized c hd := hfinal
  rw [getElem?_recordBlock hfinal' val hpos, Std.ExtTreeMap.getElem?_insert, getElem?_expire hlimit]
  by_cases hblock : block = hd.number
  · rw [if_pos hblock, if_pos (by rw [hblock]; exact compare_self)]
  · rw [if_neg hblock, if_neg fun hcmp => hblock (eq_of_compare hcmp).symm]

theorem getElem?_foldl_erase_of_ne {f : ℕ → ℕ} :
    ∀ {l : List ℕ} {recents : Std.ExtTreeMap ℕ Address}, (∀ i ∈ l, f i ≠ block) →
      (l.foldl (fun recents i => recents.erase (f i)) recents)[block]? = recents[block]?
  | [], _, _ => rfl
  | i :: l, recents, h => by
    rw [foldl_cons, getElem?_foldl_erase_of_ne fun j hj => h j (mem_cons_of_mem i hj),
      getElem?_erase, if_neg]
    exact fun hcmp => h i mem_cons_self (eq_of_compare hcmp)

/-- The bulk removal of a switch never reaches the last `limit` blocks. -/
theorem sub64_sub64_ne {number limit i : ℕ} (hblock : block ≤ number)
    (hwindow : number < block + limit) (hlt : limit + i < 2 ^ 64) :
    sub64 (sub64 number limit) i ≠ block := by
  unfold sub64
  split_ifs <;> omega

end Snapshot

/-! ## One block -/

/-- A block at which the recent signers are cleared: a validator-set switch after Bohr. -/
def ClearsRecents (c : ChainConfig) (block : Header × Snapshot) : Prop :=
  c.isBohr block.1.number block.1.time = true ∧
    block.1.number % block.2.epochLength = block.2.minerHistoryCheckLen

/-- A block that leaves the window as it is or makes it smaller: the turn length stays, the
validator set does not grow, and with a turn length above one its half stays too. The number of
its successor is a `uint64`. -/
structure Regular (p : Parlia) (s : Snapshot) (header : Header) (s' : Snapshot) : Prop where
  advances : ∃ chain parents isSnake8Fork extraHeader,
    p.advance chain parents isSnake8Fork extraHeader s header = .ok s'
  nothing_finalized : s.NothingFinalized p.c header
  turnLength_eq : s'.turnLength = s.turnLength
  size_le : s'.validators.size ≤ s.validators.size
  half_eq : s.turnLength = 1 ∨ s'.validators.size / 2 = s.validators.size / 2
  number_lt : header.number + 1 < 2 ^ 64

/-- What a regular block does to the recent signers. -/
structure RecentsStep (s : Snapshot) (header : Header) (validator : Address) (clears : Prop)
    (s' : Snapshot) : Prop where
  header_number : header.number = s.number + 1
  number : s'.number = s.number + 1
  /-- Entries are the new signer's or were there before, up to the marker of a switch. -/
  sound : ∀ block signer, s'.recents[block]? = some signer → signer ≠ FixedBytes.zero 20 →
    (block = s.number + 1 ∧ signer = validator) ∨ s.recents[block]? = some signer
  /-- Inside the new window nothing is lost. -/
  kept : ¬clears → ∀ block, 0 < block → block ≤ s.number + 1 →
    s.number + 1 ≤ block + s'.minerHistoryCheckLen →
    s'.recents[block]? = if block = s.number + 1 then some validator else s.recents[block]?

namespace Regular

variable {p : Parlia} {s s' : Snapshot} {hd : Header}

/-- Before Bohr a switch removes entries only, and with a window that is no larger than the old
one only entries outside the new window. -/
theorem getElem?_switchRecents {c : ChainConfig} {x : Snapshot} {epochKey newSize block : ℕ}
    (hbohr : c.isBohr hd.number hd.time = false)
    (hhalf : x.turnLength = 1 ∨ newSize / 2 = x.validators.size / 2)
    (hlimit : (x.validators.size / 2 + 1) * x.turnLength < 2 ^ 64) (hblock : block ≤ hd.number)
    (hwindow : hd.number < block + (newSize / 2 + 1) * x.turnLength) :
    (x.switchRecents c hd epochKey newSize)[block]? = x.recents[block]? := by
  unfold switchRecents
  rw [if_neg (by simp [hbohr])]
  apply getElem?_foldl_erase_of_ne
  intro i hi
  have hi := mem_range.mp hi
  rcases hhalf with hone | hhalf
  · rw [hone, mul_one] at hwindow hlimit
    exact sub64_sub64_ne hblock hwindow (by omega)
  · omega

theorem step (h : Regular p s hd s') (hpos : 0 < s.turnLength)
    (hlimit : (s.validators.size / 2 + 1) * s.turnLength < 2 ^ 64) :
    ∃ val, ecrecover p.k hd = .ok val ∧ RecentsStep s hd val (ClearsRecents p.c (hd, s)) s' := by
  have hle := minerHistoryCheckLen_le hpos h.turnLength_eq h.size_le
  have hlen' := minerHistoryCheckLen_succ (s := s') (h.turnLength_eq ▸ hpos)
  have hlen := minerHistoryCheckLen_succ hpos
  obtain ⟨chain, ps, fork, extraHeader, hadvance⟩ := h.advances
  obtain ⟨hnumber, -, y, frequencyRLP, hy, heq⟩ := Parlia.advance_ok hadvance
  obtain ⟨val, hsigner, -, -, hchange⟩ := applyHeader_eq_ok hy
  have hrecents : s'.recents = y.recents := by rw [heq]
  have hvalidators : s'.validators = y.validators := by rw [heq]
  have hx := recorded p.c { s with isSnake8Fork := fork }.copy hd val
  have hfinal : { s with isSnake8Fork := fork }.copy.NothingFinalized p.c hd :=
    h.nothing_finalized
  have hlimit' : { s with isSnake8Fork := fork }.copy.minerHistoryCheckLen + 1 < 2 ^ 64 :=
    show s.minerHistoryCheckLen + 1 < 2 ^ 64 by omega
  have hentry : ∀ block, 0 < block → _ :=
    fun block hpos => getElem?_recorded hfinal hlimit' val hpos
  -- `x` is the snapshot with the block recorded, before the val set is looked at
  generalize (({ s with isSnake8Fork := fork }.copy.expire hd.number).recordBlock p.c
    hd val).updateEpochLength p.c hd = x at hchange hx hentry
  refine ⟨val, hsigner, hnumber, by rw [heq], fun block signer hlookup hne => ?_,
    fun hclears block hpos hblock hwindow => ?_⟩
  · have hrecorded : x.recents[block]? = some signer := by
      rw [hrecents] at hlookup
      rcases changeValidators_ok hchange with ⟨rfl, -⟩ | ⟨-, checkpoint, -, ⟨hswitch⟩⟩
      · exact hlookup
      · rw [hswitch.eq, installValidators, switchRecents] at hlookup
        split_ifs at hlookup
        · rw [Std.ExtTreeMap.getElem?_insert] at hlookup
          split_ifs at hlookup
          · exact absurd (Option.some.inj hlookup).symm hne
          · simp at hlookup
        · exact (getElem?_foldl_erase hlookup).2
    rcases hx.recents block signer hrecorded with rfl | hold
    · rw [hentry hd.number (by omega), if_pos rfl] at hrecorded
      exact .inl ⟨hnumber, (Option.some.inj hrecorded).symm⟩
    · rw [getElem?_expire hlimit'] at hold
      split_ifs at hold
      exact .inr hold
  · have hrecorded : x.recents[block]? =
        if block = s.number + 1 then some val else s.recents[block]? := by
      rw [hentry block hpos, hnumber]
      have hinside : ¬block + (s.minerHistoryCheckLen + 1) = s.number + 1 := by omega
      exact if_congr Iff.rfl rfl (if_neg hinside)
    rw [← hrecorded, hrecents]
    rcases changeValidators_ok hchange with ⟨rfl, -⟩ | ⟨hmod, checkpoint, -, ⟨hswitch⟩⟩
    · rfl
    · have hbohr : p.c.isBohr hd.number hd.time = false := by
        rw [Bool.eq_false_iff]
        exact fun hbohr => hclears ⟨hbohr, hmod.trans hx.minerHistoryCheckLen⟩
      have hnewVals : s'.validators = hswitch.newVals :=
        hvalidators.trans (congrArg validators hswitch.eq)
      have hhalf := h.half_eq
      rw [hnewVals] at hhalf hlen'
      rw [congrArg recents hswitch.eq]
      refine getElem?_switchRecents hbohr ?_ ?_ (hnumber ▸ hblock) ?_
      · rw [hx.validators, hx.turnLength]
        exact hhalf
      · rw [hx.validators, hx.turnLength]
        exact hlimit
      · rw [hx.turnLength]
        show hd.number < block + (hswitch.newVals.size / 2 + 1) * s.turnLength
        rw [h.turnLength_eq] at hlen'
        omega

end Regular

/-! ## Whole runs -/

/-- The recent signers against the blocks `H` added since `s₀`. -/
structure Tracks (p : Parlia) (s₀ : Snapshot) (H : List (Header × Snapshot)) (s : Snapshot) :
    Prop where
  turnLength_eq : s.turnLength = s₀.turnLength
  size_le : s.validators.size ≤ s₀.validators.size
  number : s.number = s₀.number + H.length
  numbers : ∀ i b, H[i]? = some b → b.1.number + i = s.number
  /-- The signer of each block of the window is recorded, back to the last clearing. -/
  complete : ∀ i b, H[i]? = some b → i ≤ s.minerHistoryCheckLen →
    (∀ x ∈ H.take (i + 1), ¬ClearsRecents p.c x) →
    ∀ signer, ecrecover p.k b.1 = .ok signer → s.recents[b.1.number]? = some signer
  /-- What is recorded was signed, or was there at the start. -/
  sound : ∀ block signer, s.recents[block]? = some signer → signer ≠ FixedBytes.zero 20 →
    (∃ b ∈ H, b.1.number = block ∧ ecrecover p.k b.1 = .ok signer) ∨
      s₀.recents[block]? = some signer

namespace Tracks

variable {p : Parlia} {s₀ s s' : Snapshot} {hd : Header} {H : List (Header × Snapshot)}

theorem start : Tracks p s₀ [] s₀ where
  turnLength_eq := rfl
  size_le := le_refl _
  number := rfl
  numbers i b h := by simp at h
  complete i b h := by simp at h
  sound block signer h _ := .inr h

theorem next (h : Tracks p s₀ H s) (hstep : Regular p s hd s') (hpos : 0 < s₀.turnLength)
    (hlimit : (s₀.validators.size / 2 + 1) * s₀.turnLength < 2 ^ 64) :
    Tracks p s₀ ((hd, s) :: H) s' := by
  have hpos' : 0 < s.turnLength := h.turnLength_eq ▸ hpos
  have hlimit' : (s.validators.size / 2 + 1) * s.turnLength < 2 ^ 64 := by
    rw [h.turnLength_eq]
    exact (Nat.mul_le_mul_right _ (Nat.succ_le_succ (Nat.div_le_div_right h.size_le))).trans_lt
      hlimit
  have hle := minerHistoryCheckLen_le hpos' hstep.turnLength_eq hstep.size_le
  obtain ⟨val, hsigner, hrecents⟩ := hstep.step hpos' hlimit'
  refine ⟨hstep.turnLength_eq.trans h.turnLength_eq, hstep.size_le.trans h.size_le, ?_, ?_, ?_, ?_⟩
  · rw [hrecents.number, h.number, length_cons]
    rfl
  · intro i b hb
    rw [hrecents.number]
    cases i with
    | zero =>
      obtain rfl := Option.some.inj hb
      exact hrecents.header_number
    | succ i =>
      have := h.numbers i b hb
      omega
  · intro i b hb hi hclears signer hsigned
    have hkept := hrecents.kept (hclears _ (by simp))
    cases i with
    | zero =>
      obtain rfl := Option.some.inj hb
      have hnumber := hrecents.header_number
      rw [hkept hd.number (by omega) hnumber.le (by omega), if_pos hnumber]
      exact congrArg some (Except.ok.inj (hsigner.symm.trans hsigned))
    | succ i =>
      rw [getElem?_cons_succ] at hb
      have hnumber := h.numbers i b hb
      have hpositive : 0 < b.1.number := by
        have hlt := (List.getElem?_eq_some_iff.mp hb).1
        have := h.number
        omega
      rw [hkept b.1.number hpositive (by omega) (by omega), if_neg (by omega)]
      refine h.complete i b hb (by omega) (fun x hx => hclears x ?_) signer hsigned
      rw [take_succ_cons]
      exact mem_cons_of_mem _ hx
  · intro block signer hlookup hne
    rcases hrecents.sound block signer hlookup hne with ⟨rfl, rfl⟩ | hold
    · exact .inl ⟨(hd, s), mem_cons_self, hrecents.header_number, hsigner⟩
    · rcases h.sound block signer hold hne with ⟨b, hb, hblock⟩ | hstart
      · exact .inl ⟨b, mem_cons_of_mem _ hb, hblock⟩
      · exact .inr hstart

theorem of_run {step : List (Header × Snapshot) → Snapshot → Header → Snapshot → Prop}
    (hregular : ∀ H s hd s', step H s hd s' → Regular p s hd s')
    (hpos : 0 < s₀.turnLength) (hlimit : (s₀.validators.size / 2 + 1) * s₀.turnLength < 2 ^ 64)
    (hrun : Run step s₀ H s) : Tracks p s₀ H s := by
  induction hrun with
  | start => exact start
  | next before h ih => exact ih.next (hregular _ _ _ _ h) hpos hlimit

/-- Block numbers do not repeat. -/
theorem nodup_numbers (h : Tracks p s₀ H s) : (H.map fun b => b.1.number).Nodup := by
  rw [List.Nodup, pairwise_iff_getElem]
  intro i j hi hj hij heq
  rw [length_map] at hi hj
  rw [List.getElem_map, List.getElem_map] at heq
  have hi' := h.numbers i H[i] (getElem?_eq_getElem hi)
  have hj' := h.numbers j H[j] (getElem?_eq_getElem hj)
  omega

end Tracks

namespace Snapshot

theorem mem_recentBlocks {s : Snapshot} {val : Address} {block : ℕ}
    (hne : val ≠ FixedBytes.zero 20) : block ∈ s.recentBlocks val ↔
      s.recents[block]? = some val ∧ 0 < block ∧ s.number < block + s.minerHistoryCheckLen := by
  unfold recentBlocks
  simp only [List.mem_map, List.mem_filter, decide_eq_true_eq, Prod.exists,
    mem_toList_iff_getElem?_eq_some]
  constructor
  · rintro ⟨block, signer, ⟨hmem, hleft, -, rfl⟩, rfl⟩
    refine ⟨hmem, ?_⟩
    split_ifs at hleft <;> omega
  · rintro ⟨hmem, hpos, hleft⟩
    refine ⟨block, val, ⟨hmem, ?_, hne, rfl⟩, rfl⟩
    split_ifs <;> omega

theorem nodup_recentBlocks (s : Snapshot) (val : Address) : (s.recentBlocks val).Nodup := by
  have hkeys : (s.recents.toList.map Prod.fst).Nodup := by
    rw [map_fst_toList_eq_keys]
    exact nodup_keys
  exact hkeys.sublist (List.Sublist.map _ filter_sublist)

end Snapshot

theorem Tracks.recentBlocks_length {p : Parlia} {s₀ s : Snapshot}
    {H : List (Header × Snapshot)} (h : Tracks p s₀ H s) (hgenesis : s₀.number = 0)
    (hempty : s₀.recents = ∅) (hclears : ∀ b ∈ H, ¬ClearsRecents p.c b) {val : Address}
    (hne : val ≠ FixedBytes.zero 20) : (s.recentBlocks val).length =
      signedCount p.k val ((H.map Prod.fst).take s.minerHistoryCheckLen) := by
  have hnodup : ((((H.map Prod.fst).take s.minerHistoryCheckLen).filter fun hd =>
      ecrecover p.k hd = .ok val).map Header.number).Nodup := by
    have hall : ((H.map Prod.fst).map Header.number).Nodup := by
      rw [List.map_map]
      exact h.nodup_numbers
    exact hall.sublist ((filter_sublist.trans (take_sublist _ _)).map _)
  have hlength := h.number
  rw [hgenesis, zero_add] at hlength
  have hperm := (perm_ext_iff_of_nodup (s.nodup_recentBlocks val) hnodup).mpr fun block => by
    rw [mem_recentBlocks hne]
    simp only [List.mem_map, List.mem_filter, decide_eq_true_eq, List.mem_take_iff_getElem,
      List.getElem_map, length_map]
    constructor
    · rintro ⟨hentry, hpos, hwindow⟩
      rcases h.sound block val hentry hne with ⟨b, hb, rfl, hsigned⟩ | hstart
      · obtain ⟨i, hi, rfl⟩ := getElem_of_mem hb
        have hnumber := h.numbers i _ (getElem?_eq_getElem hi)
        exact ⟨H[i].1, ⟨⟨i, by omega, rfl⟩, hsigned⟩, rfl⟩
      · rw [hempty] at hstart
        simp at hstart
    · rintro ⟨hd, ⟨⟨i, hi, rfl⟩, hsigned⟩, rfl⟩
      have hi' : i < H.length := by omega
      have hnumber := h.numbers i _ (getElem?_eq_getElem hi')
      refine ⟨?_, by omega, by omega⟩
      exact h.complete i _ (getElem?_eq_getElem hi') (by omega)
        (fun x hx => hclears x (mem_of_mem_take hx)) val hsigned
  rw [hperm.length_eq, length_map, signedCount, countP_eq_length_filter]

/-- A regular block before Bohr. -/
def RegularBeforeBohr (p : Parlia) (_ : List (Header × Snapshot)) (s : Snapshot) (header : Header)
    (s' : Snapshot) : Prop :=
  Regular p s header s' ∧ p.c.isBohr header.number header.time = false

/-- **Recent signers before Bohr.** On every chain of regular blocks above the genesis block, a
validator with fewer than 256 blocks in the window has signed recently exactly if it signed
`turnLength` of them. -/
theorem signRecently_iff_signedCount {p : Parlia} {s₀ s : Snapshot}
    {H : List (Header × Snapshot)} (hrun : Run (RegularBeforeBohr p) s₀ H s)
    (hgenesis : s₀.number = 0) (hempty : s₀.recents = ∅) (hpos : 0 < s₀.turnLength)
    (hlimit : (s₀.validators.size / 2 + 1) * s₀.turnLength < 2 ^ 64) {validator : Address}
    (hne : validator ≠ FixedBytes.zero 20)
    (hcount : signedCount p.k validator ((H.map Prod.fst).take s.minerHistoryCheckLen) < 256) :
    s.signRecently validator = true ↔ s.turnLength ≤
        signedCount p.k validator ((H.map Prod.fst).take s.minerHistoryCheckLen) := by
  have htracks : Tracks p s₀ H s := .of_run (fun _ _ _ _ h => h.1) hpos hlimit hrun
  have hclears : ∀ b ∈ H, ¬ClearsRecents p.c b := by
    clear htracks hcount
    induction hrun with
    | start => simp
    | next before h ih =>
      intro b hb hclears
      rcases mem_cons.mp hb with rfl | hb
      · exact Bool.false_ne_true (h.2.symm.trans hclears.1)
      · exact ih b hb hclears
  have hlength := htracks.recentBlocks_length hgenesis hempty hclears hne
  have hturn : 0 < s.turnLength := htracks.turnLength_eq ▸ hpos
  unfold signRecently
  simp only [Bool.and_eq_true, decide_eq_true_eq, Bool.not_eq_true', isEmpty_eq_false_iff]
  rw [hlength, Nat.mod_eq_of_lt hcount]
  constructor
  · exact And.right
  · intro hle
    refine ⟨fun hnil => ?_, hle⟩
    rw [hnil, length_nil] at hlength
    omega

namespace Sample

/-- The snapshot after one more block, as long as the block is accepted. -/
def after (s : Snapshot) (h : Header) : Snapshot :=
  match engine.advance (chain []) [] false none s h with
  | .ok s' => s'
  | .error _ => s

theorem regular_block1 : RegularBeforeBohr engine [] genesisSnap block1
    (after genesisSnap block1) := by
  refine ⟨⟨⟨chain [], [], false, none, ?_⟩, .inl ?_, ?_, ?_, ?_, ?_⟩, ?_⟩ <;> decide +kernel

theorem regular_block2 : RegularBeforeBohr engine [(block1, genesisSnap)]
    (after genesisSnap block1) block2
    (after (after genesisSnap block1) block2) := by
  refine ⟨⟨⟨chain [], [], false, none, ?_⟩, .inl ?_, ?_, ?_, ?_, ?_⟩, ?_⟩ <;> decide +kernel

/-- Snake8 from the genesis block on, epochs of 150 blocks. -/
def snake8Engine : Parlia where
  k := crypto
  c := { (default : ChainConfig) with epoch := 150, epoch_pos := by decide, snake8Time := some 0 }
  fullImmutabilityThreshold := 90000
  fakeDiff := false

/-- Four validators. -/
def fourGenesis : Header := { genesis with
  extra := vanity ++ ((addr 1).bytes ++ (addr 2).bytes ++ (addr 3).bytes ++ (addr 4).bytes ++
    sealOf (addr 0)) }

def fourSnap : Snapshot := snake8Engine.imposeSnake8 true none
  (.newSnapshot snake8Engine.c 0 (crypto.hash fourGenesis) [addr 1, addr 2, addr 3, addr 4] [] true)

/-- The signers of 299 blocks; none signs more than fifty of any 150 consecutive blocks. -/
def turns : List Address :=
  List.replicate 50 (addr 1) ++ List.replicate 50 (addr 2) ++ List.replicate 50 (addr 3) ++
    List.replicate 50 (addr 1) ++ List.replicate 48 (addr 4) ++ List.replicate 50 (addr 2) ++
    [addr 3]

/-- A block on top of block `n`; block 150 announces two validators. -/
def turnBlock (n : ℕ) (parentSigner signer : Address) : Header :=
  { (default : Header) with
    parentHash := .ofBytes 32 (1 :: (parentSigner.bytes ++ leBytes 8 n))
    coinbase := signer
    number := n + 1
    extra := vanity ++ ((if n = 149 then (addr 2).bytes ++ (addr 3).bytes else []) ++
      sealOf signer) }

/-- Blocks on top of block `n`, one for each signer. -/
def turnBlocks : ℕ → Address → List Address → List Header
  | _, _, [] => []
  | n, parentSigner, signer :: rest =>
    turnBlock n parentSigner signer :: turnBlocks (n + 1) signer rest

def turnHeaders : List Header := turnBlocks 0 (addr 0) turns

def turnStore : ChainStore := ⟨fourGenesis, rfl, [], fun _ => none⟩

/-- The snapshot of block 299, at which the announced set is installed. -/
def shrunkSnap : Except Err Snapshot :=
  turnHeaders.foldlM (snake8Engine.advance turnStore turnHeaders true none) fourSnap

end Sample

open Sample in
/-- Two blocks above the genesis block; block 1 was signed by validator 2. -/
theorem signRecently_iff_signedCount_sample :
    (after (after genesisSnap block1) block2).signRecently (addr 2) = true ↔
      (after (after genesisSnap block1) block2).turnLength ≤
        signedCount crypto (addr 2)
          (([(block2, after genesisSnap block1), (block1, genesisSnap)].map
          Prod.fst).take (after (after genesisSnap block1) block2).minerHistoryCheckLen) :=
  signRecently_iff_signedCount (.next (.next .start regular_block1) regular_block2) rfl rfl
    (by decide) (by decide +kernel) (by decide) (by decide +kernel)

open Sample in
/-- When four validators become two, the removal forgets block 297, which is well inside the new
window of 99 blocks: validator 2 signed fifty of them and counts as not having signed recently. -/
theorem signRecently_forgets :
    shrunkSnap.map (fun s => (s.turnLength, s.minerHistoryCheckLen, s.signRecently (addr 2))) =
      .ok (50, 99, false) ∧ signedCount crypto (addr 2) (turnHeaders.reverse.take 99) = 50 := by
  -- all 299 headers are applied by the kernel
  constructor <;> decide +kernel

end ChilizChain
