import ChilizChain.Lib.Bytes
import ChilizChain.Params.Config

/-! # Fork identifiers

A node announces the checksum of the forks it has passed and the next one it knows of. The
peer's filter walks the same list of forks, block numbers first and times after them, up to the
first fork that its own head has not passed, and looks for the announced checksum there, before
or after it. -/

namespace ChilizChain.Params

open List Nat

/-- The fork blocks in the order of the configuration's fields. -/
def BlockFork.all : List BlockFork :=
  [.homestead, .daoFork, .eip150, .eip155, .eip158, .byzantium, .constantinople, .petersburg,
   .istanbul, .muirGlacier, .berlin, .yoloV3, .catalyst, .london, .arrowGlacier, .grayGlacier,
   .mergeNetsplit, .runtimeUpgrade, .deployOrigin, .deploymentHookFix, .deployerFactory,
   .ramanujan, .niels, .mirrorSync, .bruno, .euler, .gibbs, .nano, .moran, .planck, .luban,
   .plato, .hertz, .hertzfix]

def TimeFork.all : List TimeFork :=
  [.dragon8, .dragon8Fix, .snake8, .pepper8, .pipe8, .deployerProxySunset, .shanghai, .kepler,
   .feynman, .feynmanFix, .cancun, .haber, .haberFix, .bohr, .pascal, .prague, .lorentz, .maxwell,
   .fermi, .osaka, .mendel, .bpo1, .bpo2, .bpo3, .bpo4, .bpo5, .amsterdam, .pasteur, .verkle]

/-- Drops a fork that stands right after an equal one. -/
def removeRepeated : List ℕ → List ℕ
  | a :: b :: forks =>
    if a = b then removeRepeated (b :: forks) else a :: removeRepeated (b :: forks)
  | forks => forks

/-- `gatherForks`: the forks by block without those of the genesis block, and the forks by time
without those up to the genesis time. -/
def gatherForks (config : ChainConfig) (genesis : ℕ) : List ℕ × List ℕ :=
  let forksByBlock := BlockFork.all.filterMap fun fork => (config.block fork).map toUint64
  let forksByTime := TimeFork.all.filterMap config.time
  let forksByBlock := removeRepeated (forksByBlock.mergeSort (· ≤ ·))
  let forksByTime := removeRepeated (forksByTime.mergeSort (· ≤ ·))
  (if forksByBlock.head? = some 0 then forksByBlock.tail else forksByBlock,
    forksByTime.dropWhile (· ≤ genesis))

structure ID where
  hash : FixedBytes 4
  next : ℕ

structure Genesis where
  hash : FixedBytes 32
  time : ℕ

/-- The two errors of the filter. -/
inductive FilterError
  | errRemoteStale
  | errLocalIncompatibleOrStale
deriving DecidableEq

def timestampThreshold : ℕ := 1438269973
def maxUint64 : ℕ := 2 ^ 64 - 1

/-- `checksumToBytes`. -/
def checksumToBytes (hash : UInt32) : FixedBytes 4 :=
  .ofBytes 4 (Bytes.leBytes 4 hash.toNat).reverse

section

-- `crc32.Update` with the IEEE table.
variable (crc32 : UInt32 → Bytes → UInt32)

def checksumUpdate (hash : UInt32) (fork : ℕ) : UInt32 :=
  crc32 hash (Bytes.leBytes 8 fork).reverse

/-- `crc32.ChecksumIEEE` of the genesis hash. -/
def genesisChecksum (genesis : Genesis) : UInt32 := crc32 0 genesis.hash.bytes

/-- One of the loops of `NewID`: the checksum after the forks that the head has passed, and the
first one that it has not. -/
def passForks (head : ℕ) : UInt32 → List ℕ → UInt32 × Option ℕ
  | hash, [] => (hash, none)
  | hash, fork :: forks =>
    if fork ≤ head then passForks head (checksumUpdate crc32 hash fork) forks
    else (hash, some fork)

def newID (config : ChainConfig) (genesis : Genesis) (head time : ℕ) : ID :=
  let (forksByBlock, forksByTime) := gatherForks config genesis.time
  match passForks crc32 head (genesisChecksum crc32 genesis) forksByBlock with
  | (hash, some fork) => ⟨checksumToBytes hash, fork⟩
  | (hash, none) =>
    match passForks crc32 time hash forksByTime with
    | (hash, some fork) => ⟨checksumToBytes hash, fork⟩
    | (hash, none) => ⟨checksumToBytes hash, 0⟩

/-- The checksums before, between and after a list of forks. -/
def checksums (hash : UInt32) (forks : List ℕ) : List (FixedBytes 4) :=
  (forks.scanl (checksumUpdate crc32) hash).map checksumToBytes

/-- All checksums that a node of this network can announce. -/
def networkSums (config : ChainConfig) (genesis : Genesis) : List (FixedBytes 4) :=
  checksums crc32 (genesisChecksum crc32 genesis)
    ((gatherForks config genesis.time).1 ++ (gatherForks config genesis.time).2)

end

/-- The coordinate of the head that the fork at index `i` is compared with. -/
def headAt (blocks block time i : ℕ) : ℕ := if blocks ≤ i then time else block

/-- The index of the first fork that the head has not passed, in a list that starts at `i`. -/
def firstUnpassed (blocks block time : ℕ) : ℕ → List ℕ → Option ℕ
  | _, [] => none
  | i, fork :: forks =>
    if fork ≤ headAt blocks block time i then firstUnpassed blocks block time (i + 1) forks
    else some i

/-- The rules that the filter applies at the first fork `i` that the head has not passed. -/
def checkAt (sums : List (FixedBytes 4)) (forks : List ℕ) (head time i : ℕ) (id : ID) :
    Option FilterError :=
  if sums[i]? = some id.hash then
    if 0 < id.next ∧ (id.next ≤ head ∨ timestampThreshold < id.next ∧ id.next ≤ time) then
      some .errLocalIncompatibleOrStale
    else none
  else
    match (List.range i).find? fun j => sums[j]? = some id.hash with
    | some j => if forks[j]? = some id.next then none else some .errRemoteStale
    | none =>
      if id.hash ∈ sums.drop (i + 1) then none else some .errLocalIncompatibleOrStale

/-- `newFilter` at the head `(block, time)`; `none` accepts the remote id. -/
def newFilter (crc32 : UInt32 → Bytes → UInt32) (config : ChainConfig) (genesis : Genesis)
    (block time : ℕ) (id : ID) : Option FilterError :=
  let (forksByBlock, forksByTime) := gatherForks config genesis.time
  let sums := networkSums crc32 config genesis
  let forks := forksByBlock ++ forksByTime ++ [maxUint64]
  -- Without forks by time the sentry is compared with the block number.
  let blocks := forksByBlock.length + if forksByTime.isEmpty then 1 else 0
  match firstUnpassed blocks block time 0 forks with
  | some i => checkAt sums forks (headAt blocks block time i) time i id
  -- The code logs that this is impossible, and accepts.
  | none => none

/-! ## Nodes of one network -/

section

variable {crc32 : UInt32 → Bytes → UInt32}

theorem mem_removeRepeated {x : ℕ} : ∀ {forks : List ℕ}, x ∈ removeRepeated forks → x ∈ forks
  | [], h => h
  | [_], h => h
  | a :: b :: forks, h => by
    rw [removeRepeated] at h
    split at h
    · exact mem_cons_of_mem _ (mem_removeRepeated h)
    · rcases mem_cons.mp h with rfl | h
      · exact mem_cons_self
      · exact mem_cons_of_mem _ (mem_removeRepeated h)

theorem mem_gatherForks_fst {config : ChainConfig} {genesis fork : ℕ}
    (h : fork ∈ (gatherForks config genesis).1) : ∃ f, ∃ b ∈ config.block f, toUint64 b = fork := by
  have hmem : fork ∈ BlockFork.all.filterMap fun f => (config.block f).map toUint64 := by
    simp only [gatherForks] at h
    split at h
    · exact mem_mergeSort.mp (mem_removeRepeated (mem_of_mem_tail h))
    · exact mem_mergeSort.mp (mem_removeRepeated h)
  obtain ⟨f, -, hf⟩ := mem_filterMap.mp hmem
  obtain ⟨b, hb, hfork⟩ := Option.map_eq_some_iff.mp hf
  exact ⟨f, b, hb, hfork⟩

/-- What a loop of `NewID` returns: the checksum of a first part of the forks, and the fork right
after it. -/
theorem passForks_spec (crc32 : UInt32 → Bytes → UInt32) (head : ℕ) (hash : UInt32)
    (forks : List ℕ) : ∃ k ≤ forks.length, passForks crc32 head hash forks =
      ((forks.take k).foldl (checksumUpdate crc32) hash, forks[k]?) := by
  induction forks generalizing hash with
  | nil => exact ⟨0, le_rfl, rfl⟩
  | cons fork forks ih =>
    by_cases hpassed : fork ≤ head
    · obtain ⟨k, hk, heq⟩ := ih (checksumUpdate crc32 hash fork)
      exact ⟨k + 1, succ_le_succ hk, by simp [passForks, hpassed, heq]⟩
    · exact ⟨0, zero_le _, by simp [passForks, hpassed]⟩

variable {forks : List ℕ} {k : ℕ}

theorem getElem?_checksums {hash : UInt32} (hk : k ≤ forks.length) :
    (checksums crc32 hash forks)[k]? =
      some (checksumToBytes ((forks.take k).foldl (checksumUpdate crc32) hash)) := by
  simp [checksums, hk]

theorem newID_spec (crc32 : UInt32 → Bytes → UInt32) (config : ChainConfig) (genesis : Genesis)
    (head time : ℕ) {forksByBlock forksByTime : List ℕ}
    (hforks : gatherForks config genesis.time = (forksByBlock, forksByTime)) :
    ∃ k : ℕ, (networkSums crc32 config genesis)[k]? =
        some (newID crc32 config genesis head time).hash ∧
      (newID crc32 config genesis head time).next = (forksByBlock ++ forksByTime)[k]?.getD 0 := by
  obtain ⟨i, hi, hblocks⟩ :=
    passForks_spec crc32 head (genesisChecksum crc32 genesis) forksByBlock
  simp only [newID, networkSums, hforks, hblocks]
  rcases lt_or_eq_of_le hi with hlt | rfl
  · -- The head stops at a fork by block.
    refine ⟨i, ?_, ?_⟩
    · rw [getElem?_checksums (by simp; omega), take_append_of_le_length hi,
        getElem?_eq_getElem hlt]
    · rw [getElem?_append_left hlt, getElem?_eq_getElem hlt]
      rfl
  · obtain ⟨j, hj, htimes⟩ := passForks_spec crc32 time
      (forksByBlock.foldl (checksumUpdate crc32) (genesisChecksum crc32 genesis)) forksByTime
    refine ⟨forksByBlock.length + j, ?_, ?_⟩
    · rw [getElem?_checksums (by simp; omega), take_length_add_append, foldl_append]
      simp only [take_length, getElem?_length, htimes]
      cases forksByTime[j]? <;> rfl
    · rw [getElem?_append_right (Nat.le_add_right _ _), Nat.add_sub_cancel_left]
      simp only [take_length, getElem?_length, htimes]
      cases forksByTime[j]? <;> rfl

variable {i time : ℕ}

theorem firstUnpassed_some {blocks block : ℕ}
    (h : firstUnpassed blocks block time i forks = some k) :
    i ≤ k ∧ ∃ fork, forks[k - i]? = some fork ∧ headAt blocks block time k < fork := by
  induction forks generalizing i with
  | nil => simp [firstUnpassed] at h
  | cons fork forks ih =>
    rw [firstUnpassed] at h
    split at h
    · obtain ⟨hle, next, hnext, hlt⟩ := ih h
      refine ⟨by omega, next, ?_, hlt⟩
      rw [show k - i = k - (i + 1) + 1 by omega]
      exact hnext
    · cases h
      exact ⟨le_rfl, fork, by simp, by omega⟩

theorem firstUnpassed_none {blocks block last : ℕ}
    (h : firstUnpassed blocks block time i (forks ++ [last]) = none) :
    last ≤ headAt blocks block time (i + forks.length) := by
  induction forks generalizing i with
  | nil => simpa [firstUnpassed] using h
  | cons fork forks ih =>
    rw [cons_append, firstUnpassed] at h
    split at h
    · rw [length_cons, add_comm forks.length, ← add_assoc]
      exact ih h
    · cases h

/-- An id that carries the `k`-th checksum and the fork after it passes the rules, wherever the
local head stands. -/
theorem checkAt_accepts {sums : List (FixedBytes 4)} {known : List ℕ} {head : ℕ} {id : ID}
    (hnodup : sums.Nodup) (hsum : sums[k]? = some id.hash) (hnext : id.next = known[k]?.getD 0)
    (hi : i ≤ known.length) (hhead : ∀ fork, known[i]? = some fork → head < fork)
    (htime : ∀ fork, known[i]? = some fork → timestampThreshold < fork → time < fork) :
    checkAt sums (known ++ [maxUint64]) head time i id = none := by
  have hunique : ∀ j : ℕ, sums[j]? = some id.hash → j = k := by
    intro j hj
    obtain ⟨hjlt, hjeq⟩ := List.getElem?_eq_some_iff.mp hj
    obtain ⟨hklt, hkeq⟩ := List.getElem?_eq_some_iff.mp hsum
    exact (hnodup.getElem_inj_iff).mp (hjeq.trans hkeq.symm)
  rw [checkAt]
  split
  · -- The two heads are between the same forks.
    rename_i hsame
    have hik := hunique i hsame
    subst hik
    refine if_neg ?_
    cases hfork : known[i]? with
    | none => simp [hnext, hfork]
    | some fork =>
      have hfork' : id.next = fork := by simp [hnext, hfork]
      rintro ⟨hpos, hle | ⟨hthreshold, hle⟩⟩
      · exact absurd (hhead fork hfork) (by omega)
      · exact absurd (htime fork hfork (by omega)) (by omega)
  · rename_i hdiff
    have hne : k ≠ i := fun h => hdiff (h ▸ hsum)
    split
    · rename_i j hfind
      have hj : j = k := hunique j (by simpa using find?_some hfind)
      have hji : j < i := mem_range.mp (mem_of_find?_eq_some hfind)
      subst hj
      refine if_pos ?_
      rw [getElem?_append_left (by omega), hnext, getElem?_eq_getElem (by omega)]
      rfl
    · -- Not behind, so the remote is ahead.
      rename_i hfind
      have hik : i < k := by
        by_contra hle
        have := find?_eq_none.mp hfind k (mem_range.mpr (by omega))
        simp [hsum] at this
      refine if_pos (mem_iff_getElem?.mpr ⟨k - (i + 1), ?_⟩)
      rw [getElem?_drop, show i + 1 + (k - (i + 1)) = k by omega, hsum]

theorem mem_of_checkAt {sums : List (FixedBytes 4)} {head : ℕ} {id : ID}
    (h : checkAt sums forks head time i id = none) : id.hash ∈ sums := by
  rw [checkAt] at h
  split at h
  · exact mem_of_getElem? ‹_›
  · split at h
    · rename_i j hfind
      exact mem_of_getElem? (by simpa using find?_some hfind)
    · split at h
      · exact mem_of_mem_drop ‹_›
      · cases h

end

/-- Nodes of one network accept each other's ids wherever they stand, and a node accepts no checksum
that is foreign to its network unless its own head has reached the largest number there is. -/
theorem newFilter_network (crc32 : UInt32 → Bytes → UInt32) (config : ChainConfig)
    (genesis : Genesis)
    (hthreshold : ∀ fork, ∀ b ∈ config.block fork, toUint64 b ≤ timestampThreshold)
    (hnodup : (networkSums crc32 config genesis).Nodup) (n₁ t₁ : ℕ) :
    (∀ n₂ t₂, newFilter crc32 config genesis n₁ t₁ (newID crc32 config genesis n₂ t₂) = none) ∧
    ∀ id, newFilter crc32 config genesis n₁ t₁ id = none →
      id.hash ∈ networkSums crc32 config genesis ∨
        maxUint64 ≤ if (gatherForks config genesis.time).2.isEmpty then n₁ else t₁ := by
  rcases hforks : gatherForks config genesis.time with ⟨forksByBlock, forksByTime⟩
  have hlow : ∀ fork ∈ forksByBlock, fork ≤ timestampThreshold := by
    intro fork hfork
    obtain ⟨f, b, hb, rfl⟩ := mem_gatherForks_fst (by rw [hforks]; exact hfork)
    exact hthreshold f b hb
  constructor
  · intro n₂ t₂
    obtain ⟨k, hsum, hnext⟩ := newID_spec crc32 config genesis n₂ t₂ hforks
    simp only [newFilter, hforks]
    split
    · rename_i i hwalk
      obtain ⟨-, fork, hfork, hlt⟩ := firstUnpassed_some hwalk
      rw [Nat.sub_zero] at hfork
      have hi : i ≤ (forksByBlock ++ forksByTime).length := by
        have := (List.getElem?_eq_some_iff.mp hfork).1
        simp only [length_append, length_singleton] at this ⊢
        omega
      have hknown : ∀ next, (forksByBlock ++ forksByTime)[i]? = some next → next = fork := by
        intro next hget
        rw [getElem?_append_left (List.getElem?_eq_some_iff.mp hget).1, hget] at hfork
        exact Option.some.inj hfork
      refine checkAt_accepts hnodup hsum hnext hi (fun next hget => hknown next hget ▸ hlt) ?_
      intro next hget habove
      obtain rfl := hknown next hget
      -- Above the threshold there are only forks by time, compared with the time of the head.
      have hblocks : forksByBlock.length ≤ i := by
        by_contra hlt
        rw [getElem?_append_left (by omega)] at hget
        exact absurd (hlow next (mem_of_getElem? hget)) (by omega)
      have hsome : forksByTime ≠ [] := by
        rintro rfl
        simp [hblocks] at hget
      simpa [headAt, hsome, hblocks] using hlt
    · rfl
  · intro id hid
    simp only [newFilter, hforks] at hid
    split at hid
    · exact .inl (mem_of_checkAt hid)
    · rename_i hwalk
      refine .inr ((firstUnpassed_none hwalk).trans_eq ?_)
      cases forksByTime <;> simp [headAt]

namespace Sample

/-- CRC-32 with the reflected IEEE polynomial, one bit at a time. -/
def crc32 (crc : UInt32) (data : Bytes) : UInt32 :=
  let step (crc : UInt32) : UInt32 :=
    if crc &&& 1 = 1 then (crc >>> 1) ^^^ 0xedb88320 else crc >>> 1
  let byte (crc : UInt32) (v : UInt8) : UInt32 :=
    (List.range 8).foldl (fun crc _ => step crc) (crc ^^^ v.toUInt32)
  (data.foldl byte (crc ^^^ 0xffffffff)) ^^^ 0xffffffff

/-- One fork at block 7 and one at time 100. -/
def forkConfig : ChainConfig := { (default : ChainConfig) with
  block := fun fork => if fork = .homestead then some 7 else none
  time := fun fork => if fork = .snake8 then some 100 else none }

def forkGenesis : Genesis := ⟨.ofBytes 32 [1], 0⟩

end Sample

/-- A node that has passed no fork and one that has passed both. -/
theorem newFilter_network_sample : newFilter Sample.crc32 Sample.forkConfig Sample.forkGenesis 0 0
      (newID Sample.crc32 Sample.forkConfig Sample.forkGenesis 9 120) = none := by
  refine (newFilter_network Sample.crc32 Sample.forkConfig Sample.forkGenesis ?_ ?_ 0 0).1 9 120
  · intro fork b hb
    by_cases h : fork = .homestead <;> simp [Sample.forkConfig, h] at hb
    subst hb
    decide
  · decide +kernel

/-- At the last second that the clock can show every checksum is accepted. -/
theorem foreign_checksum_accepted :
    newFilter Sample.crc32 Sample.forkConfig Sample.forkGenesis 9 maxUint64
      ⟨FixedBytes.zero 4, 0⟩ = none ∧
    FixedBytes.zero 4 ∉ networkSums Sample.crc32 Sample.forkConfig Sample.forkGenesis := by
  decide +kernel

end ChilizChain.Params
