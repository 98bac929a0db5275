import ChilizChain.Parlia.Retrieval

/-! Path independence of snapshots. Before the Snake8 activation time the snapshot of a block
does not depend on which snapshots the engine already has: headers applied one per call, in one
batch from the genesis block, on top of a cached snapshot or of a checkpoint read back from disk
all give the same. A batch that crosses the activation time breaks this: the fork flag is a
parameter of the whole batch, and the turn length of 50 is imposed after `apply`, so how long a
recency window was in force depends on where the batches were cut. -/

namespace ChilizChain

open Stateful Bytes List

/-- A call of `Parlia.snapshot` for the last block of a branch, with the flag and the extra
header of a child of that block. -/
structure Retrieval where
  chain : ChainStore
  branch : List Header
  parents : List Header
  child : Header

namespace Retrieval

variable (p : Parlia) (g : Header)

def run (r : Retrieval) : EngineM Snapshot :=
  p.snapshot r.chain r.branch.length (p.k.hash (tip g r.branch)) r.parents
    (p.c.isSnake8 (tip g r.branch).time) (some r.child)

/-- The engine that a sequence of retrievals leaves behind. -/
def runAll (calls : List Retrieval) (e : Engine) : Engine :=
  calls.foldl (fun e r => (exec (r.run p g) e).2) e

end Retrieval

/-- The blocks of the branch can be found: in the explicit parents and the store, the ancestors
of each block that switches the validator set in the store, and an anchor within reach. -/
structure Grounded (p : Parlia) (g : Header) (hg : g.number = 0) (U : Set Header)
    (anchors : Set Hash) (chain : ChainStore) (H parents : List Header) : Prop where
  within : chain.Within p.k g U
  branch : Branch p.k g U H
  anchored : Anchored p g anchors H
  supplied : Supplied chain H parents
  checkpoints : CheckpointsStored p g hg chain H

variable {p : Parlia} {g : Header} {hg : g.number = 0} {U : Set Header} {anchors A : Set Hash}

theorem Supplied.mem {chain : ChainStore} {H ps : List Header}
    (hsupplied : Supplied chain H ps) : ∀ x ∈ ps, x ∈ H := by
  obtain ⟨F, S, rfl, rfl, -⟩ := hsupplied
  intro x hx
  exact mem_append_left S (mem_reverse.mp hx)

theorem Grounded.of_stored {chain : ChainStore} {H : List Header} (hW : chain.Within p.k g U)
    (hH : Branch p.k g U H) (hstored : ∀ x ∈ H, x ∈ chain.headers)
    (hlength : H.length ≤ p.fullImmutabilityThreshold) : Grounded p g hg U A chain H [] where
  within := hW
  branch := hH
  anchored := ⟨H, [], (append_nil H).symm, hlength, .inl rfl⟩
  supplied := ⟨[], H, rfl, rfl, hstored⟩
  checkpoints _ _ hsuffix _ _ _ x hx :=
    hstored x (hsuffix.subset (mem_cons_of_mem _ hx))

theorem Grounded.snapshot_answers (hU : BeforeSnake8 p g U) {chain : ChainStore}
    {H ps : List Header} (h : Grounded p g hg U A chain H ps)
    (extraHeader : Option Header) : Answers (Consistent p g hg U A)
      (p.snapshot chain H.length (p.k.hash (tip g H)) ps false extraHeader) (canonical p g hg H) :=
  ChilizChain.snapshot_answers hU h.within h.branch h.anchored (fun _ => h.supplied)
    (fun x hx => h.branch.mem_of_mem x (h.supplied.mem x hx)) h.checkpoints extraHeader

theorem Grounded.run_answers (hU : BeforeSnake8 p g U) {r : Retrieval}
    (hr : Grounded p g hg U A r.chain r.branch r.parents) :
    Answers (Consistent p g hg U A) (r.run p g) (canonical p g hg r.branch) := by
  unfold Retrieval.run
  rw [hU.inactive _ (hr.branch.tip_mem hU.genesis_mem)]
  exact hr.snapshot_answers hU (some r.child)

theorem Consistent.runAll (hU : BeforeSnake8 p g U) {calls : List Retrieval} {e : Engine}
    (he : Consistent p g hg U A e)
    (hcalls : ∀ r ∈ calls, Grounded p g hg U A r.chain r.branch r.parents) :
    Consistent p g hg U A (Retrieval.runAll p g calls e) := by
  induction calls generalizing e with
  | nil => exact he
  | cons r calls ih =>
    have hr := (hcalls r mem_cons_self).run_answers hU
    exact ih (hr e he).2 fun r' hr' => hcalls r' (mem_cons_of_mem r hr')

/-- **Path independence before the activation time.** Two engines with correct snapshots, after
any two sequences of retrievals on grounded branches, answer alike for the same block. -/
theorem snapshot_path_independent (hU : BeforeSnake8 p g U) {e e' : Engine}
    (he : Consistent p g hg U anchors e) (he' : Consistent p g hg U anchors e')
    {calls calls' : List Retrieval}
    (hcalls : ∀ r ∈ calls, Grounded p g hg U anchors r.chain r.branch r.parents)
    (hcalls' : ∀ r ∈ calls', Grounded p g hg U anchors r.chain r.branch r.parents)
    {r r' : Retrieval} (hr : Grounded p g hg U anchors r.chain r.branch r.parents)
    (hr' : Grounded p g hg U anchors r'.chain r'.branch r'.parents)
    (hblock : r.branch = r'.branch) : (exec (r.run p g) (Retrieval.runAll p g calls e)).1 =
      (exec (r'.run p g) (Retrieval.runAll p g calls' e')).1 := by
  rw [(hr.run_answers hU _ (he.runAll hU hcalls)).1,
    (hr'.run_answers hU _ (he'.runAll hU hcalls')).1, hblock]

/-! ## A small chain -/

namespace Sample

def addr (b : UInt8) : Address := .ofBytes 20 [b]

/-- Primitives that behave like the real ones on the headers below: their hashes differ, and the
signer is written into the seal. -/
def crypto : Crypto where
  hash h := .ofBytes 32 (1 :: (h.coinbase.bytes ++ leBytes 8 h.number))
  sealHash _ := default
  recover _ sig := some (.ofBytes 20 (sig.take 20))
  sha256 _ := default
  shuffle _ n := List.range n
  voteHash _ := default
  validBLSKey _ := true
  validBLSSignature _ := true
  fastAggregateVerify _ _ _ := true
  emptyUncleHash := default
  emptyWithdrawalsHash := default

def vanity : Bytes := List.replicate 32 0

def sealOf (signer : Address) : Bytes := signer.bytes ++ List.replicate 45 0

/-- Three validators. -/
def genesis : Header := { (default : Header) with
  difficulty := some 1
  gasLimit := 40000000
  extra := vanity ++ ((addr 1).bytes ++ (addr 2).bytes ++ (addr 3).bytes ++ sealOf (addr 0)) }

def child (parent : Header) (signer : Address) (content : Bytes) : Header :=
  { (default : Header) with
    parentHash := crypto.hash parent
    coinbase := signer
    difficulty := some 2
    number := parent.number + 1
    gasLimit := 40000000
    time := parent.time + 3
    extra := vanity ++ (content ++ sealOf signer) }

def frequencySection (parent : Header) (freq : Bytes) : Bytes :=
  validatorFrequencyDataPrefix ++ (leBytes 8 parent.time ++ freq)

def block1 : Header := child genesis (addr 2) []
def block2 : Header := child block1 (addr 3) []
def block3 : Header := child block2 (addr 1) []
def block4 : Header := child block3 (addr 2) []
def block5 : Header := child block4 (addr 1) (frequencySection block4 [])
def block6 : Header := child block5 (addr 1) (frequencySection block5 [])

/-- An engine for which Snake8 activates with block 4. -/
def engine : Parlia where
  k := crypto
  c := { (default : ChainConfig) with snake8Time := some 12 }
  fullImmutabilityThreshold := 90000
  fakeDiff := false

def chain (headers : List Header) : ChainStore := ⟨genesis, rfl, headers, fun _ => none⟩

/-- The snapshot of the genesis block. -/
def genesisSnap : Snapshot :=
  .newSnapshot engine.c 0 (crypto.hash genesis) [addr 1, addr 2, addr 3] [] false

/-- The verdicts on a chain of headers, each verified with the ones before it in the store. -/
def verdicts (stored : List Header) : List Header → Engine → List (Except Err Unit)
  | [], _ => []
  | h :: rest, e =>
    let r := exec (engine.verifyHeader (chain stored) 100 h []) e
    r.1 :: verdicts (stored ++ [h]) rest r.2

/-- The headers before the activation. -/
def early : Set Header := { h | h ∈ [genesis, block1, block2] }

theorem early_beforeSnake8 : BeforeSnake8 engine genesis early where
  genesis_number := rfl
  genesis_mem := mem_cons_self
  hash_injOn := by
    show ∀ x ∈ [genesis, block1, block2], ∀ y ∈ [genesis, block1, block2], _ → _
    decide
  number_lt := by
    show ∀ x ∈ [genesis, block1, block2], _
    decide
  time_le := by
    show ∀ x ∈ [genesis, block1, block2], ∀ y ∈ [genesis, block1, block2], _ → _
    decide
  inactive := by
    show ∀ x ∈ [genesis, block1, block2], _
    decide
  embedded h hmem ts hts := by
    have hnone : ∀ x ∈ [genesis, block1, block2],
        extractSnake8ParentTimestamp x engine.c = none := by decide +kernel
    rw [hnone h hmem] at hts
    cases hts
  turnLength_ne_zero h _ epochLength := by
    rw [parseTurnLength_of_not_isBohr rfl]
    simp

/-- What a node holds that has passed the activation. -/
def fiveBlocks : List Header := [block1, block2, block3, block4, block5]

theorem early_within : (chain fiveBlocks).Within crypto genesis early where
  genesis_eq := rfl
  mem := by
    show ∀ h ∈ fiveBlocks, ∀ x ∈ [genesis, block1, block2], _ → h ∈ [genesis, block1, block2]
    decide

theorem early_branch : Branch crypto genesis early [block2, block1] :=
  .block (.block .genesis (show block1 ∈ [genesis, block1, block2] by simp) rfl rfl)
    (show block2 ∈ [genesis, block1, block2] by simp) rfl rfl

def retrieval (headers branch : List Header) (next : Header) : Retrieval :=
  ⟨chain headers, branch, [], next⟩

theorem early_grounded {H : List Header} (hH : Branch crypto genesis early H)
    (hmem : ∀ x ∈ H, x ∈ fiveBlocks) (hlength : H.length ≤ 2) :
    Grounded engine genesis rfl early ∅ (chain fiveBlocks) H [] :=
  .of_stored early_within hH hmem (hlength.trans (by decide))

end Sample

open Sample in
/-- Block 2 after block 1 was retrieved, and right away, by a node that holds five blocks. -/
theorem snapshot_path_independent_sample :
    (exec ((retrieval fiveBlocks [block2, block1] block3).run engine genesis)
      (Retrieval.runAll engine genesis [retrieval fiveBlocks [block1] block2] Engine.fresh)).1 =
    (exec ((retrieval fiveBlocks [block2, block1] block3).run engine genesis)
      (Retrieval.runAll engine genesis [] Engine.fresh)).1 :=
  snapshot_path_independent early_beforeSnake8 .fresh .fresh
    (by
      intro r hr
      obtain rfl := List.mem_singleton.mp hr
      exact early_grounded early_branch.tail (by simp [retrieval, fiveBlocks]) (by decide))
    (by simp) (early_grounded early_branch (by simp [retrieval, fiveBlocks]) (by decide))
    (early_grounded early_branch (by simp [retrieval, fiveBlocks]) (by decide)) rfl

open Sample in
/-- Across the activation the snapshot of block 5 depends on the path: with every intermediate
snapshot cached, blocks 3, 4 and 5 are in its recency window; in one batch from the genesis
block, blocks 4 and 5 are. All five headers are accepted. -/
theorem snapshot_path_dependent_across_snake8 :
    (let block5Retrieval := retrieval fiveBlocks [block5, block4, block3, block2, block1] block6
     let warm := Retrieval.runAll engine genesis
        [retrieval fiveBlocks [block1] block2, retrieval fiveBlocks [block2, block1] block3,
          retrieval fiveBlocks [block3, block2, block1] block4,
          retrieval fiveBlocks [block4, block3, block2, block1] block5] Engine.fresh
     verdicts [] fiveBlocks Engine.fresh = List.replicate 5 (.ok ()) ∧
     (exec (block5Retrieval.run engine genesis) warm).1.map (·.recents.toList) =
        .ok [(3, addr 1), (4, addr 2), (5, addr 1)] ∧
     (exec (block5Retrieval.run engine genesis) Engine.fresh).1.map (·.recents.toList) =
        .ok [(4, addr 2), (5, addr 1)]) := by
  decide +kernel

end ChilizChain
