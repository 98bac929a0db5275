import ChilizChain.Parlia.Attestation
import ChilizChain.Parlia.Chain
import ChilizChain.Parlia.PathIndependence

/-! Fast finality along one chain. Every accepted attestation starts at the block that was
justified before it, so justified and finalized blocks only move forward. -/

namespace ChilizChain

open Stateful List

/-! ## What a header does to the attestation -/

/-- The attestation after `data` was accepted on top of `previous`: the finalized block moves only
if the target is the child of the source. -/
def VoteData.onTop (data : VoteData) : Option VoteData → VoteData
  | some previous =>
    if data.sourceNumber + 1 ≠ data.targetNumber then
      { previous with targetNumber := data.targetNumber, targetHash := data.targetHash }
    else data
  | none => data

namespace Snapshot

theorem updateAttestation_cases (c : ChainConfig) (s : Snapshot) (hd : Header) :
    (s.updateAttestation c hd).attestation = s.attestation ∨
    ∃ a, getVoteAttestationFromHeader hd c s.epochLength = .ok (some a) ∧
      (s.updateAttestation c hd).attestation = some (a.data.onTop s.attestation) := by
  unfold updateAttestation
  split
  · exact .inl rfl
  · split
    · exact .inl rfl
    · exact .inl rfl
    · rename_i a hget
      dsimp only
      split
      · exact .inl rfl
      · refine .inr ⟨a, hget, ?_⟩
        split
        · rename_i previous hprevious
          rw [hprevious, VoteData.onTop]
          split <;> rfl
        · rename_i hnone
          rw [hnone]
          rfl

end Snapshot

section Branches

variable {p : Parlia} {g : Header} {U : Set Header} {hd : Header} {H : List Header}
  {s s' : Snapshot}

variable {a : VoteAttestation}

theorem Accepted.attested (h : Accepted p g U hd H) (hs : Applied p g U H s)
    (hget : getVoteAttestationFromHeader hd p.c s.epochLength = .ok (some a)) :
    Attested p g U hd H s a := by
  obtain ⟨t, attestation, ht, hread, hattested⟩ := h
  obtain ⟨hsame, hepoch⟩ := ht.unique hs
  rw [hepoch, hread] at hget
  have ha := hattested a (Except.ok.inj hget)
  refine ⟨ha.source_lt, ?_, ha.target⟩
  rw [ha.source_eq, justifiedBlock, justifiedBlock, hsame]

theorem Accepted.step (h : Accepted p g U hd H) (hs : Applied p g U H s)
    (hs' : Applied p g U (hd :: H) s') : s'.attestation = s.attestation ∨
    ∃ a, Attested p g U hd H s a ∧ s'.attestation = some (a.data.onTop s.attestation) := by
  obtain ⟨t, ht, hattestation, -⟩ := hs'.of_cons rfl
  obtain ⟨hsame, hepoch⟩ := hs.unique ht
  rw [hattestation, ← hsame]
  rcases t.updateAttestation_cases p.c hd with hkept | ⟨a, hget, htop⟩
  · exact .inl hkept
  · exact .inr ⟨a, h.attested hs (hepoch ▸ hget), htop⟩

/-- The blocks that an attestation names are on the branch. -/
structure OnBranch (k : Crypto) (g : Header) (H : List Header) (data : VoteData) : Prop where
  source_lt : data.sourceNumber < data.targetNumber
  source : ∃ S, S <:+ H ∧ (data.sourceNumber.toNat, data.sourceHash) = blockOf k g S
  target : ∃ T, T <:+ H ∧ (data.targetNumber.toNat, data.targetHash) = blockOf k g T

theorem OnBranch.cons {k : Crypto} {data : VoteData} (h : OnBranch k g H data) :
    OnBranch k g (hd :: H) data := by
  obtain ⟨S, hS, hsource⟩ := h.source
  obtain ⟨T, hT, htarget⟩ := h.target
  exact ⟨h.source_lt, ⟨S, hS.trans (suffix_cons _ _), hsource⟩,
    ⟨T, hT.trans (suffix_cons _ _), htarget⟩⟩

/-- `b` is `a`, or was reached from it: the target is the same or higher, and the source is not
lower. -/
def Advances (a b : VoteData) : Prop :=
  a.sourceNumber ≤ b.sourceNumber ∧
    ((b.targetNumber, b.targetHash) = (a.targetNumber, a.targetHash) ∨
      a.targetNumber < b.targetNumber)

theorem Advances.refl (a : VoteData) : Advances a a := ⟨UInt64.le_refl _, .inl rfl⟩

theorem Advances.trans {a b c : VoteData} (hab : Advances a b) (hbc : Advances b c) :
    Advances a c := by
  refine ⟨UInt64.le_trans hab.1 hbc.1, ?_⟩
  rcases hab.2 with hab | hab <;> rcases hbc.2 with hbc | hbc
  · exact .inl (hbc.trans hab)
  · exact .inr ((Prod.mk.inj hab).1 ▸ hbc)
  · exact .inr ((Prod.mk.inj hbc).1.symm ▸ hab)
  · exact .inr (UInt64.lt_trans hab hbc)

section

variable (ha : Attested p g U hd H s a)
include ha

theorem Attested.source_eq_target {previous : VoteData}
    (hprevious : s.attestation = some previous) :
    a.data.sourceNumber = previous.targetNumber ∧ a.data.sourceHash = previous.targetHash := by
  have hsource := ha.source_eq
  rw [justifiedBlock, hprevious] at hsource
  exact ⟨UInt64.toNat_inj.mp (Prod.mk.inj hsource).1, (Prod.mk.inj hsource).2⟩

theorem Attested.target_suffix :
    ∃ T, T <:+ H ∧ (a.data.targetNumber.toNat, a.data.targetHash) = blockOf p.k g T := by
  obtain ⟨target, T, _, hT, -, htarget, -, -⟩ := ha.target
  exact ⟨target :: T, hT, htarget⟩

theorem Attested.onBranch (hs : ∀ data, s.attestation = some data → OnBranch p.k g H data) :
    OnBranch p.k g H (a.data.onTop s.attestation) := by
  have hdata : OnBranch p.k g H a.data := by
    refine ⟨ha.source_lt, ?_, ha.target_suffix⟩
    rw [ha.source_eq]
    cases hattestation : s.attestation with
    | none => exact ⟨[], nil_suffix, by rw [justifiedBlock, hattestation]; rfl⟩
    | some previous =>
      obtain ⟨T, hT, htarget⟩ := (hs previous hattestation).target
      exact ⟨T, hT, by rw [justifiedBlock, hattestation, ← htarget]⟩
  cases hattestation : s.attestation with
  | none => exact hdata
  | some previous =>
    have hprevious := hs previous hattestation
    unfold VoteData.onTop
    dsimp only
    split
    · have hlt := ha.source_lt
      rw [(ha.source_eq_target hattestation).1] at hlt
      exact ⟨UInt64.lt_trans hprevious.source_lt hlt, hprevious.source, hdata.target⟩
    · exact hdata

theorem Attested.advances {previous : VoteData} (hprevious : s.attestation = some previous)
    (hlt : previous.sourceNumber < previous.targetNumber) :
    Advances previous (a.data.onTop (some previous)) := by
  have hsource := (ha.source_eq_target hprevious).1
  have hnew := ha.source_lt
  rw [hsource] at hnew
  unfold VoteData.onTop
  dsimp only
  split
  · exact ⟨UInt64.le_refl _, .inr hnew⟩
  · exact ⟨hsource ▸ UInt64.le_of_lt hlt, .inr hnew⟩

end

end Branches

/-! ## Whole chains -/

/-- A block whose header `verifyVoteAttestation` accepts, by an engine that holds snapshots from
the genesis block only, and whose snapshot comes from the one of its parent. -/
structure FinalityStep (p : Parlia) (g : Header) (U : Set Header) (H : List (Header × Snapshot))
    (s : Snapshot) (header : Header) (s' : Snapshot) : Prop where
  mem : header ∈ U
  advances : ∃ chain parents isSnake8Fork extraHeader,
    chain.Within p.k g U ∧ (∀ x ∈ parents, x ∈ U) ∧
    p.advance chain parents isSnake8Fork extraHeader s header = .ok s'
  accepted : ∃ chain parents anchors e e', chain.Within p.k g U ∧ (∀ x ∈ parents, x ∈ U) ∧
    (∀ T, T <:+ H.map Prod.fst → Anchored p g anchors T) ∧ Holds p g U anchors e ∧
    exec (p.verifyVoteAttestation chain header parents) e = (.ok (), e')

section Runs

variable {p : Parlia} {g : Header} {U : Set Header} {s₀ s s' : Snapshot} {hd : Header}
  {H : List (Header × Snapshot)}

/-- A snapshot of a branch, and the finality data it carries. -/
structure Finalizing (p : Parlia) (g : Header) (U : Set Header) (H : List Header) (s : Snapshot) :
    Prop where
  branch : Branch p.k g U H
  filed : Filed p g U H s
  onBranch : ∀ data, s.attestation = some data → OnBranch p.k g H data

theorem FinalityStep.branch (h : FinalityStep p g U H s hd s')
    (hs : Finalizing p g U (H.map Prod.fst) s) : Branch p.k g U (hd :: H.map Prod.fst) := by
  obtain ⟨_, _, _, _, -, -, hadvance⟩ := h.advances
  obtain ⟨hnumber, hparent, -⟩ := Parlia.advance_ok hadvance
  exact .block hs.branch h.mem (hnumber.trans (congrArg (· + 1) hs.filed.number))
    (hparent.trans hs.filed.hash)

theorem Filed.advance (hg : g.number = 0) {chain : ChainStore} (hW : chain.Within p.k g U)
    {ps T : List Header} (hparents : ∀ x ∈ ps, x ∈ U) {isSnake8Fork : Bool}
    {extraHeader : Option Header} (hs : Filed p g U T s) (hH : Branch p.k g U (hd :: T))
    (h : p.advance chain ps isSnake8Fork extraHeader s hd = .ok s') : Filed p g U (hd :: T) s' := by
  obtain ⟨t, ht, rfl⟩ := Except.map_eq_ok_iff.mp h
  have hfiled : Filed p g U ([hd] ++ T) t := hs.apply hg hW hparents hH ht
  exact hfiled.imposeSnake8 _ _

theorem FinalityStep.filed (hg : g.number = 0) (h : FinalityStep p g U H s hd s')
    (hs : Finalizing p g U (H.map Prod.fst) s) : Filed p g U (hd :: H.map Prod.fst) s' := by
  obtain ⟨_, _, _, _, hW, hparents, hadvance⟩ := h.advances
  exact hs.filed.advance hg hW hparents (h.branch hs) hadvance

section Universe

variable (hg : g.number = 0) (hgU : g ∈ U) (hinj : Set.InjOn p.k.hash U)
  (hlt : ∀ x ∈ U, x.number + 1 < 2 ^ 64)
include hg hgU hinj hlt

variable (h₀ : Filed p g U [] s₀) (h : FinalityStep p g U H s hd s')
  (hrun : Run (FinalityStep p g U) s₀ H s) (hs : Finalizing p g U (H.map Prod.fst) s)

include h hs in
theorem FinalityStep.cases : s'.attestation = s.attestation ∨
    ∃ a, Attested p g U hd (H.map Prod.fst) s a ∧
      s'.attestation = some (a.data.onTop s.attestation) := by
  obtain ⟨_, _, _, _, _, hW, hparents, hanchored, he, hexec⟩ := h.accepted
  have haccepted := verifyVoteAttestation_ok hg hgU hinj hlt hW hparents (h.branch hs) hanchored
    he hexec
  exact haccepted.step hs.filed.applied (h.filed hg hs).applied

include hs in
theorem Finalizing.step (h : FinalityStep p g U H s hd s') :
    Finalizing p g U (((hd, s) :: H).map Prod.fst) s' := by
  refine ⟨h.branch hs, h.filed hg hs, fun data hdata => ?_⟩
  rcases h.cases hg hgU hinj hlt hs with hkept | ⟨a, ha, htop⟩
  · exact (hs.onBranch data (hkept ▸ hdata)).cons
  · obtain rfl : a.data.onTop s.attestation = data := Option.some.inj (htop.symm.trans hdata)
    exact (ha.onBranch hs.onBranch).cons

include h₀ hrun in
theorem Finalizing.of_run : Finalizing p g U (H.map Prod.fst) s := by
  induction hrun with
  | start =>
    refine ⟨.genesis, h₀, fun data hdata => ?_⟩
    rw [(h₀.applied.of_nil rfl).1] at hdata
    cases hdata
  | next before h ih => exact ih.step hg hgU hinj hlt h

include h hs in
theorem FinalityStep.advances_attestation {data : VoteData} (hdata : s.attestation = some data) :
    ∃ data', s'.attestation = some data' ∧ Advances data data' := by
  rcases h.cases hg hgU hinj hlt hs with hkept | ⟨a, ha, htop⟩
  · exact ⟨data, hkept.trans hdata, .refl data⟩
  · rw [hdata] at htop
    exact ⟨_, htop, ha.advances hdata (hs.onBranch data hdata).source_lt⟩

include h₀ hrun in
theorem advances_of_run : ∀ entry ∈ H, ∀ data, entry.2.attestation = some data →
      ∃ data', s.attestation = some data' ∧ Advances data data' := by
  induction hrun with
  | start => intro entry hentry; cases hentry
  | next before h ih =>
    have hs := Finalizing.of_run hg hgU hinj hlt h₀ before
    intro entry hentry data hdata
    rcases mem_cons.mp hentry with rfl | hentry
    · exact h.advances_attestation hg hgU hinj hlt hs hdata
    · obtain ⟨middle, hmiddle, hfirst⟩ := ih entry hentry data hdata
      obtain ⟨data', hdata', hsecond⟩ := h.advances_attestation hg hgU hinj hlt hs hmiddle
      exact ⟨data', hdata', hfirst.trans hsecond⟩

end Universe

end Runs

/-- **Finality is monotone.** Along every chain of accepted headers from the genesis block, the
attestation of the last snapshot names two blocks of the chain, the source below the target, and
is reached from the attestation of every snapshot before it: the target is the same or higher,
and the source is not lower. -/
theorem finality_monotone {p : Parlia} {g : Header} {U : Set Header} {s₀ s : Snapshot}
    {H : List (Header × Snapshot)} (hg : g.number = 0) (hgU : g ∈ U)
    (hinj : Set.InjOn p.k.hash U) (hlt : ∀ x ∈ U, x.number + 1 < 2 ^ 64)
    (h₀ : Filed p g U [] s₀) (hrun : Run (FinalityStep p g U) s₀ H s) :
    (∀ data, s.attestation = some data →
      data.sourceNumber < data.targetNumber ∧ data.targetNumber.toNat ≤ s.number ∧
      (∃ T, T <:+ H.map Prod.fst ∧ (data.targetNumber.toNat, data.targetHash) = blockOf p.k g T) ∧
      ∃ S, S <:+ H.map Prod.fst ∧ (data.sourceNumber.toNat, data.sourceHash) = blockOf p.k g S) ∧
    ∀ entry ∈ H, ∀ data, entry.2.attestation = some data →
      ∃ data', s.attestation = some data' ∧ data.sourceNumber ≤ data'.sourceNumber ∧
        ((data'.targetNumber, data'.targetHash) = (data.targetNumber, data.targetHash) ∨
          data.targetNumber < data'.targetNumber) := by
  have hs := Finalizing.of_run hg hgU hinj hlt h₀ hrun
  refine ⟨fun data hdata => ?_, advances_of_run hg hgU hinj hlt h₀ hrun⟩
  have hdata := hs.onBranch data hdata
  obtain ⟨T, hT, htarget⟩ := hdata.target
  refine ⟨hdata.source_lt, ?_, hdata.target, hdata.source⟩
  rw [(Prod.mk.inj htarget).1, hs.filed.number]
  exact hT.length_le

/-! ## Two forks that finalize their first blocks -/

namespace Sample

/-- Luban and Plato from the genesis block on. -/
def lubanEngine : Parlia where
  k := crypto
  c := { (default : ChainConfig) with lubanBlock := some 0, platoBlock := some 0 }
  fullImmutabilityThreshold := 90000
  fakeDiff := false

def voteKey (b : UInt8) : BLSPublicKey := .ofBytes 48 [b]

/-- Two validators with vote keys. -/
def lubanGenesis : Header := { genesis with
  extra := vanity ++ (2 :: ((addr 1).bytes ++ ((voteKey 1).bytes ++ ((addr 2).bytes ++
    ((voteKey 2).bytes ++ sealOf (addr 0)))))) }

/-- An attestation of both validators for the link from `source` to `target`. -/
def votesFor (source target : Header) : Bytes :=
  VoteAttestation.encode ⟨3, default, ⟨UInt64.ofNat source.number, crypto.hash source,
    UInt64.ofNat target.number, crypto.hash target⟩, []⟩

/-- Three blocks, signed by `a`, `b` and `a`; the third one finalizes the first one. -/
def fork1 (a : Address) : Header := child lubanGenesis a []
def fork2 (a b : Address) : Header := child (fork1 a) b (votesFor lubanGenesis (fork1 a))
def fork3 (a b : Address) : Header := child (fork2 a b) a (votesFor (fork1 a) (fork2 a b))

def fork (a b : Address) : List Header := [fork3 a b, fork2 a b, fork1 a]

def forkHeaders : List Header := lubanGenesis :: (fork (addr 1) (addr 2) ++ fork (addr 2) (addr 1))

def forks : Set Header := { h | h ∈ forkHeaders }

def forkStore : ChainStore := ⟨lubanGenesis, rfl, forkHeaders, fun _ => none⟩

theorem forkStore_within {k : Crypto} : forkStore.Within k lubanGenesis forks :=
  .of_subset rfl fun _ hmem => hmem

theorem forks_injOn : Set.InjOn crypto.hash forks := by
  show ∀ x ∈ forkHeaders, ∀ y ∈ forkHeaders, _ → _
  decide +kernel

theorem forks_number_lt : ∀ x ∈ forks, x.number + 1 < 2 ^ 64 := by
  show ∀ x ∈ forkHeaders, _
  decide

def lubanSnap : Snapshot :=
  .newSnapshot lubanEngine.c 0 (crypto.hash lubanGenesis) [addr 1, addr 2] [voteKey 1, voteKey 2]
    false

theorem lubanSnap_filed : Filed lubanEngine lubanGenesis forks [] lubanSnap :=
  ⟨.genesis (show lubanEngine.checkpointSnapshot 0 false lubanGenesis (crypto.hash lubanGenesis)
    defaultBlockInterval lubanEngine.c.epoch = .ok lubanSnap by decide +kernel), rfl, rfl⟩

/-- The snapshot after one more block, as long as the block is accepted. -/
def forkAfter (s : Snapshot) (h : Header) : Snapshot :=
  match lubanEngine.advance forkStore [] false none s h with
  | .ok s' => s'
  | .error _ => s

/-- The blocks of a fork with the snapshots they were applied to. -/
def forkRun (a b : Address) : List (Header × Snapshot) :=
  [(fork3 a b, forkAfter (forkAfter lubanSnap (fork1 a)) (fork2 a b)),
    (fork2 a b, forkAfter lubanSnap (fork1 a)), (fork1 a, lubanSnap)]

def forkSnap (a b : Address) : Snapshot :=
  forkAfter (forkAfter (forkAfter lubanSnap (fork1 a)) (fork2 a b)) (fork3 a b)

theorem finalityStep_of_fresh {p : Parlia} {g : Header} {U : Set Header} {chain : ChainStore}
    (hW : chain.Within p.k g U) {H : List (Header × Snapshot)} {s s' : Snapshot} {hd : Header}
    (hmem : hd ∈ U) (hadvance : p.advance chain [] false none s hd = .ok s')
    (haccepted : (exec (p.verifyVoteAttestation chain hd []) Engine.fresh).1 = .ok ())
    (hlength : H.length ≤ p.fullImmutabilityThreshold) :
    FinalityStep p g U H s hd s' where
  mem := hmem
  advances := ⟨chain, [], false, none, hW, by simp, hadvance⟩
  accepted := by
    refine ⟨chain, [], ∅, Engine.fresh, _, hW, by simp, fun T hT => ?_, .fresh,
      Prod.ext haccepted rfl⟩
    refine ⟨T, [], by simp, ?_, .inl rfl⟩
    have hle := hT.length_le
    rw [length_map] at hle
    exact hle.trans hlength

theorem fork_run {a b : Address} (hab : (a, b) ∈ [(addr 1, addr 2), (addr 2, addr 1)]) :
    Run (FinalityStep lubanEngine lubanGenesis forks) lubanSnap (forkRun a b) (forkSnap a b) := by
  have h : ∀ x ∈ [(addr 1, addr 2), (addr 2, addr 1)],
      (∀ entry ∈ forkRun x.1 x.2, entry.1 ∈ forkHeaders ∧
        lubanEngine.advance forkStore [] false none entry.2 entry.1 =
          .ok (forkAfter entry.2 entry.1) ∧
        (exec (lubanEngine.verifyVoteAttestation forkStore entry.1 []) Engine.fresh).1 =
          .ok ()) := by
    decide +kernel
  have hstep : ∀ {H : List (Header × Snapshot)} {s : Snapshot} {hd : Header},
      (hd, s) ∈ forkRun a b → H.length ≤ 3 →
      FinalityStep lubanEngine lubanGenesis forks H s hd (forkAfter s hd) :=
    fun hmem hlength => finalityStep_of_fresh forkStore_within (h (a, b) hab _ hmem).1
      (h (a, b) hab _ hmem).2.1 (h (a, b) hab _ hmem).2.2 (hlength.trans (by decide))
  exact .next (.next (.next .start (hstep (by simp [forkRun]) (by simp)))
    (hstep (by simp [forkRun]) (by simp))) (hstep (by simp [forkRun]) (by simp))

end Sample

open Sample in
/-- Three blocks of one fork: the last snapshot names blocks 1 and 2. -/
theorem finality_monotone_sample : (forkSnap (addr 1) (addr 2)).attestation ≠ none ∧
    (∀ data, (forkSnap (addr 1) (addr 2)).attestation = some data →
      data.sourceNumber < data.targetNumber ∧
      data.targetNumber.toNat ≤ (forkSnap (addr 1) (addr 2)).number ∧
      (∃ T, T <:+ (forkRun (addr 1) (addr 2)).map Prod.fst ∧
        (data.targetNumber.toNat, data.targetHash) = blockOf crypto lubanGenesis T) ∧
      ∃ S, S <:+ (forkRun (addr 1) (addr 2)).map Prod.fst ∧
        (data.sourceNumber.toNat, data.sourceHash) = blockOf crypto lubanGenesis S) :=
  ⟨by decide +kernel, (finality_monotone rfl (show lubanGenesis ∈ forkHeaders by simp [forkHeaders])
    forks_injOn forks_number_lt lubanSnap_filed (fork_run (by simp))).1⟩

end ChilizChain
