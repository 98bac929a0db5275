import ChilizChain.Parlia.Applied

/-! Accepted vote attestations. What `verifyVoteAttestation` has checked when it accepts a header,
said about the branch that the header extends: the source is the justified block of the branch,
the target is one of its last blocks, and a quorum of the validators in force there voted. -/

namespace ChilizChain

open Stateful List Parlia

/-- Number and hash of the block that the snapshot of a branch above `g` justifies. -/
def justifiedBlock (k : Crypto) (g : Header) (s : Snapshot) : ℕ × Hash :=
  match s.attestation with
  | none => (0, k.hash g)
  | some data => (data.targetNumber.toNat, data.targetHash)

/-- The number and the hash of the last block of a branch. -/
def blockOf (k : Crypto) (g : Header) (H : List Header) : ℕ × Hash := (H.length, k.hash (tip g H))

/-- What is known about an attestation that `header` carries on top of the branch `H`, `s` being
a snapshot of the branch. -/
structure Attested (p : Parlia) (g : Header) (U : Set Header) (header : Header) (H : List Header)
    (s : Snapshot) (attestation : VoteAttestation) : Prop where
  source_lt : attestation.data.sourceNumber < attestation.data.targetNumber
  source_eq : (attestation.data.sourceNumber.toNat, attestation.data.sourceHash) =
    justifiedBlock p.k g s
  target : ∃ target T snap, (target :: T) <:+ H ∧
    H.length < (target :: T).length + p.getAncestorGenerationDepth header ∧
    (attestation.data.targetNumber.toNat, attestation.data.targetHash) =
      blockOf p.k g (target :: T) ∧
    Applied p g U T snap ∧ p.checkVotes attestation snap = .ok ()

/-- The header may stand on the branch: it carries no attestation, or a valid one. -/
def Accepted (p : Parlia) (g : Header) (U : Set Header) (header : Header) (H : List Header) :
    Prop :=
  ∃ s attestation, Applied p g U H s ∧
    getVoteAttestationFromHeader header p.c s.epochLength = .ok attestation ∧
    ∀ a ∈ attestation, Attested p g U header H s a

section Verification

variable {p : Parlia} {g : Header} {U : Set Header} {A : Set Hash} {chain : ChainStore}
  {hd : Header} {H ps : List Header}

theorem findTarget_eq (hg : g.number = 0) (hgU : g ∈ U) (hinj : Set.InjOn p.k.hash U)
    (hlt : ∀ x ∈ U, x.number + 1 < 2 ^ 64) (hW : chain.Within p.k g U) {targetNumber : ℕ}
    {targetHash : Hash} {ancestor : Header} {rest : List Header} :
    ∀ (depth : ℕ) {T ps : List Header}, Branch p.k g U T → (∀ x ∈ ps, x ∈ U) →
      p.findTarget chain targetNumber targetHash depth (tip g T) ps = .ok (some (ancestor, rest)) →
      ∃ S, S <:+ T ∧ T.length < S.length + depth ∧ ancestor = tip g S ∧
        (targetNumber, targetHash) = blockOf p.k g S ∧ ∀ x ∈ rest, x ∈ U
  | 0, _, _, _, _, h => by cases h
  | depth + 1, T, ps, hT, hparents, h => by
    unfold findTarget at h
    split_ifs at h with hmatch
    · obtain ⟨rfl, rfl⟩ := Prod.mk.inj (Option.some.inj (Except.ok.inj h))
      refine ⟨T, suffix_rfl, by omega, rfl, ?_, hparents⟩
      rw [blockOf, ← hT.tip_number hg, ← hmatch.1, ← hmatch.2]
    · obtain ⟨parent, hparent, h⟩ := Except.bind_eq_ok.mp h
      cases T with
      | nil =>
        exact absurd hparent (getParent_genesis hg hgU hlt hW hparents)
      | cons t T =>
        obtain rfl := getParent_eq_tip hgU hinj hW hT.tail hT.parentHash_eq hparents hparent
        obtain ⟨S, hS, hdepth, hancestor, hblock, hrest⟩ :=
          findTarget_eq hg hgU hinj hlt hW depth hT.tail
            (fun x hx => hparents x (mem_of_mem_dropLast hx)) h
        refine ⟨S, hS.trans (suffix_cons t T), ?_, hancestor, hblock, hrest⟩
        rw [length_cons]
        omega

variable {e e' : Engine}

theorem epochLength_ok (hg : g.number = 0) (hgU : g ∈ U) (hinj : Set.InjOn p.k.hash U)
    (hW : chain.Within p.k g U) (hparents : ∀ x ∈ ps, x ∈ U) (hH : Branch p.k g U (hd :: H))
    (hanchored : Anchored p g A H) (he : Holds p g U A e) {epochLength : ℕ}
    (h : exec (p.epochLength chain hd ps) e = (.ok epochLength, e')) :
    Holds p g U A e' ∧ ∃ s, Applied p g U H s ∧ s.epochLength = epochLength := by
  have hne : hd.number ≠ 0 := by rw [hH.number_eq]; exact Nat.succ_ne_zero _
  have hnumber : hd.number - 1 = H.length := by rw [hH.number_eq, Nat.add_sub_cancel]
  unfold Parlia.epochLength at h
  rw [if_neg hne, hnumber, hH.parentHash_eq] at h
  obtain ⟨s, e₁, hsnap, hrest⟩ := exec_bind_eq_ok h
  obtain ⟨hlength, rfl⟩ := Prod.mk.inj hrest
  have hfiled := snapshot_filed hg hgU hinj hW hH.tail hanchored hparents
    (p.isSnake8Enabled chain hd) none e he
  rw [hsnap] at hfiled
  exact ⟨hfiled.1, s, (hfiled.2 s rfl).applied, Except.ok.inj hlength⟩

theorem getJustified_ok (hg : g.number = 0) (hgU : g ∈ U) (hinj : Set.InjOn p.k.hash U)
    (hW : chain.Within p.k g U) (hparents : ∀ x ∈ ps, x ∈ U) (hH : Branch p.k g U H)
    (hanchored : Anchored p g A H) (he : Holds p g U A e) {block : ℕ × Hash}
    (h : exec (p.getJustifiedNumberAndHash chain (tip g H) ps) e = (.ok block, e')) :
    Holds p g U A e' ∧ ∃ s, Applied p g U H s ∧ justifiedBlock p.k g s = block := by
  unfold getJustifiedNumberAndHash at h
  rw [hH.tip_number hg] at h
  obtain ⟨s, e₁, hsnap, hrest⟩ := exec_bind_eq_ok h
  obtain ⟨hblock, rfl⟩ := Prod.mk.inj hrest
  have hfiled := snapshot_filed hg hgU hinj hW hH hanchored hparents
    (p.isSnake8Enabled chain (tip g H)) (some (tip g H)) e he
  rw [hsnap] at hfiled
  refine ⟨hfiled.1, s, (hfiled.2 s rfl).applied, ?_⟩
  rw [← Except.ok.inj hblock, ← hW.genesis_eq]
  rfl

/-- **What an accepted header carries.** -/
theorem verifyVoteAttestation_ok (hg : g.number = 0) (hgU : g ∈ U) (hinj : Set.InjOn p.k.hash U)
    (hlt : ∀ x ∈ U, x.number + 1 < 2 ^ 64) (hW : chain.Within p.k g U) (hparents : ∀ x ∈ ps, x ∈ U)
    (hH : Branch p.k g U (hd :: H)) (hanchored : ∀ T, T <:+ H → Anchored p g A T)
    (he : Holds p g U A e) (h : exec (p.verifyVoteAttestation chain hd ps) e = (.ok (), e')) :
    Accepted p g U hd H := by
  unfold verifyVoteAttestation at h
  obtain ⟨epochLength, e₁, hepoch, h⟩ := exec_bind_eq_ok h
  obtain ⟨he₁, s, hs, rfl⟩ :=
    epochLength_ok hg hgU hinj hW hparents hH (hanchored H suffix_rfl) he hepoch
  obtain ⟨attestation, hattestation, h⟩ := exec_ofExcept_bind_eq_ok h
  refine ⟨s, attestation, hs, hattestation, fun a ha => ?_⟩
  obtain rfl : attestation = some a := ha
  obtain ⟨_, hcheck, h⟩ := exec_ofExcept_bind_eq_ok h
  obtain ⟨parent, hparent, h⟩ := exec_ofExcept_bind_eq_ok h
  obtain rfl := getParent_eq_tip hgU hinj hW hH.tail hH.parentHash_eq hparents hparent
  obtain ⟨block, e₂, hblock, h⟩ := exec_bind_eq_ok h
  have hheaders : ∀ x ∈ (if ps = [] then [tip g H] else ps), x ∈ U := by
    split_ifs
    · simpa using hH.tail.tip_mem hgU
    · exact hparents
  obtain ⟨he₂, s', hs', hjustified⟩ := getJustified_ok hg hgU hinj hW hheaders hH.tail
    (hanchored H suffix_rfl) he₁ (exec_mapError_eq_ok hblock)
  obtain ⟨justifiedNumber, justifiedHash⟩ := block
  dsimp only at h
  split_ifs at h with hsource
  · obtain ⟨_, _, hthrow, -⟩ := exec_bind_eq_ok h
    cases hthrow
  push Not at hsource
  obtain ⟨found, hfound, h⟩ := exec_ofExcept_bind_eq_ok h
  rcases found with _ | ⟨ancestor, rest⟩
  · cases h
  obtain ⟨snap, e₃, hsnap, hvotes⟩ := exec_bind_eq_ok h
  obtain ⟨S, hS, hdepth, rfl, htarget, hrest⟩ := findTarget_eq hg hgU hinj hlt hW _ hH.tail
    (fun x hx => hparents x (mem_of_mem_dropLast hx)) hfound
  have hsourceLt := checkAttestation_ok hcheck
  cases S with
  | nil =>
    -- the genesis block is no target: its number is not above that of a source
    have hzero : a.data.targetNumber.toNat = 0 := (Prod.mk.inj htarget).1
    rw [UInt64.lt_iff_toNat_lt, hzero] at hsourceLt
    exact absurd hsourceLt (Nat.not_lt_zero _)
  | cons target T =>
    obtain ⟨M, rfl⟩ := hS
    have hT : Branch p.k g U (target :: T) := hH.tail.of_append
    have hfiled := snapshot_filed hg hgU hinj hW hT.tail
      (hanchored T ((suffix_cons target T).trans (suffix_append M _))) hrest
      (p.isSnake8Enabled chain target) (some target) e₂ he₂
    rw [tip_cons, hT.number_eq, Nat.add_sub_cancel, hT.parentHash_eq] at hsnap
    rw [hsnap] at hfiled
    refine ⟨hsourceLt, ?_, target, T, snap, suffix_append M _, hdepth, htarget,
      (hfiled.2 snap rfl).applied, (Prod.mk.inj hvotes).1⟩
    rw [hsource.1, hsource.2, ← hjustified]
    unfold justifiedBlock
    rw [(hs.unique hs').1]

end Verification

end ChilizChain
