import ChilizChain.Lib.Casper
import ChilizChain.Parlia.Finality

/-! Accountable safety of fast finality. With a fixed validator set, the attestations that are
accepted along a chain are quorums of votes for links between blocks of the chain, so the general
result about such links applies: two finalized blocks of different branches show that a third of
the validators broke the voting rules. -/

namespace ChilizChain

open Stateful Snapshot List Parlia

/-! ## A fixed validator set -/

/-- Every announcement among the headers `U` is the set `V`. -/
structure FixedSet (p : Parlia) (g : Header) (U : Set Header)
    (V : Std.ExtTreeMap Address ValidatorInfo) : Prop where
  genesis : ∀ isSnake8Fork s, p.checkpointSnapshot 0 isSnake8Fork g (p.k.hash g)
    defaultBlockInterval p.c.epoch = .ok s → s.validators = V
  switch : ∀ checkpoint ∈ U, ∀ header ∈ U,
    ∀ epochLength ∈ [p.c.epoch, lorentzEpochLength, maxwellEpochLength], ∀ vals keys newVals,
      parseValidators checkpoint p.c epochLength = .ok (vals, keys) →
      announcedValidators p.c header vals keys = .ok newVals → newVals = V

section Fixed

variable {p : Parlia} {g : Header} {U : Set Header} {V : Std.ExtTreeMap Address ValidatorInfo}
  {H : List Header} {s : Snapshot}

theorem Applied.epochLength_mem (h : Applied p g U H s) :
    s.epochLength ∈ [p.c.epoch, lorentzEpochLength, maxwellEpochLength] := by
  induction h with
  | genesis h => simp [(checkpointSnapshot_ok h).1]
  | block below branch within parents_mem h ih =>
    rw [(applyHeader_attestation h).2]
    unfold updateEpochLength
    dsimp only
    split_ifs
    · simp
    · simp
    · simp
    · exact ih
  | imposed below h ih => rw [h]; exact ih

theorem Applied.validators_eq (hgU : g ∈ U) (hinj : Set.InjOn p.k.hash U)
    (hV : FixedSet p g U V) (h : Applied p g U H s) : s.validators = V := by
  induction h with
  | genesis h => exact hV.genesis _ _ h
  | @block hd H ps chain s s' below branch within parents_mem h ih =>
    obtain ⟨validator, -, -, -, hchange⟩ := applyHeader_eq_ok h
    have hx := recorded p.c s hd validator
    rcases changeValidators_ok hchange with ⟨rfl, -⟩ | ⟨hmod, checkpoint, hfound, ⟨hswitch⟩⟩
    · exact hx.validators.trans ih
    · rw [hx.minerHistoryCheckLen] at hmod hfound
      have hle : s.minerHistoryCheckLen ≤ (hd :: H).length := by
        rw [length_cons, ← branch.number_eq, ← hmod]
        exact Nat.mod_le _ _
      have hcheckpoint : checkpoint ∈ U := by
        rw [findAncientHeader_sound hgU hinj within parents_mem _ branch hle hfound]
        have hsplit : Branch p.k g U ((hd :: H).take s.minerHistoryCheckLen ++
            (hd :: H).drop s.minerHistoryCheckLen) := by
          rwa [take_append_drop]
        exact hsplit.of_append.tip_mem hgU
      rw [congrArg Snapshot.validators hswitch.eq]
      exact hV.switch checkpoint hcheckpoint hd (branch.mem_of_mem _ mem_cons_self) _
        below.epochLength_mem _ _ _ hswitch.parseValidators_eq hswitch.announced
  | imposed below h ih => rw [h]; exact ih

end Fixed

/-! ## Quorums -/

/-- The vote keys of a validator set. -/
def voteKeys (V : Std.ExtTreeMap Address ValidatorInfo) : List BLSPublicKey :=
  V.toList.map fun entry => entry.2.voteAddress

/-- At least two thirds of the validators signed `data`. -/
def Quorum (signed : BLSPublicKey → VoteData → Prop) (V : Std.ExtTreeMap Address ValidatorInfo)
    (data : VoteData) : Prop :=
  ∃ K : Finset BLSPublicKey, K ⊆ (voteKeys V).toFinset ∧ (V.size * 2 + 2) / 3 ≤ K.card ∧
    ∀ key ∈ K, signed key data

section Quorums

variable {p : Parlia} {g : Header} {U : Set Header} {V : Std.ExtTreeMap Address ValidatorInfo}
  {signed : BLSPublicKey → VoteData → Prop}

theorem votedAddrs_sublist (voteAddressSet : UInt64) (s : Snapshot) :
    (votedAddrs voteAddressSet s).Sublist (voteKeys s.validators) := by
  have hkeys : voteKeys s.validators =
      s.validators.toList.zipIdx.map fun entry => entry.1.2.voteAddress := by
    rw [voteKeys]
    conv_lhs => rw [← zipIdx_map_fst 0 s.validators.toList, map_map]
    rfl
  rw [hkeys, votedAddrs]
  exact filter_sublist.map _

theorem quorum_of_checkVotes
    (hsigned : ∀ sig keys data, p.k.fastAggregateVerify sig keys (p.k.voteHash data) = true →
      ∀ key ∈ keys, signed key data)
    {attestation : VoteAttestation} {s : Snapshot} (hV : s.validators = V)
    (hkeys : (voteKeys V).Nodup) (h : p.checkVotes attestation s = .ok ()) :
    Quorum signed V attestation.data := by
  unfold checkVotes at h
  simp only [Except.throw_eq_error, Except.error_bind] at h
  split_ifs at h with hcount hkey henough hsignature hverified
  have hsub := votedAddrs_sublist attestation.voteAddressSet s
  rw [hV] at hsub henough
  refine ⟨(votedAddrs attestation.voteAddressSet s).toFinset, ?_, ?_, ?_⟩
  · intro key hkey
    rw [mem_toFinset] at hkey ⊢
    exact hsub.subset hkey
  · rw [toFinset_card_of_nodup (hkeys.sublist hsub)]
    omega
  · intro key hkey
    rw [mem_toFinset] at hkey
    exact hsigned _ _ _ (by simpa using hverified) key hkey

end Quorums

/-! ## Links between blocks of a chain -/

/-- A quorum for the link from the last block of `S` to the last block of `T`. -/
def LinkVotes (p : Parlia) (g : Header) (U : Set Header)
    (signed : BLSPublicKey → VoteData → Prop) (V : Std.ExtTreeMap Address ValidatorInfo)
    (S T : List Header) : Prop :=
  Branch p.k g U S ∧ Branch p.k g U T ∧ ∃ data : VoteData,
    (data.sourceNumber.toNat, data.sourceHash) = blockOf p.k g S ∧
    (data.targetNumber.toNat, data.targetHash) = blockOf p.k g T ∧ Quorum signed V data

/-- The justified block of a snapshot is justified by links, and its finalized block is the
genesis block or finalized by links. -/
structure Accounted (k : Crypto) (g : Header) (voted : List Header → List Header → Prop)
    (H : List Header) (s : Snapshot) : Prop where
  justified : ∃ J, J <:+ H ∧ justifiedBlock k g s = blockOf k g J ∧ Casper.Justified voted J
  finalized : ∀ data, s.attestation = some data → ∃ S, S <:+ H ∧
    (data.sourceNumber.toNat, data.sourceHash) = blockOf k g S ∧
    (S = [] ∨ Casper.Finalized voted S)

section Links

variable {p : Parlia} {g : Header} {U : Set Header} {V : Std.ExtTreeMap Address ValidatorInfo}
  {signed : BLSPublicKey → VoteData → Prop} {hd : Header} {H : List Header}
  {s s' : Snapshot} {voted : List Header → List Header → Prop}

theorem Accounted.genesis (h : s.attestation = none) : Accounted p.k g voted [] s where
  justified := ⟨[], suffix_rfl, by rw [justifiedBlock, h]; rfl, .root⟩
  finalized data hdata := by rw [h] at hdata; cases hdata

theorem Accounted.kept (hs : Accounted p.k g voted H s) (h : s'.attestation = s.attestation) :
    Accounted p.k g voted (hd :: H) s' := by
  obtain ⟨J, hJ, hblock, hjustified⟩ := hs.justified
  refine ⟨⟨J, hJ.trans (suffix_cons _ _), ?_, hjustified⟩, fun data hdata => ?_⟩
  · rw [← hblock, justifiedBlock, justifiedBlock, h]
  · obtain ⟨S, hS, hsource, hfinalized⟩ := hs.finalized data (h ▸ hdata)
    exact ⟨S, hS.trans (suffix_cons _ _), hsource, hfinalized⟩

theorem Attested.link {a : VoteAttestation} (ha : Attested p g U hd H s a) (hH : Branch p.k g U H)
    (hquorum : ∀ T snap, Applied p g U T snap → p.checkVotes a snap = .ok () →
      Quorum signed V a.data)
    {J : List Header} (hJ : J <:+ H) (hblock : justifiedBlock p.k g s = blockOf p.k g J) :
    ∃ T, T <:+ H ∧ (a.data.targetNumber.toNat, a.data.targetHash) = blockOf p.k g T ∧
      LinkVotes p g U signed V J T ∧ J <:+ T ∧ J.length < T.length := by
  obtain ⟨target, T, snap, hT, -, htarget, happlied, hvotes⟩ := ha.target
  have hsource := ha.source_eq.trans hblock
  have hlt : J.length < (target :: T).length := by
    have hlt := UInt64.lt_iff_toNat_lt.mp ha.source_lt
    rwa [(Prod.mk.inj hsource).1, (Prod.mk.inj htarget).1] at hlt
  refine ⟨target :: T, hT, htarget, ⟨?_, ?_, a.data, hsource, htarget,
    hquorum T snap happlied hvotes⟩, suffix_of_suffix_length_le hJ hT hlt.le, hlt⟩
  · obtain ⟨M, rfl⟩ := hJ
    exact hH.of_append
  · obtain ⟨M, rfl⟩ := hT
    exact hH.of_append

theorem toNat_eq_succ_of_add_one_eq {a b : UInt64} (hlt : a < b) (h : a + 1 = b) :
    b.toNat = a.toNat + 1 := by
  have hlt := UInt64.lt_iff_toNat_lt.mp hlt
  have hsum := congrArg UInt64.toNat h
  rw [UInt64.toNat_add] at hsum
  have hone : (1 : UInt64).toNat = 1 := rfl
  omega

theorem Accounted.moved (hs : Accounted p.k g (LinkVotes p g U signed V) H s)
    (hH : Branch p.k g U H) {a : VoteAttestation} (ha : Attested p g U hd H s a)
    (hquorum : ∀ T snap, Applied p g U T snap → p.checkVotes a snap = .ok () →
      Quorum signed V a.data) (h : s'.attestation = some (a.data.onTop s.attestation)) :
    Accounted p.k g (LinkVotes p g U signed V) (hd :: H) s' := by
  obtain ⟨J, hJ, hblock, hjustified⟩ := hs.justified
  obtain ⟨T, hT, htarget, hlink, hbelow, hlt⟩ := ha.link hH hquorum hJ hblock
  have hsource := ha.source_eq.trans hblock
  refine ⟨⟨T, hT.trans (suffix_cons _ _), ?_, .link hjustified hlink hbelow hlt⟩,
    fun data hdata => ?_⟩
  · rw [← htarget, justifiedBlock, h]
    unfold VoteData.onTop
    dsimp only
    split
    · split <;> rfl
    · rfl
  · obtain rfl : a.data.onTop s.attestation = data := Option.some.inj (h.symm.trans hdata)
    cases hattestation : s.attestation with
    | none =>
      refine ⟨J, hJ.trans (suffix_cons _ _), hsource, .inl ?_⟩
      rw [justifiedBlock, hattestation] at hblock
      exact eq_nil_of_length_eq_zero (Prod.mk.inj hblock).1.symm
    | some previous =>
      unfold VoteData.onTop
      dsimp only
      split_ifs with hchild
      · obtain ⟨S, hS, hprevious, hfinalized⟩ := hs.finalized previous hattestation
        exact ⟨S, hS.trans (suffix_cons _ _), hprevious, hfinalized⟩
      · refine ⟨J, hJ.trans (suffix_cons _ _), hsource, .inr ⟨hjustified, T, hlink, hbelow, ?_⟩⟩
        have hsucc := toNat_eq_succ_of_add_one_eq ha.source_lt (not_not.mp hchild)
        rwa [(Prod.mk.inj hsource).1, (Prod.mk.inj htarget).1] at hsucc

end Links

/-! ## Two chains -/

section Chains

variable {p : Parlia} {g : Header} {U : Set Header} {V : Std.ExtTreeMap Address ValidatorInfo}
  {signed : BLSPublicKey → VoteData → Prop}
  (hg : g.number = 0) (hgU : g ∈ U) (hinj : Set.InjOn p.k.hash U)
include hg hgU hinj

theorem accounted_of_run (hlt : ∀ x ∈ U, x.number + 1 < 2 ^ 64) (hV : FixedSet p g U V)
    (hkeys : (voteKeys V).Nodup)
    (hsigned : ∀ sig keys data, p.k.fastAggregateVerify sig keys (p.k.voteHash data) = true →
      ∀ key ∈ keys, signed key data)
    {s₀ s : Snapshot} {H : List (Header × Snapshot)} (h₀ : Filed p g U [] s₀)
    (hrun : Run (FinalityStep p g U) s₀ H s) :
    Accounted p.k g (LinkVotes p g U signed V) (H.map Prod.fst) s := by
  induction hrun with
  | start => exact .genesis (h₀.applied.of_nil rfl).1
  | next before h ih =>
    have hs := Finalizing.of_run hg hgU hinj hlt h₀ before
    rcases h.cases hg hgU hinj hlt hs with hkept | ⟨a, ha, htop⟩
    · exact ih.kept hkept
    · refine ih.moved hs.branch ha (fun T snap hsnap hvotes => ?_) htop
      exact quorum_of_checkVotes hsigned (hsnap.validators_eq hgU hinj hV) hkeys hvotes

theorem link_eq_of_data_eq {S T S' T' : List Header} (hS : Branch p.k g U S)
    (hT : Branch p.k g U T) (hS' : Branch p.k g U S') (hT' : Branch p.k g U T')
    {data data' : VoteData} (hdata : data = data')
    (hsource : (data.sourceNumber.toNat, data.sourceHash) = blockOf p.k g S)
    (htarget : (data.targetNumber.toNat, data.targetHash) = blockOf p.k g T)
    (hsource' : (data'.sourceNumber.toNat, data'.sourceHash) = blockOf p.k g S')
    (htarget' : (data'.targetNumber.toNat, data'.targetHash) = blockOf p.k g T') :
    (S, T) = (S', T') := by
  subst hdata
  have hsources := (Prod.mk.inj (hsource.symm.trans hsource')).2
  have htargets := (Prod.mk.inj (htarget.symm.trans htarget')).2
  rw [hS.unique hg hgU hinj hS' hsources, hT.unique hg hgU hinj hT' htargets]

theorem slashable_of_conflict (hkeys : (voteKeys V).Nodup)
    (h : Casper.Conflict (LinkVotes p g U signed V)) :
    ∃ K : Finset BLSPublicKey, K ⊆ (voteKeys V).toFinset ∧
      2 * ((V.size * 2 + 2) / 3) - V.size ≤ K.card ∧
      ∀ key ∈ K, ∃ v w, signed key v ∧ signed key w ∧ Slashable v w := by
  obtain ⟨S, T, S', T', ⟨hS, hT, v, hvS, hvT, A, hA, hqA, hAsigned⟩,
    ⟨hS', hT', w, hwS, hwT, B, hB, hqB, hBsigned⟩, hconflict⟩ := h
  have hcard : (voteKeys V).toFinset.card = V.size := by
    rw [toFinset_card_of_nodup hkeys, voteKeys, length_map, Std.ExtTreeMap.length_toList]
  refine ⟨A ∩ B, (Finset.inter_subset_left).trans hA, ?_, fun key hkey => ?_⟩
  · rw [← hcard] at hqA hqB ⊢
    exact Casper.two_mul_sub_le_card_inter hA hB hqA hqB
  obtain ⟨hkeyA, hkeyB⟩ := Finset.mem_inter.mp hkey
  have hv := hAsigned key hkeyA
  have hw := hBsigned key hkeyB
  have hvs : v.sourceNumber.toNat = S.length := (Prod.mk.inj hvS).1
  have hvt : v.targetNumber.toNat = T.length := (Prod.mk.inj hvT).1
  have hws : w.sourceNumber.toNat = S'.length := (Prod.mk.inj hwS).1
  have hwt : w.targetNumber.toNat = T'.length := (Prod.mk.inj hwT).1
  rcases hconflict with ⟨hheight, hne⟩ | ⟨hs, hst, ht⟩ | ⟨hs, hst, ht⟩
  · refine ⟨v, w, hv, hw, .inl ⟨UInt64.toNat_inj.mp (by omega), fun heq => hne ?_⟩⟩
    exact link_eq_of_data_eq hg hgU hinj hS hT hS' hT' heq hvS hvT hwS hwT
  · refine ⟨v, w, hv, hw, .inr ⟨?_, ?_, ?_⟩⟩
    all_goals rw [UInt64.lt_iff_toNat_lt]; omega
  · refine ⟨w, v, hw, hv, .inr ⟨?_, ?_, ?_⟩⟩
    all_goals rw [UInt64.lt_iff_toNat_lt]; omega

theorem finalized_of_run (hlt : ∀ x ∈ U, x.number + 1 < 2 ^ 64) (hV : FixedSet p g U V)
    (hkeys : (voteKeys V).Nodup)
    (hsigned : ∀ sig keys data, p.k.fastAggregateVerify sig keys (p.k.voteHash data) = true →
      ∀ key ∈ keys, signed key data)
    {s₀ s : Snapshot} {H : List (Header × Snapshot)} (h₀ : Filed p g U [] s₀)
    (hrun : Run (FinalityStep p g U) s₀ H s) {data : VoteData} (hdata : s.attestation = some data)
    {X : List Header} (hX : X <:+ H.map Prod.fst)
    (hblock : (data.sourceNumber.toNat, data.sourceHash) = blockOf p.k g X) (hne : X ≠ []) :
    Casper.Finalized (LinkVotes p g U signed V) X := by
  obtain ⟨S, hS, hsource, hfinalized⟩ :=
    (accounted_of_run hg hgU hinj hlt hV hkeys hsigned h₀ hrun).finalized data hdata
  have hlength : X.length = S.length := (Prod.mk.inj (hblock.symm.trans hsource)).1
  obtain rfl : X = S := (suffix_of_suffix_length_le hX hS hlength.le).eq_of_length hlength
  exact hfinalized.resolve_left hne

end Chains

/-- **Accountable safety.** Let the validator set be fixed, with different vote keys. If the last
snapshots of two chains of accepted headers finalize the blocks that end the branches `X` and `Y`,
and neither descends from the other, then `2 * ⌈2N/3⌉ - N` validators signed two votes that break
the voting rules. -/
theorem accountable_safety {p : Parlia} {g : Header} {U : Set Header}
    {V : Std.ExtTreeMap Address ValidatorInfo} {signed : BLSPublicKey → VoteData → Prop}
    (hg : g.number = 0) (hgU : g ∈ U) (hinj : Set.InjOn p.k.hash U)
    (hlt : ∀ x ∈ U, x.number + 1 < 2 ^ 64) (hV : FixedSet p g U V) (hkeys : (voteKeys V).Nodup)
    (hsigned : ∀ sig keys data, p.k.fastAggregateVerify sig keys (p.k.voteHash data) = true →
      ∀ key ∈ keys, signed key data)
    {s₀ s t₀ t : Snapshot} {H K : List (Header × Snapshot)} (hs₀ : Filed p g U [] s₀)
    (ht₀ : Filed p g U [] t₀) (hsrun : Run (FinalityStep p g U) s₀ H s)
    (htrun : Run (FinalityStep p g U) t₀ K t) {sdata tdata : VoteData}
    (hsdata : s.attestation = some sdata) (htdata : t.attestation = some tdata)
    {X Y : List Header} (hX : X <:+ H.map Prod.fst) (hY : Y <:+ K.map Prod.fst)
    (hsX : (sdata.sourceNumber.toNat, sdata.sourceHash) = blockOf p.k g X)
    (htY : (tdata.sourceNumber.toNat, tdata.sourceHash) = blockOf p.k g Y)
    (hXY : ¬X <:+ Y) (hYX : ¬Y <:+ X) :
    ∃ culprits : Finset BLSPublicKey, culprits ⊆ (voteKeys V).toFinset ∧
      2 * ((V.size * 2 + 2) / 3) - V.size ≤ culprits.card ∧
      ∀ key ∈ culprits, ∃ v w, signed key v ∧ signed key w ∧ Slashable v w := by
  have hXne : X ≠ [] := fun h => hXY (h ▸ nil_suffix)
  have hYne : Y ≠ [] := fun h => hYX (h ▸ nil_suffix)
  have hXfinal := finalized_of_run hg hgU hinj hlt hV hkeys hsigned hs₀ hsrun hsdata hX hsX hXne
  have hYfinal := finalized_of_run hg hgU hinj hlt hV hkeys hsigned ht₀ htrun htdata hY htY hYne
  exact slashable_of_conflict hg hgU hinj hkeys (hXfinal.conflict hYfinal hXY hYX)

namespace Sample

theorem forks_fixedSet : FixedSet lubanEngine lubanGenesis forks lubanSnap.validators where
  genesis := by
    have h : ∀ isSnake8Fork, (lubanEngine.checkpointSnapshot 0 isSnake8Fork lubanGenesis
        (crypto.hash lubanGenesis) defaultBlockInterval 200).map (·.validators) =
          .ok lubanSnap.validators := by
      decide +kernel
    intro isSnake8Fork s hs
    have hs : lubanEngine.checkpointSnapshot 0 isSnake8Fork lubanGenesis (crypto.hash lubanGenesis)
      defaultBlockInterval 200 = .ok s := hs
    have hvalidators := h isSnake8Fork
    rw [hs] at hvalidators
    exact Except.ok.inj hvalidators
  switch := by
    have h : ∀ checkpoint ∈ forkHeaders, ∀ hd ∈ forkHeaders,
        ∀ epochLength ∈ [200, lorentzEpochLength, maxwellEpochLength],
          (do
            let p ← parseValidators checkpoint lubanEngine.c epochLength
            announcedValidators lubanEngine.c hd p.1 p.2).toOption.all
              (· = lubanSnap.validators) := by
      decide +kernel
    intro checkpoint hcheckpoint hd hheader epochLength hepoch vals keys newVals hparse hannounce
    have hvalidators := h checkpoint hcheckpoint hd hheader epochLength hepoch
    rw [hparse, Except.ok_bind] at hvalidators
    dsimp only at hvalidators
    rw [hannounce] at hvalidators
    simpa [Except.toOption] using hvalidators

end Sample

open Sample in
/-- Two forks from one genesis block finalize their first blocks: both validators voted for a
block of height 1 on each of them. -/
theorem accountable_safety_sample :
    ∃ culprits : Finset BLSPublicKey, culprits ⊆ (voteKeys lubanSnap.validators).toFinset ∧
      2 * ((lubanSnap.validators.size * 2 + 2) / 3) - lubanSnap.validators.size ≤ culprits.card ∧
      ∀ key ∈ culprits, ∃ v w, True ∧ True ∧ Slashable v w := by
  have hdata : ∀ x ∈ [(addr 1, addr 2), (addr 2, addr 1)], (forkSnap x.1 x.2).attestation =
      some ⟨1, crypto.hash (fork1 x.1), 2, crypto.hash (fork2 x.1 x.2)⟩ := by
    decide +kernel
  refine accountable_safety rfl (show lubanGenesis ∈ forkHeaders by simp [forkHeaders])
    forks_injOn forks_number_lt forks_fixedSet (by decide) (fun _ _ _ _ _ _ => trivial)
    lubanSnap_filed lubanSnap_filed (fork_run (a := addr 1) (b := addr 2) (by simp))
    (fork_run (a := addr 2) (b := addr 1) (by simp)) (hdata (addr 1, addr 2) (by simp))
    (hdata (addr 2, addr 1) (by simp)) (X := [fork1 (addr 1)]) (Y := [fork1 (addr 2)])
    ⟨[fork3 (addr 1) (addr 2), fork2 (addr 1) (addr 2)], rfl⟩
    ⟨[fork3 (addr 2) (addr 1), fork2 (addr 2) (addr 1)], rfl⟩ rfl rfl ?_ ?_
  all_goals
    rw [suffix_iff_eq_drop]
    decide

end ChilizChain
