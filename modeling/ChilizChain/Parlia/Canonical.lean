import ChilizChain.Parlia.Apply

/-! The snapshot of a branch: its headers applied one by one from the genesis block. Before the
Snake8 activation time it has the properties that make the order of work irrelevant, and
applying any number of headers in a batch, on top of the snapshot of any earlier block, gives
the same snapshot (`apply_eq_canonical`). -/

namespace ChilizChain

open List Except Snapshot

section Definitions

variable (p : Parlia) (g : Header) (hg : g.number = 0)

/-- A store that holds one branch and nothing else. -/
def branchStore (H : List Header) : ChainStore := ⟨g, hg, H, fun _ => none⟩

def genesisSnapshot : Except Err Snapshot :=
  if p.k.hash g = FixedBytes.zero 32 then throw .errUnknownAncestor
  else p.checkpointSnapshot 0 false g (p.k.hash g) defaultBlockInterval p.c.epoch

/-- The headers of a branch applied one by one to the snapshot of the genesis block. -/
def canonical : List Header → Except Err Snapshot
  | [] => genesisSnapshot p g
  | h :: H => do
    let s ← canonical H
    s.apply p.k p.c (branchStore g hg H) [] [h] false

/-- Every block at which the validator set is switched has its ancestors in the store. -/
def CheckpointsStored (chain : ChainStore) (H : List Header) : Prop :=
  ∀ h H', (h :: H') <:+ H → ∀ s, canonical p g hg H' = .ok s →
    h.number % s.epochLength = s.minerHistoryCheckLen → ∀ x ∈ H', x ∈ chain.headers

/-- What the snapshot `s` of the branch `H` satisfies. -/
structure Settled (H : List Header) (s : Snapshot) : Prop where
  number : s.number = H.length
  hash : s.hash = p.k.hash (tip g H)
  isSnake8Fork : s.isSnake8Fork = false
  frequencyRLP : s.frequencyRLP = []
  inWindow : s.InWindow H.length
  turnLength_eq_one : p.c.isBohr (tip g H).number (tip g H).time = false → s.turnLength = 1
  turnLength_ne_zero : s.turnLength ≠ 0
  epochLength_ne_zero : s.epochLength ≠ 0
  blockInterval_ne_zero : s.blockInterval ≠ 0

end Definitions

variable {p : Parlia} {g : Header} {U : Set Header} {chain : ChainStore}

/-! ## Bohr along a branch -/

variable {H N : List Header}

theorem BeforeSnake8.isBohr_ancestor (hU : BeforeSnake8 p g U) (hH : Branch p.k g U (N ++ H))
    (hbohr : p.c.isBohr (tip g (N ++ H)).number (tip g (N ++ H)).time = false) :
    p.c.isBohr (tip g H).number (tip g H).time = false := by
  rw [Bool.eq_false_iff] at hbohr ⊢
  intro hancestor
  apply hbohr
  unfold ChainConfig.isBohr ChainConfig.isLondon at hancestor ⊢
  rw [Bool.and_eq_true] at hancestor ⊢
  refine ⟨isForked_mono ?_ hancestor.1, isForked_mono (hU.time_le_tip hH) hancestor.2⟩
  rw [hH.tip_number hU.genesis_number, hH.of_append.tip_number hU.genesis_number, length_append]
  exact Nat.le_add_left _ _

/-! ## The properties of the snapshot of a branch -/

namespace Settled

variable {H : List Header} {s s' : Snapshot}

theorem copy_eq (hs : Settled p g H s) : { s with isSnake8Fork := false }.copy = s := by
  obtain ⟨-, -, hflag, hfreq, -⟩ := hs
  cases s
  cases hflag
  cases hfreq
  rfl

theorem loaded_eq (hs : Settled p g H s) : s.loaded p.c false = s := by
  unfold loaded
  rw [if_neg hs.epochLength_ne_zero, if_neg hs.blockInterval_ne_zero, if_neg Bool.false_ne_true,
    if_neg hs.turnLength_ne_zero, ← hs.isSnake8Fork]

theorem relocate_eq (hs : Settled p g H s) : s.relocate H.length (p.k.hash (tip g H)) = s := by
  rw [← hs.number, ← hs.hash]
  rfl

end Settled

theorem BeforeSnake8.turnLength_ne_zero_of_parse (hU : BeforeSnake8 p g U) {h : Header}
    (hmem : h ∈ U) {epochLength : ℕ} {turnLength : Option UInt8}
    (hparse : parseTurnLength h p.c epochLength = .ok turnLength) {default : ℕ}
    (hdefault : default ≠ 0) : (turnLength.map UInt8.toNat).getD default ≠ 0 := by
  cases turnLength with
  | none => exact hdefault
  | some t =>
    intro hzero
    have ht : t = 0 := UInt8.toNat_inj.mp hzero
    exact hU.turnLength_ne_zero h hmem epochLength (ht ▸ hparse)

variable {s : Snapshot}

theorem BeforeSnake8.genesis_settled (hU : BeforeSnake8 p g U) (h : genesisSnapshot p g = .ok s) :
    Settled p g [] s := by
  unfold genesisSnapshot at h
  split_ifs at h
  obtain ⟨⟨validators, voteAddrs⟩, -, h⟩ := bind_eq_ok.mp h
  obtain ⟨turnLength, hturn, h⟩ := bind_eq_ok.mp h
  obtain rfl := Except.ok.inj h
  exact
    { number := rfl
      hash := rfl
      isSnake8Fork := rfl
      frequencyRLP := rfl
      inWindow := by
        intro block signer hentry
        simp [newSnapshot] at hentry
      turnLength_eq_one := by
        intro hbohr
        rw [parseTurnLength_of_not_isBohr (h := g) hbohr] at hturn
        obtain rfl := Except.ok.inj hturn
        rfl
      turnLength_ne_zero :=
        hU.turnLength_ne_zero_of_parse hU.genesis_mem hturn Nat.one_ne_zero
      epochLength_ne_zero := p.c.epoch_pos.ne'
      blockInterval_ne_zero := show defaultBlockInterval ≠ 0 by decide }

variable {ps : List Header}

theorem Settled.applyHeader (hU : BeforeSnake8 p g U) {h : Header} {s' : Snapshot}
    (hs : Settled p g H s) (hH : Branch p.k g U (h :: H))
    (hfind : ∀ i ≤ h.number, ∀ checkpoint, findAncientHeader p.k chain ps i h =
      some checkpoint → checkpoint = tip g ((h :: H).drop i))
    (happly : s.applyHeader p.k p.c chain ps h = .ok s') :
    Settled p g (h :: H) (s'.relocate (H.length + 1) (p.k.hash h)) := by
  have hnumber := hH.number_eq
  have hlt : H.length + 1 < 2 ^ 64 := by
    have := hU.number_lt h (hH.mem_of_mem h mem_cons_self)
    omega
  have hsplit : ∀ i, Branch p.k g U ((h :: H).take i ++ (h :: H).drop i) := fun i => by
    rw [take_append_drop]
    exact hH
  obtain ⟨hwindow, hone⟩ := hs.inWindow.applyHeader hnumber hlt
    (fun hbohr => hs.turnLength_eq_one (hU.isBohr_ancestor (N := [h]) hH hbohr))
    (fun hbohr checkpoint hle hfound => by
      rw [hfind _ hle checkpoint hfound]
      apply hU.isBohr_ancestor (hsplit _)
      rwa [take_append_drop])
    happly
  obtain ⟨x, hx, hs'⟩ := applyHeader_ok happly
  have hne : x.turnLength ≠ 0 := hx.turnLength ▸ hs.turnLength_ne_zero
  rcases hs' with rfl | ⟨checkpoint, epochLength, epochKey, turnLength, newVals, hle, hfound,
    hturn, rfl⟩
  · exact ⟨rfl, rfl, hx.isSnake8Fork.trans hs.isSnake8Fork,
      hx.frequencyRLP.trans hs.frequencyRLP, hwindow, hone, hne,
      hx.epochLength hs.epochLength_ne_zero, hx.blockInterval hs.blockInterval_ne_zero⟩
  · have hmem : checkpoint ∈ U := by
      rw [hfind _ hle checkpoint hfound]
      exact (hsplit _).of_append.tip_mem hU.genesis_mem
    exact ⟨rfl, rfl, hx.isSnake8Fork.trans hs.isSnake8Fork,
      hx.frequencyRLP.trans hs.frequencyRLP, hwindow, hone,
      hU.turnLength_ne_zero_of_parse hmem hturn hne,
      hx.epochLength hs.epochLength_ne_zero, hx.blockInterval hs.blockInterval_ne_zero⟩

/-! ## Batches -/

variable {k : Crypto}

theorem checkLinks_of_isChain : ∀ {headers : List Header}, headers.IsChain (fun hd next =>
      next.number = hd.number + 1 ∧ next.parentHash = k.hash hd) → checkLinks k headers = .ok ()
  | [], _ => rfl
  | [_], _ => rfl
  | hd :: next :: rest, h => by
    obtain ⟨⟨hnumber, hparent⟩, hrest⟩ := isChain_cons_cons.mp h
    simp [checkLinks, hnumber, hparent, checkLinks_of_isChain hrest]

theorem Branch.checkLinks_reverse (hg : g.number = 0) (hH : Branch k g U (N ++ H)) :
    checkLinks k N.reverse = .ok () := by
  apply checkLinks_of_isChain
  rw [isChain_reverse]
  induction N with
  | nil => exact isChain_nil
  | cons h N ih =>
    cases N with
    | nil => exact isChain_singleton _
    | cons h' N =>
      refine isChain_cons_cons.mpr ⟨⟨?_, hH.parentHash_eq⟩, ih hH.tail⟩
      rw [hH.number_eq, ← hH.tail.tip_number hg]
      rfl

theorem tip_append_cons (f : Header) (M H : List Header) : tip g (M ++ f :: H) = tip f M := by
  cases M with
  | nil => rfl
  | cons h M => rfl

theorem getLast_cons_reverse (f : Header) (M : List Header) :
    (f :: M.reverse).getLast (cons_ne_nil _ _) = tip f M := by
  cases M with
  | nil => rfl
  | cons h M => simp

theorem Branch.apply_eq {c : ChainConfig} (hg : g.number = 0) (hH : Branch k g U (N ++ H))
    (hN : N ≠ []) (hnumber : s.number = H.length) (hhash : s.hash = k.hash (tip g H))
    (isSnake8Fork : Bool) :
    s.apply k c chain ps N.reverse isSnake8Fork =
      (·.relocate (N ++ H).length (k.hash (tip g (N ++ H)))) <$>
        N.reverse.foldlM (Snapshot.applyHeader k c chain ps)
          { s with isSnake8Fork := isSnake8Fork }.copy := by
  obtain rfl | ⟨M, f, rfl⟩ := N.eq_nil_or_concat'
  · exact absurd rfl hN
  have hfirst : Branch k g U (f :: H) := by
    rw [append_assoc] at hH
    exact hH.of_append
  have hlinks := hH.checkLinks_reverse hg
  simp only [reverse_append, reverse_cons, reverse_nil, nil_append, cons_append] at hlinks ⊢
  have hlength : s.number + (f :: M.reverse).length = (M ++ [f] ++ H).length := by
    rw [hnumber]
    simp only [length_cons, length_reverse, length_append, length_nil]
    omega
  have hlast : (f :: M.reverse).getLast (cons_ne_nil _ _) = tip g (M ++ [f] ++ H) := by
    rw [getLast_cons_reverse, append_assoc]
    exact (tip_append_cons f M H).symm
  unfold apply
  simp only [hlinks, ok_bind]
  rw [if_neg (by simp [hfirst.number_eq, hnumber]),
    if_neg (by simp [hfirst.parentHash_eq, hhash]), hlength, hlast]
  rfl

theorem Settled.apply_eq (hU : BeforeSnake8 p g U) (hs : Settled p g H s) (hN : N ≠ [])
    (hH : Branch p.k g U (N ++ H)) : s.apply p.k p.c chain ps N.reverse false =
      (·.relocate (N ++ H).length (p.k.hash (tip g (N ++ H)))) <$>
        N.reverse.foldlM (Snapshot.applyHeader p.k p.c chain ps) s := by
  rw [hH.apply_eq hU.genesis_number hN hs.number hs.hash, hs.copy_eq]

theorem applyHeader_congr {c : ChainConfig} {chain chain' : ChainStore} {parents' : List Header}
    {hd : Header} (h : hd.number % s.epochLength = s.minerHistoryCheckLen →
      findAncientHeader k chain ps s.minerHistoryCheckLen hd =
        findAncientHeader k chain' parents' s.minerHistoryCheckLen hd) :
    s.applyHeader k c chain ps hd = s.applyHeader k c chain' parents' hd := by
  unfold Snapshot.applyHeader
  cases ecrecover k hd with
  | error e => rfl
  | ok validator =>
    obtain ⟨_, _, _, _, hrecord, -⟩ :=
      recordBlock_frame c (s.expire hd.number) hd validator
    have hepoch : ((s.expire hd.number).recordBlock c hd validator).epochLength =
        s.epochLength := by
      rw [hrecord]
      rfl
    have hx := recorded c s hd validator
    have hlen := hx.minerHistoryCheckLen
    simp only [ok_bind, hepoch]
    unfold changeValidators switchValidators
    simp only [hlen]
    by_cases hswitch : hd.number % s.epochLength = s.minerHistoryCheckLen
    · rw [h hswitch]
    · simp only [hswitch, and_false, if_false]

section Canonical

variable {hg : g.number = 0}

variable {H : List Header}

theorem Branch.branchStore_within {k : Crypto} (hH : Branch k g U H) :
    (branchStore g hg H).Within k g U :=
  .of_subset rfl hH.mem_of_mem

variable {h : Header}

theorem BeforeSnake8.findAncientHeader_branchStore (hU : BeforeSnake8 p g U)
    (hH : Branch p.k g U (h :: H)) {i : ℕ} (hi : i ≤ h.number) :
    findAncientHeader p.k (branchStore g hg H) [] i h = some (tip g ((h :: H).drop i)) :=
  hU.findAncientHeader_eq hH.tail.branchStore_within (by simp) i hH (fun _ hx => hx)
    (by rw [length_cons, ← hH.number_eq]; exact hi)

variable {s : Snapshot}

theorem BeforeSnake8.canonical_cons (hU : BeforeSnake8 p g U) (hH : Branch p.k g U (h :: H))
    (hs : canonical p g hg H = .ok s) (hsettled : Settled p g H s) :
    canonical p g hg (h :: H) = (·.relocate (H.length + 1) (p.k.hash h)) <$>
      s.applyHeader p.k p.c (branchStore g hg H) [] h := by
  rw [canonical, hs, ok_bind, show [h] = [h].reverse from rfl,
    hsettled.apply_eq hU (cons_ne_nil h []) hH, reverse_singleton,
    foldlM_cons]
  simp only [foldlM_nil, bind_pure]
  rfl

/-- **The snapshot of every branch is settled.** -/
theorem BeforeSnake8.canonical_settled (hU : BeforeSnake8 p g U) :
    ∀ {H : List Header}, Branch p.k g U H → ∀ {s : Snapshot}, canonical p g hg H = .ok s →
      Settled p g H s
  | [], _, _, h => hU.genesis_settled h
  | h :: H, hH, s, hs => by
    obtain ⟨below, hbelow, -⟩ := bind_eq_ok.mp hs
    have hsettled := hU.canonical_settled hH.tail hbelow
    rw [hU.canonical_cons hH hbelow hsettled] at hs
    obtain ⟨after, happly, rfl⟩ := map_eq_ok_iff.mp hs
    refine hsettled.applyHeader hU hH (fun i hi checkpoint hfound => ?_) happly
    rw [hU.findAncientHeader_branchStore hH hi] at hfound
    exact (Option.some.inj hfound).symm

theorem canonical_append_error {N : List Header} {e : Err} (h : canonical p g hg H = .error e) :
    canonical p g hg (N ++ H) = .error e := by
  induction N with
  | nil => exact h
  | cons x N ih => rw [cons_append, canonical, ih, error_bind]

variable {cs : List Header}

theorem BeforeSnake8.applyHeader_eq (hU : BeforeSnake8 p g U) (hW : chain.Within p.k g U)
    (hc : ∀ x ∈ cs, x ∈ U) (hH : Branch p.k g U (h :: H))
    (hstored : h.number % s.epochLength = s.minerHistoryCheckLen → ∀ x ∈ H, x ∈ chain.headers) :
    s.applyHeader p.k p.c chain cs h = s.applyHeader p.k p.c (branchStore g hg H) [] h := by
  refine applyHeader_congr fun hswitch => ?_
  have hle : s.minerHistoryCheckLen ≤ h.number := hswitch ▸ Nat.mod_le _ _
  rw [hU.findAncientHeader_branchStore hH hle]
  exact hU.findAncientHeader_eq hW hc _ hH (hstored hswitch)
    (by rw [length_cons, ← hH.number_eq]; exact hle)

/-- The loop of a batch, header by header: it carries the snapshot of the branch, filed under
the block the batch started from. -/
theorem BeforeSnake8.foldlM_applyHeader_eq (hU : BeforeSnake8 p g U) (hW : chain.Within p.k g U)
    (hc : ∀ x ∈ cs, x ∈ U) (hs : canonical p g hg H = .ok s) :
    ∀ {N : List Header}, Branch p.k g U (N ++ H) → CheckpointsStored p g hg chain (N ++ H) →
      N.reverse.foldlM (Snapshot.applyHeader p.k p.c chain cs) s =
        (·.relocate s.number s.hash) <$> canonical p g hg (N ++ H)
  | [], _, _ => by
    rw [nil_append, hs]
    rfl
  | h :: N, hH, hstored => by
    rw [cons_append] at hH hstored ⊢
    have hbelow := foldlM_applyHeader_eq hU hW hc hs (N := N) hH.tail
      fun x H' hsuffix => hstored x H' (hsuffix.trans (suffix_cons h _))
    rw [reverse_cons, foldlM_append, hbelow]
    cases hprev : canonical p g hg (N ++ H) with
    | error e =>
      rw [canonical, hprev]
      rfl
    | ok t =>
      have hsettled := hU.canonical_settled hH.tail hprev
      have hnumber : h.number = (N ++ H).length + 1 := hH.number_eq
      have hlt := hU.number_lt h (hH.mem_of_mem h mem_cons_self)
      have hwindow : (t.expire h.number).InWindow h.number := by
        rw [hnumber] at hlt ⊢
        exact hsettled.inWindow.expire (by omega)
      have hbase : s.number < h.number := by
        rw [(hU.canonical_settled hH.tail.of_append hs).number, hnumber, length_append]
        omega
      have hstore : t.applyHeader p.k p.c chain cs h =
          t.applyHeader p.k p.c (branchStore g hg (N ++ H)) [] h :=
        hU.applyHeader_eq hW hc hH (hstored h (N ++ H) (suffix_refl _) t hprev)
      have hstep : (t.relocate s.number s.hash).applyHeader p.k p.c chain cs h =
          (·.relocate s.number s.hash) <$> t.applyHeader p.k p.c chain cs h :=
        applyHeader_relocate hwindow (by rw [hsettled.number, hnumber]; omega) hbase
          s.hash
      rw [hU.canonical_cons hH hprev hsettled]
      simp only [map_eq_ok, ok_bind, foldlM_cons, foldlM_nil, bind_pure,
        hstep, hstore, Functor.map_map]
      rfl

/-- **A batch gives the snapshot of the branch**, whatever earlier block it starts from. -/
theorem BeforeSnake8.apply_eq_canonical (hU : BeforeSnake8 p g U) (hW : chain.Within p.k g U)
    (hc : ∀ x ∈ cs, x ∈ U) {N : List Header} (hs : canonical p g hg H = .ok s)
    (hH : Branch p.k g U (N ++ H)) (hstored : CheckpointsStored p g hg chain (N ++ H)) :
    s.apply p.k p.c chain cs N.reverse false = canonical p g hg (N ++ H) := by
  have hsettled := hU.canonical_settled hH.of_append hs
  by_cases hN : N = []
  · subst hN
    have hflag : { s with isSnake8Fork := false } = s := by
      rw [← hsettled.isSnake8Fork]
    rw [nil_append, hs, reverse_nil, apply, hflag]
    rfl
  · rw [hsettled.apply_eq hU hN hH, hU.foldlM_applyHeader_eq hW hc hs hH hstored]
    cases hresult : canonical p g hg (N ++ H) with
    | error e => rfl
    | ok t =>
      have ht := (hU.canonical_settled hH hresult).relocate_eq
      exact congrArg Except.ok ht

end Canonical

end ChilizChain
