import ChilizChain.Parlia.Retrieval

/-! Snapshots that come from the genesis block, Snake8 active or not. What a call imposes on the
snapshot it returns depends on the caller, so the snapshot of a block is not unique; but each one
that an engine hands out has been reached from the genesis snapshot by applying the headers of the
branch, up to the data that calls impose. -/

namespace ChilizChain

open Stateful Snapshot List Parlia Except

/-- `s'` is `s` up to the block it is filed under and the data that retrieval imposes. -/
def Snapshot.Resembles (s s' : Snapshot) : Prop :=
  s' = { s with
    number := s'.number, hash := s'.hash, blockInterval := s'.blockInterval,
    turnLength := s'.turnLength, isSnake8Fork := s'.isSnake8Fork,
    frequencyRLP := s'.frequencyRLP }

/-- `s` is a snapshot of the branch `H`, reached from the genesis block. -/
inductive Applied (p : Parlia) (g : Header) (U : Set Header) : List Header → Snapshot → Prop
  | genesis {isSnake8Fork : Bool} {s : Snapshot}
      (h : p.checkpointSnapshot 0 isSnake8Fork g (p.k.hash g) defaultBlockInterval p.c.epoch =
        .ok s) : Applied p g U [] s
  | block {header : Header} {H parents : List Header} {chain : ChainStore} {s s' : Snapshot}
      (below : Applied p g U H s) (branch : Branch p.k g U (header :: H))
      (within : chain.Within p.k g U) (parents_mem : ∀ x ∈ parents, x ∈ U)
      (h : s.applyHeader p.k p.c chain parents header = .ok s') :
      Applied p g U (header :: H) s'
  | imposed {H : List Header} {s s' : Snapshot} (below : Applied p g U H s)
      (h : s.Resembles s') : Applied p g U H s'

/-- A snapshot of the branch that is filed under its last block. -/
structure Filed (p : Parlia) (g : Header) (U : Set Header) (H : List Header) (s : Snapshot) :
    Prop where
  applied : Applied p g U H s
  number : s.number = H.length
  hash : s.hash = p.k.hash (tip g H)

/-- The engine holds snapshots of branches only, and those of the anchors are on disk. -/
abbrev Holds (p : Parlia) (g : Header) (U : Set Header) (anchors : Set Hash) (e : Engine) : Prop :=
  Carries p g U (Filed p g U) anchors e

variable {p : Parlia} {g : Header} {U : Set Header} {anchors A : Set Hash} {chain : ChainStore}
  {e : Engine} {H : List Header} {s s' : Snapshot}

/-! ## What a header does to the attestation and to the epoch length -/

theorem checkpointSnapshot_ok {number : ℕ} {fork : Bool} {checkpoint : Header}
    {blockHash : Hash} {blockInterval epochLength : ℕ}
    (h : p.checkpointSnapshot number fork checkpoint blockHash blockInterval epochLength = .ok s) :
    s.epochLength = epochLength ∧ s.attestation = none ∧ s.number = number ∧
      s.hash = blockHash := by
  unfold checkpointSnapshot at h
  obtain ⟨_, _, h⟩ := bind_eq_ok.mp h
  obtain ⟨_, _, h⟩ := bind_eq_ok.mp h
  obtain rfl := Except.ok.inj h
  exact ⟨rfl, rfl, rfl, rfl⟩

namespace Snapshot

theorem updateAttestation_congr (c : ChainConfig) (hd : Header)
    (hattestation : s'.attestation = s.attestation) (hepoch : s'.epochLength = s.epochLength) :
    (s'.updateAttestation c hd).attestation = (s.updateAttestation c hd).attestation := by
  unfold updateAttestation
  rw [hepoch, hattestation]
  split
  · exact hattestation
  · split
    · exact hattestation
    · exact hattestation
    · dsimp only
      split
      · exact hattestation
      · split
        · split <;> rfl
        · rfl

theorem updateEpochLength_congr (c : ChainConfig) (hd : Header)
    (hepoch : s'.epochLength = s.epochLength) :
    (s'.updateEpochLength c hd).epochLength = (s.updateEpochLength c hd).epochLength := by
  unfold updateEpochLength
  dsimp only
  rw [hepoch]
  split_ifs <;> simp_all

theorem changeValidators_frame {k : Crypto} {c : ChainConfig} {ps : List Header}
    {hd : Header} {epochLength : ℕ} (h : changeValidators k c chain ps s hd epochLength = .ok s') :
    s'.attestation = s.attestation ∧ s'.epochLength = s.epochLength := by
  rcases changeValidators_ok h with ⟨rfl, -⟩ | ⟨-, _, -, ⟨hswitch⟩⟩
  · exact ⟨rfl, rfl⟩
  · exact ⟨(congrArg Snapshot.attestation hswitch.eq).trans rfl,
      (congrArg Snapshot.epochLength hswitch.eq).trans rfl⟩

theorem applyHeader_attestation {k : Crypto} {c : ChainConfig} {ps : List Header}
    {hd : Header} (h : s.applyHeader k c chain ps hd = .ok s') :
    s'.attestation = (s.updateAttestation c hd).attestation ∧
      s'.epochLength = (s.updateEpochLength c hd).epochLength := by
  obtain ⟨validator, -, -, -, hchange⟩ := applyHeader_eq_ok h
  obtain ⟨hattestation, hepoch⟩ := changeValidators_frame hchange
  obtain ⟨_, hlength, -⟩ := updateEpochLength_frame c
    ((s.expire hd.number).recordBlock c hd validator) hd
  obtain ⟨_, hinterval, -⟩ := updateBlockInterval_frame c
    ((((s.expire hd.number).updateAttestation c hd).recordSigner c hd
      validator).recordForkHash hd) hd
  have hrecorded : ((s.expire hd.number).recordBlock c hd validator).attestation =
      ((s.expire hd.number).updateAttestation c hd).attestation := by
    rw [recordBlock, hinterval]
    rfl
  refine ⟨?_, ?_⟩
  · rw [hattestation, hlength, show _ = _ from hrecorded]
    exact updateAttestation_congr c hd rfl rfl
  · obtain ⟨_, _, _, _, hblock, -⟩ :=
      recordBlock_frame c (s.expire hd.number) hd validator
    rw [hepoch]
    exact updateEpochLength_congr c hd (by rw [hblock]; rfl)

end Snapshot

namespace Applied

theorem of_nil (h : Applied p g U H s) (hH : H = []) :
    s.attestation = none ∧ s.epochLength = p.c.epoch := by
  induction h with
  | genesis h => exact ⟨(checkpointSnapshot_ok h).2.1, (checkpointSnapshot_ok h).1⟩
  | block below branch within parents_mem h ih => cases hH
  | imposed below h ih =>
    rw [h]
    exact ih hH

theorem of_cons (h : Applied p g U H s) : ∀ {hd : Header} {T : List Header},
    H = hd :: T → ∃ t, Applied p g U T t ∧
      s.attestation = (t.updateAttestation p.c hd).attestation ∧
      s.epochLength = (t.updateEpochLength p.c hd).epochLength := by
  induction h with
  | genesis h => intro hd T hH; cases hH
  | block below branch within parents_mem h ih =>
    intro hd T hH
    obtain ⟨rfl, rfl⟩ := List.cons.inj hH
    exact ⟨_, below, applyHeader_attestation h⟩
  | imposed below h ih =>
    intro hd T hH
    obtain ⟨t, ht, hattestation, hepoch⟩ := ih hH
    refine ⟨t, ht, ?_, ?_⟩
    · rw [h]
      exact hattestation
    · rw [h]
      exact hepoch

theorem unique : ∀ {H : List Header} {s s' : Snapshot}, Applied p g U H s → Applied p g U H s' →
    s'.attestation = s.attestation ∧ s'.epochLength = s.epochLength
  | [], s, s', h, h' => by
    obtain ⟨hattestation, hepoch⟩ := h.of_nil rfl
    obtain ⟨hattestation', hepoch'⟩ := h'.of_nil rfl
    exact ⟨hattestation'.trans hattestation.symm, hepoch'.trans hepoch.symm⟩
  | hd :: H, s, s', h, h' => by
    obtain ⟨t, ht, hattestation, hepoch⟩ := h.of_cons rfl
    obtain ⟨t', ht', hattestation', hepoch'⟩ := h'.of_cons rfl
    obtain ⟨hatt, hlen⟩ := unique ht ht'
    rw [hattestation, hattestation', hepoch, hepoch']
    exact ⟨updateAttestation_congr p.c hd hatt hlen, updateEpochLength_congr p.c hd hlen⟩

theorem epochLength_ne_zero (h : Applied p g U H s) : s.epochLength ≠ 0 := by
  induction h with
  | genesis h => rw [(checkpointSnapshot_ok h).1]; exact p.c.epoch_pos.ne'
  | @block hd H ps chain s s' below branch within parents_mem h ih =>
    obtain ⟨epochLength, heq, hne⟩ := updateEpochLength_frame p.c s hd
    rw [(applyHeader_attestation h).2, heq]
    exact hne ih
  | imposed below h ih => rw [h]; exact ih

theorem loaded (h : Applied p g U H s) (fork : Bool) : Applied p g U H (s.loaded p.c fork) := by
  refine .imposed h ?_
  unfold Snapshot.Resembles Snapshot.loaded
  simp only [if_neg h.epochLength_ne_zero]

theorem imposeSnake8 (h : Applied p g U H s) (fork : Bool) (extra : Option Header) :
    Applied p g U H (p.imposeSnake8 fork extra s) := by
  refine .imposed h ?_
  unfold Snapshot.Resembles Parlia.imposeSnake8
  split_ifs <;> rfl

theorem foldlM (hW : chain.Within p.k g U) {ps : List Header} (hparents : ∀ x ∈ ps, x ∈ U) :
    ∀ {N A : List Header} {s s' : Snapshot}, Branch p.k g U (N ++ A) → Applied p g U A s →
      N.reverse.foldlM (applyHeader p.k p.c chain ps) s = .ok s' → Applied p g U (N ++ A) s'
  | [], A, s, s', _, hs, h => by
    obtain rfl := Except.ok.inj h
    exact hs
  | hd :: N, A, s, s', hH, hs, h => by
    rw [reverse_cons, foldlM_append] at h
    obtain ⟨t, ht, h⟩ := bind_eq_ok.mp h
    rw [foldlM_cons] at h
    obtain ⟨_, happly, hlast⟩ := bind_eq_ok.mp h
    obtain rfl := Except.ok.inj hlast
    exact .block (foldlM hW hparents hH.tail hs ht) hH hW hparents happly

end Applied

theorem Filed.apply (hg : g.number = 0) (hW : chain.Within p.k g U) {ps N A : List Header}
    (hparents : ∀ x ∈ ps, x ∈ U) {fork : Bool} (hH : Branch p.k g U (N ++ A))
    (hs : Filed p g U A s) (h : s.apply p.k p.c chain ps N.reverse fork = .ok s') :
    Filed p g U (N ++ A) s' := by
  by_cases hN : N = []
  · subst hN
    obtain rfl := Except.ok.inj h
    exact ⟨.imposed hs.applied rfl, hs.number, hs.hash⟩
  · rw [hH.apply_eq hg hN hs.number hs.hash] at h
    obtain ⟨t, ht, rfl⟩ := map_eq_ok_iff.mp h
    have hcopy : Applied p g U A { s with isSnake8Fork := fork }.copy :=
      .imposed hs.applied rfl
    exact ⟨.imposed (hcopy.foldlM hW hparents hH ht) rfl, rfl, rfl⟩

theorem Filed.imposeSnake8 (hs : Filed p g U H s) (fork : Bool)
    (extra : Option Header) : Filed p g U H (p.imposeSnake8 fork extra s) := by
  refine ⟨hs.applied.imposeSnake8 _ _, ?_, ?_⟩
  · rw [← hs.number]
    unfold Parlia.imposeSnake8
    split_ifs <;> rfl
  · rw [← hs.hash]
    unfold Parlia.imposeSnake8
    split_ifs <;> rfl

/-! ## Retrieval -/

theorem gatherHeader_eq (hgU : g ∈ U) (hinj : Set.InjOn p.k.hash U) (hW : chain.Within p.k g U)
    {h hd : Header} {ps rest : List Header} (hH : Branch p.k g U (h :: H))
    (hparents : ∀ x ∈ ps, x ∈ U)
    (hgather : p.gatherHeader chain (h :: H).length (p.k.hash h) ps = .ok (hd, rest)) :
    hd = h ∧ ∀ x ∈ rest, x ∈ U := by
  have hmem : h ∈ U := hH.mem_of_mem h mem_cons_self
  unfold gatherHeader at hgather
  split at hgather
  · rename_i last hlast
    split_ifs at hgather with hmismatch
    obtain ⟨rfl, rfl⟩ := Prod.mk.inj (Except.ok.inj hgather)
    push Not at hmismatch
    exact ⟨hinj (hparents _ (mem_of_getLast? hlast)) hmem hmismatch.1,
      fun x hx => hparents x (mem_of_mem_dropLast hx)⟩
  · split at hgather
    · rename_i stored hstored
      obtain ⟨rfl, rfl⟩ := Prod.mk.inj (Except.ok.inj hgather)
      have hmatch := find?_some hstored
      simp only [decide_eq_true_eq] at hmatch
      exact ⟨hinj (hW.mem_all hgU (mem_of_find?_eq_some hstored) hmem (.inl hmatch.1)) hmem
        hmatch.1, by simp⟩
    · cases hgather

/-- **Retrieval answers with a snapshot of the branch**, whatever the engine holds and whatever
data the call imposes. -/
theorem snapshot_filed (hg : g.number = 0) (hgU : g ∈ U) (hinj : Set.InjOn p.k.hash U)
    (hW : chain.Within p.k g U) {ps : List Header} (hH : Branch p.k g U H)
    (hanchored : Anchored p g anchors H) (hparents : ∀ x ∈ ps, x ∈ U) (fork : Bool)
    (extra : Option Header) : Triple (Holds p g U anchors)
      (p.snapshot chain H.length (p.k.hash (tip g H)) ps fork extra)
      fun r e => Holds p g U anchors e ∧ ∀ s, r = .ok s → Filed p g U H s := by
  -- every error is allowed, and any ps
  have hr : Retrievable p g U (Filed p g U) (fun _ _ => True) (fun _ _ => True) chain
      fork :=
    { genesis_number := hg
      genesis_mem := hgU
      hash_injOn := hinj
      within := hW
      genesis := fun _ => by
        cases hsnap : p.checkpointSnapshot 0 fork g (p.k.hash g) defaultBlockInterval
          p.c.epoch with
        | error err => exact trivial
        | ok s =>
          obtain ⟨-, -, hnumber, hhash⟩ := checkpointSnapshot_ok hsnap
          exact ⟨.genesis hsnap, hnumber, hhash⟩
      unhashed := fun _ => trivial
      filed := fun _ hs => hs.hash
      loaded := fun _ hs => ⟨hs.applied.loaded _, hs.number, hs.hash⟩
      touched := fun _ hs => ⟨.imposed hs.applied rfl, hs.number, hs.hash⟩
      cons := fun _ => trivial
      gather := fun {h H ps} hH _ hparents => by
        split
        · rename_i hgather
          obtain ⟨hheader, hrest⟩ := gatherHeader_eq hgU hinj hW hH hparents hgather
          exact ⟨hheader, trivial, hrest⟩
        · trivial }
  have happly : ∀ {N A ps s}, H = N ++ A → (∀ x ∈ ps, x ∈ U) → Filed p g U A s →
      Ends (Filed p g U) (fun _ _ => True) H
        ((s.apply p.k p.c chain ps N.reverse fork).map
          (p.imposeSnake8 fork extra)) := by
    intro N A ps s hsplit hparents hs
    subst hsplit
    cases happlied : s.apply p.k p.c chain ps N.reverse fork with
    | error err => exact trivial
    | ok snap => exact (hs.apply hg hW hparents hH happlied).imposeSnake8 fork extra
  intro e he
  obtain ⟨he', hends⟩ := hr.snapshot hH hanchored trivial hparents extra happly e he
  refine ⟨he', fun s hs => ?_⟩
  rw [hs] at hends
  exact hends

end ChilizChain
