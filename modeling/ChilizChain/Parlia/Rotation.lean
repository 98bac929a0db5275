import ChilizChain.Parlia.Window

/-! Validator-set rotation. An epoch block announces a validator set, and `minerHistoryCheckLen`
blocks later it is installed. Installing it may move the switch point of the same epoch; a second
switch then finds the same epoch block. -/

namespace ChilizChain

open Snapshot Bytes List Std.ExtTreeMap

namespace Snapshot

/-! ## The installed set -/

variable {v : Address}

theorem mem_foldl_insert {f : Address × ℕ → ValidatorInfo} :
    ∀ {l : List (Address × ℕ)} {vals : Std.ExtTreeMap Address ValidatorInfo},
      v ∈ l.foldl (fun vals entry => vals.insert entry.1 (f entry)) vals ↔
        v ∈ vals ∨ v ∈ l.map Prod.fst
  | [], vals => by simp
  | entry :: l, vals => by
    rw [foldl_cons, mem_foldl_insert, mem_insert, map_cons,
      mem_cons, Std.LawfulEqCmp.compare_eq_iff_eq, eq_comm, or_assoc, or_left_comm]

theorem mem_validatorMap {vals : List Address} {keys : List BLSPublicKey} :
    v ∈ validatorMap vals keys ↔ v ∈ vals := by
  rw [validatorMap, mem_foldl_insert, zipIdx_map_fst]
  simp

theorem mem_foldl_modify {f : Address × ℕ → ValidatorInfo → ValidatorInfo} :
    ∀ {l : List (Address × ℕ)} {vals : Std.ExtTreeMap Address ValidatorInfo},
      v ∈ l.foldl (fun vals entry => vals.modify entry.1 (f entry)) vals ↔ v ∈ vals
  | [], vals => by simp
  | entry :: l, vals => by
    rw [foldl_cons, mem_foldl_modify, mem_modify]

theorem mem_announcedValidators {c : ChainConfig} {hd : Header} {vals : List Address}
    {keys : List BLSPublicKey} {newVals : Std.ExtTreeMap Address ValidatorInfo}
    (h : announcedValidators c hd vals keys = .ok newVals) (v : Address) :
    v ∈ newVals ↔ v ∈ vals := by
  unfold announcedValidators at h
  split_ifs at h
  · rw [← Except.ok.inj h, mem_validatorMap]
  · rw [← Except.ok.inj h, assignIndices, mem_foldl_modify, mem_validatorMap]

theorem minerHistoryCheckLen_le_of_turnLength_le {s s' : Snapshot} (hpos : 0 < s.turnLength)
    (hle : s.turnLength ≤ s'.turnLength) (hvalidators : s'.validators = s.validators) :
    s.minerHistoryCheckLen ≤ s'.minerHistoryCheckLen := by
  have h := minerHistoryCheckLen_succ hpos
  have h' := minerHistoryCheckLen_succ (s := s') (hpos.trans_le hle)
  have hmul := Nat.mul_le_mul_left (s.validators.size / 2 + 1) hle
  rw [hvalidators] at h'
  omega

theorem turnLength_pos_of_window_lt {s : Snapshot} (h : s.minerHistoryCheckLen < 2 ^ 64 - 1) :
    0 < s.turnLength := by
  by_contra hzero
  have hzero : s.turnLength = 0 := by omega
  rw [minerHistoryCheckLen, hzero, Nat.mul_zero] at h
  exact absurd h (by decide)

end Snapshot

/-! ## One block -/

/-- A block after which the window is neither empty nor longer than the epoch. The epoch length
stays, and Snake8 does not shorten the turns. -/
structure RotationStep (p : Parlia) (g : Header) (U : Set Header) (_ : List (Header × Snapshot))
    (s : Snapshot) (header : Header) (s' : Snapshot) : Prop where
  mem : header ∈ U
  advances : ∃ chain parents isSnake8Fork extraHeader,
    chain.Within p.k g U ∧ (∀ h ∈ parents, h ∈ U) ∧
    (isSnake8Fork = true → s.turnLength ≤ snake8TurnLength) ∧
    p.advance chain parents isSnake8Fork extraHeader s header = .ok s'
  window_pos : 0 < s'.minerHistoryCheckLen
  window_lt : s'.minerHistoryCheckLen < s'.epochLength
  epochLength_eq : s'.epochLength = s.epochLength

/-- The set stays: outside the switch block of the epoch, or because of the marker entry. -/
structure SetStays (s : Snapshot) (header : Header) (s' : Snapshot) : Prop where
  validators_eq : s'.validators = s.validators
  window_le : s.minerHistoryCheckLen ≤ s'.minerHistoryCheckLen
  recents : ∀ key ∈ s'.recents, key = header.number ∨ key ∈ s.recents
  marked : header.number % s.epochLength = s.minerHistoryCheckLen →
    epochKey header.number s.epochLength = header.number ∨
      epochKey header.number s.epochLength ∈ s.recents

/-- The set that `checkpoint` announces is installed. -/
structure SetSwitches (c : ChainConfig) (s : Snapshot) (header checkpoint : Header)
    (s' : Snapshot) : Prop where
  switch_block : header.number % s.epochLength = s.minerHistoryCheckLen
  announced : ∃ vals keys, parseValidators checkpoint c s.epochLength = .ok (vals, keys) ∧
    ∀ v, v ∈ s'.validators ↔ v ∈ vals
  recents : ∀ key ∈ s'.recents, key = header.number ∨ key ∈ s.recents ∨
    key = epochKey header.number s.epochLength

section Step

variable {p : Parlia} {g : Header} {U : Set Header} {H : List (Header × Snapshot)}
  {s s' : Snapshot} {hd : Header}

theorem mem_of_recorded {x : Snapshot} (hx : Recorded hd s x) {key : ℕ}
    (hkey : key ∈ x.recents) : key = hd.number ∨ key ∈ s.recents := by
  rw [mem_iff_isSome_getElem?, Option.isSome_iff_exists] at hkey
  obtain ⟨signer, hsigner⟩ := hkey
  refine (hx.recents key signer hsigner).imp_right fun hold => ?_
  have hmem : key ∈ (s.expire hd.number).recents := by
    rw [mem_iff_isSome_getElem?, hold]
    rfl
  unfold expire at hmem
  dsimp only at hmem
  split_ifs at hmem
  · exact (mem_erase.mp hmem).2
  · exact hmem

theorem mem_switchRecents {c : ChainConfig} {x : Snapshot} {marker newSize key : ℕ}
    (hkey : key ∈ x.switchRecents c hd marker newSize) : key ∈ x.recents ∨ key = marker := by
  unfold switchRecents at hkey
  split_ifs at hkey
  · rw [mem_insert, Std.LawfulEqCmp.compare_eq_iff_eq] at hkey
    rcases hkey with rfl | hkey
    · exact .inr rfl
    · simp at hkey
  · rw [mem_iff_isSome_getElem?, Option.isSome_iff_exists] at hkey
    obtain ⟨signer, hsigner⟩ := hkey
    left
    rw [mem_iff_isSome_getElem?, (getElem?_foldl_erase hsigner).2]
    rfl

theorem RotationStep.cases (h : RotationStep p g U H s hd s') (hg : g ∈ U)
    (hinj : Set.InjOn p.k.hash U) (hbranch : Branch p.k g U (hd :: H.map Prod.fst))
    (hpos : 0 < s.turnLength) : SetStays s hd s' ∨ SetSwitches p.c s hd
      (tip g ((hd :: H.map Prod.fst).drop s.minerHistoryCheckLen)) s' := by
  obtain ⟨chain, ps, isSnake8Fork, extraHeader, hW, hparents, hturn, hadvance⟩ := h.advances
  obtain ⟨hnumber, -, y, frequencyRLP, hy, heq⟩ := Parlia.advance_ok hadvance
  obtain ⟨validator, -, -, -, hchange⟩ := applyHeader_eq_ok hy
  have hx := recorded p.c { s with isSnake8Fork := isSnake8Fork }.copy hd validator
  generalize (({ s with isSnake8Fork := isSnake8Fork }.copy.expire hd.number).recordBlock p.c
    hd validator).updateEpochLength p.c hd = x at hchange hx
  have hrecents : s'.recents = y.recents := by rw [heq]
  have hvalidators : s'.validators = y.validators := by rw [heq]
  rcases changeValidators_ok hchange with ⟨rfl, hmarked⟩ | ⟨hmod, checkpoint, hfound, ⟨hswitch⟩⟩
  · left
    refine ⟨hvalidators.trans hx.validators, ?_, ?_, ?_⟩
    · refine minerHistoryCheckLen_le_of_turnLength_le hpos ?_ (hvalidators.trans hx.validators)
      have hkept : y.turnLength = s.turnLength := hx.turnLength
      rw [heq]
      dsimp only
      split_ifs with hflag
      · exact hturn hflag
      · exact hkept.ge
    · intro key hkey
      rw [hrecents] at hkey
      exact mem_of_recorded hx hkey
    · intro hmod
      exact mem_of_recorded hx
        (hmarked (by omega) (hmod.trans hx.minerHistoryCheckLen.symm)).2
  · right
    have hlen : x.minerHistoryCheckLen = s.minerHistoryCheckLen := hx.minerHistoryCheckLen
    rw [hlen] at hmod hfound
    have hle : s.minerHistoryCheckLen ≤ (hd :: H.map Prod.fst).length := by
      rw [length_cons, ← hbranch.number_eq, ← hmod]
      exact Nat.mod_le _ _
    obtain rfl := findAncientHeader_sound hg hinj hW hparents _ hbranch hle hfound
    refine ⟨hmod, ⟨hswitch.validators, hswitch.voteAddrs, hswitch.parseValidators_eq, fun v => ?_⟩,
      fun key hkey => ?_⟩
    · rw [hvalidators, congrArg Snapshot.validators hswitch.eq]
      exact mem_announcedValidators hswitch.announced v
    · rw [hrecents, congrArg Snapshot.recents hswitch.eq] at hkey
      rcases mem_switchRecents hkey with hkey | rfl
      · exact (mem_of_recorded hx hkey).imp_right .inl
      · exact .inr (.inr rfl)

end Step

/-! ## Whole epochs -/

/-- The entries of the recent signers are block numbers and the markers of epochs that begin
below `bound`. -/
def MarksBelow (s : Snapshot) (bound : ℕ) : Prop :=
  ∀ key ∈ s.recents, key ≤ s.number ∨
    ∃ epoch, epoch * s.epochLength < bound ∧ key = sub64 (2 ^ 64 - 1) epoch

/-- What holds along every run from a snapshot with the epoch length `epochLength`. -/
structure Rotating (p : Parlia) (g : Header) (U : Set Header) (epochLength : ℕ)
    (H : List (Header × Snapshot)) (s : Snapshot) : Prop where
  branch : Branch p.k g U (H.map Prod.fst)
  hash_eq : s.hash = p.k.hash (tip g (H.map Prod.fst))
  number_eq : s.number = H.length
  epochLength_eq : s.epochLength = epochLength
  epochLength_lt : epochLength < 2 ^ 64
  window_pos : 0 < s.minerHistoryCheckLen
  window_lt : s.minerHistoryCheckLen < epochLength
  marks : MarksBelow s s.number

section Epoch

variable {p : Parlia} {g : Header} {U : Set Header} {E : ℕ} {H : List (Header × Snapshot)}
  {s s' : Snapshot} {hd : Header}

theorem Rotating.turnLength_pos (hs : Rotating p g U E H s) : 0 < s.turnLength := by
  have hwindow := hs.window_lt
  have hE := hs.epochLength_lt
  exact turnLength_pos_of_window_lt (by omega)

theorem RotationStep.number_eq (h : RotationStep p g U H s hd s') :
    hd.number = s.number + 1 ∧ s'.number = s.number + 1 ∧ hd.parentHash = s.hash ∧
      s'.hash = p.k.hash hd := by
  obtain ⟨_, _, _, _, -, -, -, hadvance⟩ := h.advances
  obtain ⟨hnumber, hparent, _, _, -, heq⟩ := Parlia.advance_ok hadvance
  exact ⟨hnumber, by rw [heq], hparent, by rw [heq]⟩

theorem RotationStep.branch (h : RotationStep p g U H s hd s')
    (hs : Rotating p g U E H s) : Branch p.k g U (hd :: H.map Prod.fst) := by
  obtain ⟨hnumber, -, hparent, -⟩ := h.number_eq
  refine .block hs.branch h.mem ?_ (hparent.trans hs.hash_eq)
  rw [hnumber, hs.number_eq, length_map]

theorem SetStays.marksBelow {bound : ℕ} (h : SetStays s hd s')
    (hnumber : hd.number = s'.number) (hle : s.number ≤ s'.number)
    (hepoch : s'.epochLength = s.epochLength) (hs : MarksBelow s bound) : MarksBelow s' bound := by
  intro key hkey
  rw [hepoch]
  rcases h.recents key hkey with rfl | hold
  · exact .inl hnumber.le
  · exact (hs key hold).imp_left fun hkey => hkey.trans hle

theorem SetSwitches.marksBelow {c : ChainConfig} {checkpoint : Header}
    (h : SetSwitches c s hd checkpoint s') (hnumber : hd.number = s'.number)
    (hle : s.number ≤ s'.number) (hepoch : s'.epochLength = s.epochLength)
    (hpos : 0 < s.minerHistoryCheckLen) (hs : MarksBelow s s.number) : MarksBelow s' s'.number := by
  intro key hkey
  rw [hepoch]
  rcases h.recents key hkey with rfl | hold | rfl
  · exact .inl hnumber.le
  · refine (hs key hold).imp (fun hkey => hkey.trans hle) ?_
    rintro ⟨epoch, hlt, rfl⟩
    exact ⟨epoch, hlt.trans_le hle, rfl⟩
  · refine .inr ⟨hd.number / s.epochLength, ?_, rfl⟩
    have hdiv := Nat.div_add_mod' hd.number s.epochLength
    have hmod := h.switch_block
    omega

theorem Rotating.step (hg : g ∈ U) (hinj : Set.InjOn p.k.hash U) (hs : Rotating p g U E H s)
    (h : RotationStep p g U H s hd s') : Rotating p g U E ((hd, s) :: H) s' := by
  obtain ⟨hnumber, hnumber', -, hash⟩ := h.number_eq
  have hepoch : s'.epochLength = E := h.epochLength_eq.trans hs.epochLength_eq
  refine ⟨h.branch hs, hash, ?_, hepoch, hs.epochLength_lt, h.window_pos, hepoch ▸ h.window_lt, ?_⟩
  · rw [hnumber', hs.number_eq, length_cons]
  · rcases h.cases hg hinj (h.branch hs) hs.turnLength_pos with hstays | hswitches
    · intro key hkey
      refine (hstays.marksBelow (by omega) (by omega) h.epochLength_eq hs.marks key
        hkey).imp_right ?_
      rintro ⟨epoch, hlt, rfl⟩
      exact ⟨epoch, by omega, rfl⟩
    · exact hswitches.marksBelow (by omega) (by omega) h.epochLength_eq hs.window_pos hs.marks

theorem Rotating.of_run {s₀ : Snapshot} (hg : g ∈ U) (hinj : Set.InjOn p.k.hash U)
    (hstart : Rotating p g U E [] s₀) (hrun : Run (RotationStep p g U) s₀ H s) :
    Rotating p g U E H s := by
  induction hrun with
  | start => exact hstart
  | next before h ih => exact ih.step hg hinj h

theorem MarksBelow.epochKey_not_mem {bound : ℕ} (hs : MarksBelow s bound)
    (hlt : s.number + 1 < 2 ^ 63) {number : ℕ}
    (hnumber : number = s.number + 1) (hbound : bound ≤ number / s.epochLength * s.epochLength) :
    ¬(epochKey number s.epochLength = number ∨ epochKey number s.epochLength ∈ s.recents) := by
  have hdiv : number / s.epochLength ≤ number := Nat.div_le_self _ _
  have hkey : epochKey number s.epochLength = 2 ^ 64 - 1 - number / s.epochLength :=
    sub64_of_le (by omega)
  rintro (heq | hmem)
  · omega
  · rcases hs _ hmem with hle | ⟨epoch, hepoch, heq⟩
    · omega
    · have hlt : epoch < number / s.epochLength :=
        Nat.lt_of_mul_lt_mul_right (hepoch.trans_le hbound)
      rw [sub64_of_le (by omega)] at heq
      omega

/-- The snapshots of an epoch, oldest first: those the blocks of `segment` were applied to, and
the last one. -/
def epochSnapshots (segment : List (Header × Snapshot)) (s : Snapshot) : List Snapshot :=
  (segment.map Prod.snd).reverse ++ [s]

theorem epochSnapshots_cons (seg : List (Header × Snapshot)) :
    epochSnapshots ((hd, s) :: seg) s' = epochSnapshots seg s ++ [s'] := by
  simp [epochSnapshots]

/-- An epoch before its switch: the set is `old` throughout. -/
structure Awaiting (old : Std.ExtTreeMap Address ValidatorInfo) (start : ℕ)
    (segment : List (Header × Snapshot)) (s : Snapshot) : Prop where
  validators_eq : ∀ x ∈ epochSnapshots segment s, x.validators = old
  before_switch : segment.length < s.minerHistoryCheckLen
  marks : MarksBelow s start

/-- An epoch after its switch: the set was `old`, and is the one that `checkpoint` announces. -/
structure Installed (c : ChainConfig) (E : ℕ) (old : Std.ExtTreeMap Address ValidatorInfo)
    (checkpoint : Header) (segment : List (Header × Snapshot)) (s : Snapshot)
    (vals : List Address) (before after : List Snapshot) : Prop where
  announced : ∃ keys, parseValidators checkpoint c E = .ok (vals, keys)
  split : epochSnapshots segment s = before ++ after
  before_ne_nil : before ≠ []
  after_ne_nil : after ≠ []
  old_before : ∀ x ∈ before, x.validators = old
  new_after : ∀ x ∈ after, ∀ v, v ∈ x.validators ↔ v ∈ vals

section Phases

variable {seg earlier : List (Header × Snapshot)} {vals : List Address}
  {before after : List Snapshot} {old : Std.ExtTreeMap Address ValidatorInfo}

section

variable (hs : Rotating p g U E (seg ++ earlier) s)
include hs

variable (h : RotationStep p g U (seg ++ earlier) s hd s')

include h in
theorem Rotating.offset (hstart : earlier.length % E = 0) (hlt : seg.length + 1 < E) :
    hd.number % E = seg.length + 1 ∧ hd.number / E * E = earlier.length := by
  have hnumber : hd.number = earlier.length + (seg.length + 1) := by
    rw [h.number_eq.1, hs.number_eq, length_append]
    omega
  have hmod : hd.number % E = seg.length + 1 := by
    rw [hnumber, Nat.add_mod, hstart, Nat.zero_add, Nat.mod_mod, Nat.mod_eq_of_lt hlt]
  have hdiv := Nat.div_add_mod' hd.number E
  exact ⟨hmod, by omega⟩

theorem SetSwitches.checkpoint_eq (h : SetSwitches p.c s hd
      (tip g ((hd :: (seg ++ earlier).map Prod.fst).drop s.minerHistoryCheckLen)) s')
    (hmod : hd.number % E = seg.length + 1) :
    SetSwitches p.c s hd (tip g (earlier.map Prod.fst)) s' := by
  have hlen : s.minerHistoryCheckLen = (seg.map Prod.fst).length + 1 := by
    rw [← h.switch_block, hs.epochLength_eq, hmod, length_map]
  rwa [hlen, drop_succ_cons, map_append, drop_left] at h

include h in
theorem Awaiting.step (hg : g ∈ U) (hinj : Set.InjOn p.k.hash U) (hstart : earlier.length % E = 0)
    (hlt : seg.length + 1 < E) (hnumber : s'.number < 2 ^ 63)
    (ha : Awaiting old earlier.length seg s) : Awaiting old earlier.length ((hd, s) :: seg) s' ∨
      ∃ vals before after, Installed p.c E old (tip g (earlier.map Prod.fst))
        ((hd, s) :: seg) s' vals before after := by
  obtain ⟨hmod, hdiv⟩ := hs.offset h hstart hlt
  obtain ⟨hheader, hnext, -, -⟩ := h.number_eq
  rcases h.cases hg hinj (h.branch hs) hs.turnLength_pos with hstays | hswitches
  · left
    have hne : hd.number % s.epochLength ≠ s.minerHistoryCheckLen := fun hswitch =>
      ha.marks.epochKey_not_mem (by omega) hheader (by rw [hs.epochLength_eq, hdiv])
        (hstays.marked hswitch)
    rw [hs.epochLength_eq, hmod] at hne
    refine ⟨fun x hx => ?_, ?_, ?_⟩
    · rw [epochSnapshots_cons, mem_append, mem_singleton] at hx
      rcases hx with hx | rfl
      · exact ha.validators_eq x hx
      · rw [hstays.validators_eq]
        exact ha.validators_eq s (by simp [epochSnapshots])
    · have hbefore := ha.before_switch
      have hwindow := hstays.window_le
      rw [length_cons]
      omega
    · exact hstays.marksBelow (by omega) (by omega) h.epochLength_eq ha.marks
  · right
    obtain ⟨vals, keys, hparse, hvals⟩ := (hswitches.checkpoint_eq hs hmod).announced
    rw [hs.epochLength_eq] at hparse
    refine ⟨vals, epochSnapshots seg s, [s'], ⟨keys, hparse⟩, epochSnapshots_cons seg,
      by simp [epochSnapshots], by simp, ha.validators_eq, ?_⟩
    intro x hx
    rw [mem_singleton.mp hx]
    exact hvals

include h in
theorem Installed.step (hg : g ∈ U)
    (hinj : Set.InjOn p.k.hash U) (hstart : earlier.length % E = 0) (hlt : seg.length + 1 < E)
    (hi : Installed p.c E old (tip g (earlier.map Prod.fst)) seg s vals before after) :
    Installed p.c E old (tip g (earlier.map Prod.fst)) ((hd, s) :: seg) s' vals before
      (after ++ [s']) := by
  have hmem : s ∈ after := by
    have hlast : (before ++ after).getLast? = some s := by
      rw [← hi.split, epochSnapshots, getLast?_concat]
    rw [getLast?_append_of_ne_nil _ hi.after_ne_nil] at hlast
    exact mem_of_getLast? hlast
  -- A second switch of the epoch announces the set that is already installed.
  have hnew : ∀ v, v ∈ s'.validators ↔ v ∈ vals := by
    rcases h.cases hg hinj (h.branch hs) hs.turnLength_pos with hstays | hswitches
    · rw [hstays.validators_eq]
      exact hi.new_after s hmem
    · obtain ⟨vals', keys', hparse', hvals⟩ :=
        (hswitches.checkpoint_eq hs (hs.offset h hstart hlt).1).announced
      obtain ⟨keys, hparse⟩ := hi.announced
      rw [hs.epochLength_eq, hparse] at hparse'
      obtain ⟨rfl, -⟩ := Prod.mk.inj (Except.ok.inj hparse')
      exact hvals
  refine ⟨hi.announced, ?_, hi.before_ne_nil, by simp, hi.old_before, fun x hx => ?_⟩
  · rw [epochSnapshots_cons, hi.split, append_assoc]
  · rcases mem_append.mp hx with hx | hx
    · exact hi.new_after x hx
    · rw [mem_singleton.mp hx]
      exact hnew

end

/-- Through an epoch the set is the one of its first block until a switch, and the announced one
from then on. -/
theorem epoch_phase {s₀ : Snapshot} (hg : g ∈ U) (hinj : Set.InjOn p.k.hash U)
    (hrotating : Rotating p g U E [] s₀) (hstart : earlier.length % E = 0) :
    ∀ {seg : List (Header × Snapshot)} {s : Snapshot},
      Run (RotationStep p g U) s₀ (seg ++ earlier) s → seg.length < E →
      s.number < 2 ^ 63 → ∃ first, Run (RotationStep p g U) s₀ earlier first ∧
        (Awaiting first.validators earlier.length seg s ∨
          ∃ vals before after, Installed p.c E first.validators (tip g (earlier.map Prod.fst))
            seg s vals before after)
  | [], s, hrun, _, _ => by
    have hs : Rotating p g U E earlier s := .of_run hg hinj hrotating hrun
    refine ⟨s, hrun, .inl ⟨?_, hs.window_pos, ?_⟩⟩
    · simp [epochSnapshots]
    · rw [← hs.number_eq]
      exact hs.marks
  | (hd, s) :: seg, s', hrun, hlt, hnumber => by
    have hbefore : Run (RotationStep p g U) s₀ (seg ++ earlier) s := hrun.before
    have h : RotationStep p g U (seg ++ earlier) s hd s' := hrun.last
    have hs : Rotating p g U E (seg ++ earlier) s := .of_run hg hinj hrotating hbefore
    have hnext := h.number_eq.2.1
    rw [length_cons] at hlt
    obtain ⟨first, hfirst, hphase⟩ :=
      epoch_phase hg hinj hrotating hstart hbefore (by omega) (by omega)
    refine ⟨first, hfirst, ?_⟩
    rcases hphase with ha | ⟨vals, before, after, hi⟩
    · exact ha.step hs h hg hinj hstart hlt hnumber
    · exact .inr ⟨vals, before, after ++ [s'], hi.step hs h hg hinj hstart hlt⟩

theorem Rotating.validators_at_checkpoint (hg : g ∈ U) (hinj : Set.InjOn p.k.hash U)
    (hs : Rotating p g U E H s) (h : RotationStep p g U H s hd s')
    (hstart : (H.length + 1) % E = 0) : s'.validators = s.validators := by
  rcases h.cases hg hinj (h.branch hs) hs.turnLength_pos with hstays | hswitches
  · exact hstays.validators_eq
  · have hmod := hswitches.switch_block
    rw [hs.epochLength_eq, h.number_eq.1, hs.number_eq, hstart] at hmod
    exact absurd hmod hs.window_pos.ne

end Phases

/-- **Rotation.** Let `earlier` end with the first block of an epoch and `segment` be blocks of
that epoch. The set stays as it was up to some block after the first one, and from that block on
it is the set that the first block announces; a whole epoch has such a block. -/
theorem validators_rotate {p : Parlia} {g : Header} {U : Set Header} {s₀ s : Snapshot}
    {segment earlier : List (Header × Snapshot)} (hgU : g ∈ U) (hinj : Set.InjOn p.k.hash U)
    (hgenesis : s₀.number = 0) (hhash : s₀.hash = p.k.hash g) (hempty : s₀.recents = ∅)
    (hpos : 0 < s₀.minerHistoryCheckLen) (hwindow : s₀.minerHistoryCheckLen < s₀.epochLength)
    (hepoch : s₀.epochLength < 2 ^ 64)
    (hrun : Run (RotationStep p g U) s₀ (segment ++ earlier) s) (hnumber : s.number < 2 ^ 63)
    (hstart : earlier.length % s₀.epochLength = 0) (hlength : segment.length < s₀.epochLength) :
    ∃ old before after, epochSnapshots segment s = before ++ after ∧ before ≠ [] ∧
      (segment.length + 1 = s₀.epochLength → after ≠ []) ∧
      (∀ entry ∈ earlier.head?, entry.2.validators = old) ∧ (∀ x ∈ before, x.validators = old) ∧
      (after ≠ [] → ∃ vals keys,
        parseValidators (tip g (earlier.map Prod.fst)) p.c s₀.epochLength = .ok (vals, keys) ∧
        ∀ x ∈ after, ∀ v, v ∈ x.validators ↔ v ∈ vals) := by
  have hrotating : Rotating p g U s₀.epochLength [] s₀ :=
    ⟨.genesis, hhash, hgenesis, rfl, hepoch, hpos, hwindow, by simp [MarksBelow, hempty]⟩
  obtain ⟨first, hfirst, hphase⟩ := epoch_phase hgU hinj hrotating hstart hrun hlength hnumber
  have hold : ∀ entry ∈ earlier.head?, entry.2.validators = first.validators := by
    intro entry hentry
    cases earlier with
    | nil => simp at hentry
    | cons last earlier =>
      obtain rfl : last = entry := by simpa using hentry
      have hs : Rotating p g U s₀.epochLength earlier last.2 :=
        .of_run hgU hinj hrotating hfirst.before
      exact (hs.validators_at_checkpoint hgU hinj hfirst.last hstart).symm
  rcases hphase with ha | ⟨vals, before, after, hi⟩
  · refine ⟨first.validators, epochSnapshots segment s, [], by simp, by simp [epochSnapshots], ?_,
      hold, ha.validators_eq, by simp⟩
    intro hfull
    have hs : Rotating p g U s₀.epochLength (segment ++ earlier) s :=
      .of_run hgU hinj hrotating hrun
    have hbefore := ha.before_switch
    have hlt := hs.window_lt
    omega
  · obtain ⟨keys, hparse⟩ := hi.announced
    exact ⟨first.validators, before, after, hi.split, hi.before_ne_nil, fun _ => hi.after_ne_nil,
      hold, hi.old_before, fun _ => ⟨vals, keys, hparse, hi.new_after⟩⟩

end Epoch

namespace Sample

theorem early_empty_within : (chain []).Within crypto genesis early :=
  .of_subset rfl (by simp [chain])

theorem rotates_block1 : RotationStep engine genesis early [] genesisSnap block1
    (after genesisSnap block1) where
  mem := show block1 ∈ [genesis, block1, block2] by simp
  advances := ⟨chain [], [], false, none, early_empty_within, by simp, by simp, by decide +kernel⟩
  window_pos := by decide +kernel
  window_lt := by decide +kernel
  epochLength_eq := by decide +kernel

theorem rotates_block2 : RotationStep engine genesis early [(block1, genesisSnap)]
    (after genesisSnap block1) block2 (after (after genesisSnap block1) block2) where
  mem := show block2 ∈ [genesis, block1, block2] by simp
  advances := ⟨chain [], [], false, none, early_empty_within, by simp, by simp, by decide +kernel⟩
  window_pos := by decide +kernel
  window_lt := by decide +kernel
  epochLength_eq := by decide +kernel

/-- Lorentz from the genesis block on, epochs of 498 blocks until it makes them 500. -/
def lorentzEngine : Parlia where
  k := crypto
  c := { (default : ChainConfig) with
    epoch := 498, epoch_pos := by decide, londonBlock := some 0, lorentzTime := some 0 }
  fullImmutabilityThreshold := 90000
  fakeDiff := false

def lorentzSnap : Snapshot :=
  .newSnapshot lorentzEngine.c 0 (crypto.hash fourGenesis) [addr 1, addr 2, addr 3, addr 4] [] false

/-- The validators of the sample that block `n` announces: another set in block 498, the old one
in block 500. -/
def announcement (n : ℕ) : Bytes :=
  if n = 498 then (addr 1).bytes ++ (addr 2).bytes ++ (addr 3).bytes ++ (addr 5).bytes
  else if n = 500 then (addr 1).bytes ++ (addr 2).bytes ++ (addr 3).bytes ++ (addr 4).bytes
  else []

/-- The four validators take turns. -/
def turnSigner (n : ℕ) : Address := if n = 0 then addr 0 else addr (1 + UInt8.ofNat (n % 4))

def nextBlock (n : ℕ) : Header :=
  { (default : Header) with
    parentHash := .ofBytes 32 (1 :: ((turnSigner n).bytes ++ leBytes 8 n))
    coinbase := turnSigner (n + 1)
    number := n + 1
    extra := vanity ++ (announcement (n + 1) ++ sealOf (turnSigner (n + 1))) }

/-- The snapshots of the next `count` blocks, as long as they are accepted. -/
def snapshotsAfter (headers : List Header) : ℕ → Snapshot → Except Err (List Snapshot)
  | 0, _ => .ok []
  | count + 1, s => do
    let s ← lorentzEngine.advance turnStore headers false none s (nextBlock s.number)
    let rest ← snapshotsAfter headers count s
    .ok (s :: rest)

/-- The snapshot of block `n` before block 498: the last three signers and the last four fork
hashes. -/
def lorentzSnapAt (n : ℕ) : Snapshot :=
  { lorentzSnap with
    number := n
    hash := crypto.hash (nextBlock (n - 1))
    blockInterval := lorentzBlockInterval
    recents := .ofList ((range 3).map fun i => (n - i, turnSigner (n - i)))
    recentForkHashes := .ofList ((range 4).map fun i => (n - i, replicate 4 (0 : UInt8))) }

/-- The two snapshots are the same; their maps are compared as maps. -/
abbrev Same (s t : Snapshot) : Prop :=
  s.recents = t.recents ∧ s.recentForkHashes = t.recentForkHashes ∧
    { s with recents := ∅, recentForkHashes := ∅ } = { t with recents := ∅, recentForkHashes := ∅ }

theorem Same.eq {s t : Snapshot} (h : Same s t) : s = t := by
  cases s
  cases t
  simp_all [Same]

/-- A run in two parts. -/
theorem snapshotsAfter_add {headers : List Header} {p : Snapshot → Bool} {s t : Snapshot} {m n : ℕ}
    (hrun : (snapshotsAfter headers m s).map (fun l => l.all p && decide (Same (l.getLastD s) t)) =
      .ok true)
    (h : (snapshotsAfter headers n t).map (·.all p) = .ok true) :
    (snapshotsAfter headers (m + n) s).map (·.all p) = .ok true := by
  induction m generalizing s with
  | zero =>
    have heq : s = t := Same.eq (of_decide_eq_true (Except.ok.inj hrun))
    rwa [Nat.zero_add, heq]
  | succ m ih =>
    obtain ⟨_, hbind, hlast⟩ := Except.map_eq_ok_iff.mp hrun
    obtain ⟨s₁, hs₁, hrest⟩ := Except.bind_eq_ok.mp hbind
    obtain ⟨l, hl, ⟨⟩⟩ := Except.bind_eq_ok.mp hrest
    rw [all_cons, getLastD_cons, Bool.and_assoc, Bool.and_eq_true] at hlast
    obtain ⟨l', hl', hall⟩ := Except.map_eq_ok_iff.mp
      (ih (Except.map_eq_ok_iff.mpr ⟨l, hl, hlast.2⟩))
    refine Except.map_eq_ok_iff.mpr ⟨s₁ :: l', ?_, by rw [all_cons, hlast.1, hall]; rfl⟩
    rw [Nat.succ_add, snapshotsAfter]
    exact Except.bind_eq_ok.mpr ⟨s₁, hs₁, Except.bind_eq_ok.mpr ⟨l', hl', rfl⟩⟩

end Sample

open Sample in
/-- Two blocks of the first epoch; block 1 installs the set of the genesis block. -/
theorem validators_rotate_sample :
    let segment := [(block2, after genesisSnap block1), (block1, genesisSnap)]
    ∃ old before after', epochSnapshots segment (after (after genesisSnap block1) block2) =
        before ++ after' ∧ before ≠ [] ∧
      (segment.length + 1 = genesisSnap.epochLength → after' ≠ []) ∧
      (∀ entry ∈ ([] : List (Header × Snapshot)).head?, entry.2.validators = old) ∧
      (∀ x ∈ before, x.validators = old) ∧
      (after' ≠ [] → ∃ vals keys,
        parseValidators genesis engine.c genesisSnap.epochLength = .ok (vals, keys) ∧
        ∀ x ∈ after', ∀ v, v ∈ x.validators ↔ v ∈ vals) :=
  validators_rotate early_beforeSnake8.genesis_mem early_beforeSnake8.hash_injOn rfl rfl rfl
    (by decide) (by decide) (by decide)
    (.next (.next .start rotates_block1) rotates_block2) (by decide +kernel) rfl
    (by decide)

open Sample in
/-- Block 498 begins an epoch and announces validator 5, but from block 499 on epochs have 500
blocks: no block up to 502, where the set of block 500 is installed, installs the set of block
498. -/
theorem validators_never_installed :
    (snapshotsAfter ((List.range 502).map nextBlock) 502 lorentzSnap).map (·.all fun s =>
      s.minerHistoryCheckLen = 2 ∧ 2 < s.epochLength ∧
        s.validators.keys = [addr 1, addr 2, addr 3, addr 4]) = .ok true ∧
    lorentzSnap.epochLength = 498 ∧ parseValidators (nextBlock 497) lorentzEngine.c 498 =
      .ok ([addr 1, addr 2, addr 3, addr 5], []) := by
  refine ⟨?_, by decide +kernel⟩
  -- the kernel applies a hundred headers at a time
  refine snapshotsAfter_add (m := 100) (n := 402) (t := lorentzSnapAt 100) (by decide +kernel) ?_
  refine snapshotsAfter_add (m := 100) (n := 302) (t := lorentzSnapAt 200) (by decide +kernel) ?_
  refine snapshotsAfter_add (m := 100) (n := 202) (t := lorentzSnapAt 300) (by decide +kernel) ?_
  refine snapshotsAfter_add (m := 100) (n := 102) (t := lorentzSnapAt 400) (by decide +kernel) ?_
  decide +kernel

end ChilizChain
