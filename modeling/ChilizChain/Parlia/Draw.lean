import ChilizChain.Parlia.Selection

/-! How often a candidate is drawn. The selection walks over the cumulative frequencies, which is
to say that each candidate holds as many tickets as its frequency, in ascending order of address,
and the last one also holds the tickets that are left over. The ticket is drawn by the digest of
the block number, afresh for every block of a turn. -/

namespace ChilizChain

open Bytes List Nat

namespace CandidateEntry

/-! ## Tickets -/

/-- One ticket for each unit of frequency. -/
def tickets (candidates : List CandidateEntry) : List Address :=
  candidates.flatMap fun entry => List.replicate entry.frequency entry.address

/-- The candidate that the loop falls back to. -/
def lastAddress : Address → List CandidateEntry → Address
  | last, [] => last
  | _, entry :: rest => lastAddress entry.address rest

/-- What the entries of `addr` have together; an address may be listed more than once. -/
def frequencyOfAddress (addr : Address) (candidates : List CandidateEntry) : ℕ :=
  total (candidates.filter fun entry => entry.address = addr)

theorem length_tickets (cs : List CandidateEntry) : (tickets cs).length = total cs := by
  induction cs with
  | nil => rfl
  | cons entry rest ih =>
    rw [tickets, flatMap_cons, length_append, length_replicate, total_cons, ← ih]
    rfl

theorem count_tickets (addr : Address) (cs : List CandidateEntry) :
    (tickets cs).count addr = frequencyOfAddress addr cs := by
  induction cs with
  | nil => rfl
  | cons entry rest ih =>
    rw [tickets, flatMap_cons, count_append, frequencyOfAddress, filter_cons]
    change _ + (tickets rest).count addr = _
    rw [ih]
    by_cases haddr : entry.address = addr
    · rw [haddr, count_replicate_self, if_pos (by simp), total_cons]
      rfl
    · rw [count_replicate, if_neg (by simpa using haddr), if_neg (by simpa using haddr),
        zero_add]
      rfl

theorem pick_eq_getD (cumulative target : ℕ) (last : Address) (cs : List CandidateEntry) :
    pick (cumulative + target) cumulative last cs =
      (tickets cs).getD target (lastAddress last cs) := by
  induction cs generalizing cumulative target last with
  | nil => simp [pick, tickets, lastAddress]
  | cons entry rest ih =>
    rw [pick, tickets, flatMap_cons, lastAddress]
    split_ifs with hlt
    · rw [getD_append _ _ _ _ (by rw [length_replicate]; omega),
        getD_replicate _ (by omega)]
    · obtain ⟨beyond, rfl⟩ : ∃ beyond, target = entry.frequency + beyond :=
        ⟨target - entry.frequency, by omega⟩
      rw [getD_append_right _ _ _ _ (by simp), length_replicate, Nat.add_sub_cancel_left,
        ← Nat.add_assoc, ih]
      rfl

variable {cs : List CandidateEntry}

variable (last : Address)

theorem map_pick_range {n : ℕ} (hle : total cs ≤ n) :
    (List.range n).map (fun target => pick target 0 last cs) =
      tickets cs ++ List.replicate (n - total cs) (lastAddress last cs) := by
  refine ext_getElem ?_ fun target htarget htarget' => ?_
  · rw [length_map, length_range, length_append, length_tickets,
      length_replicate]
    omega
  · have hpick := pick_eq_getD 0 target last cs
    rw [zero_add] at hpick
    rw [getElem_map, getElem_range, hpick, getElem_append]
    split_ifs with hlt
    · exact getD_eq_getElem _ _ hlt
    · rw [getD_eq_default _ _ (by omega), getElem_replicate]

theorem countP_pick {n : ℕ} (hle : total cs ≤ n) (addr : Address) :
    (List.range n).countP (fun target => pick target 0 last cs = addr) =
      frequencyOfAddress addr cs +
        if addr = lastAddress last cs then n - total cs else 0 := by
  have hcount := congrArg (List.count addr) (map_pick_range last hle)
  rw [count_append, count_tickets, count_replicate, List.count, countP_map] at hcount
  refine Eq.trans (countP_congr fun target _ => ?_) (hcount.trans ?_)
  · rw [decide_eq_true_eq, Function.comp_apply, beq_iff_eq]
  · congr 1
    exact if_congr (by rw [beq_iff_eq, eq_comm]) rfl rfl

theorem lastAddress_mem (hne : cs ≠ []) : lastAddress last cs ∈ cs.map address := by
  induction cs generalizing last with
  | nil => exact absurd rfl hne
  | cons entry rest ih =>
    rw [lastAddress, map_cons]
    cases rest with
    | nil => exact mem_cons_self ..
    | cons next rest => exact mem_cons_of_mem _ (ih entry.address (cons_ne_nil next rest))

theorem mem_tickets {addr : Address} : addr ∈ tickets cs ↔
      ∃ entry ∈ cs, 0 < entry.frequency ∧ entry.address = addr := by
  rw [tickets, mem_flatMap]
  refine exists_congr fun entry => and_congr_right fun _ => ?_
  rw [mem_replicate, pos_iff_ne_zero, eq_comm (a := addr)]

theorem isLE_lastAddress
    (hsorted : cs.Pairwise fun a b => (compare a.address b.address).isLE = true) :
    ∀ entry ∈ cs, (compare entry.address (lastAddress last cs)).isLE = true := by
  induction cs generalizing last with
  | nil => simp
  | cons first rest ih =>
    obtain ⟨hfirst, hrest⟩ := pairwise_cons.mp hsorted
    intro entry hentry
    rw [lastAddress]
    rcases mem_cons.mp hentry with rfl | hentry
    · cases rest with
      | nil =>
        rw [lastAddress, Std.LawfulEqOrd.compare_eq_iff_eq.mpr rfl]
        rfl
      | cons next rest =>
        obtain ⟨greatest, hmem, hgreatest⟩ :=
          mem_map.mp (lastAddress_mem entry.address (cons_ne_nil next rest))
        rw [← hgreatest]
        exact hfirst greatest hmem
    · exact ih first.address hrest entry hentry

theorem ascending_perm (cs : List CandidateEntry) : (ascending cs).Perm cs :=
  perm_insertionSort _ _

theorem total_ascending (cs : List CandidateEntry) : total (ascending cs) = total cs :=
  ((ascending_perm cs).map frequency).sum_eq

theorem frequencyOfAddress_ascending (addr : Address) (cs : List CandidateEntry) :
    frequencyOfAddress addr (ascending cs) = frequencyOfAddress addr cs :=
  (((ascending_perm cs).filter _).map frequency).sum_eq

theorem pairwise_ascending (cs : List CandidateEntry) :
    (ascending cs).Pairwise fun a b => (compare a.address b.address).isLE = true := by
  have htotal : Std.Total fun a b : CandidateEntry =>
      (compare a.address b.address).isLE = true := by
    refine ⟨fun a b => ?_⟩
    rw [show compare b.address a.address = (compare a.address b.address).swap from
      Std.OrientedOrd.eq_swap]
    cases compare a.address b.address <;> decide
  have htrans : IsTrans CandidateEntry fun a b => (compare a.address b.address).isLE = true :=
    ⟨fun a b c hab hbc => Std.TransCmp.isLE_trans hab hbc⟩
  exact pairwise_insertionSort _ _

end CandidateEntry

namespace Snapshot

open CandidateEntry

/-! ## The draw of a block -/

/-- The candidates that the data announce, as they are decoded. -/
def Decodes (freqRLP : Bytes) (entries : List CandidateEntry) : Prop :=
  Rlp.decodeExact (Rlp.decodeSlice CandidateEntry.decode) freqRLP = .ok entries

/-- The candidate that holds the ticket `target`. -/
def ownerOf (entries : List CandidateEntry) (target : ℕ) : Address :=
  pick target 0 default (ascending entries)

variable {es : List CandidateEntry}

theorem selectValidatorFromFrequencyRLP_of_decodes {freqRLP : Bytes}
    (hdecodes : Decodes freqRLP es) (hne : es ≠ []) (k : Crypto) (s : Snapshot) :
    s.selectValidatorFromFrequencyRLP k freqRLP = .ok (ownerOf es (drawnTarget k s)) := by
  have hcandidates : candidates freqRLP = ascending es := by
    rw [candidates, hdecodes]
  obtain ⟨hnone, -⟩ | ⟨entry, howns, hselect⟩ := selectValidatorFromFrequencyRLP_eq k s freqRLP
  · rw [hcandidates] at hnone
    have hperm := ascending_perm es
    rw [hnone] at hperm
    exact absurd hperm.symm.eq_nil hne
  · rw [hcandidates] at howns
    rw [hselect, ownerOf, pick_eq_of_owns default howns]

theorem drawnTarget_lt (k : Crypto) (s : Snapshot) :
    drawnTarget k s < validatorFrequencyPrecision :=
  mod_lt _ (by decide)

theorem drawnTarget_eq {k : Crypto} {s : Snapshot} {target : ℕ}
    (htarget : target < validatorFrequencyPrecision)
    (hdigest : k.sha256 (leBytes 8 (s.number + 1)) = digestOf target) :
    drawnTarget k s = target := by
  rw [drawnTarget, hdigest, beNat_digestOf (htarget.trans (by decide)), mod_eq_of_lt htarget]

/-- Two consecutive blocks of one turn are always given to the same candidate. -/
def SameThroughTurn (freqRLP : Bytes) (turnLength : ℕ) : Prop :=
  ∀ (k : Crypto) (s : Snapshot), s.turnLength = turnLength →
    (s.number + 1) / turnLength = (s.number + 2) / turnLength →
    s.selectValidatorFromFrequencyRLP k freqRLP =
      { s with number := s.number + 1 }.selectValidatorFromFrequencyRLP k freqRLP

/-- `addr` holds all tickets, the leftover included. -/
structure HoldsAll (entries : List CandidateEntry) (addr : Address) : Prop where
  listed : addr ∈ entries.map address
  others : ∀ entry ∈ entries, entry.address ≠ addr → entry.frequency = 0
  leftover : total entries < validatorFrequencyPrecision →
    ∀ entry ∈ entries, (compare entry.address addr).isLE = true

theorem ownerOf_range (hsum : total es ≤ validatorFrequencyPrecision) :
    (List.range validatorFrequencyPrecision).map (ownerOf es) = tickets (ascending es) ++
        List.replicate (validatorFrequencyPrecision - total es)
          (lastAddress default (ascending es)) := by
  rw [← total_ascending]
  exact map_pick_range default (by rwa [total_ascending])

theorem lastAddress_ascending (hne : es ≠ []) {addr : Address} :
    lastAddress default (ascending es) = addr ↔ addr ∈ es.map address ∧
        ∀ entry ∈ es, (compare entry.address addr).isLE = true := by
  have hgreatest := isLE_lastAddress default (pairwise_ascending es)
  have hmem : lastAddress default (ascending es) ∈ es.map address := by
    refine ((ascending_perm es).map address).mem_iff.mp (lastAddress_mem default ?_)
    intro hnil
    exact hne ((ascending_perm es).symm.trans (List.Perm.of_eq hnil)).eq_nil
  constructor
  · rintro rfl
    exact ⟨hmem, fun entry hentry => hgreatest entry ((ascending_perm es).mem_iff.mpr hentry)⟩
  · rintro ⟨hlisted, hle⟩
    obtain ⟨greatest, hgreatestmem, hgreatesteq⟩ := mem_map.mp hmem
    obtain ⟨entry, hentry, rfl⟩ := mem_map.mp hlisted
    have hlast := hgreatest entry ((ascending_perm es).mem_iff.mpr hentry)
    have hentryle := hle greatest hgreatestmem
    rw [hgreatesteq] at hentryle
    exact Std.LawfulEqOrd.eq_of_compare (Std.OrientedCmp.isLE_antisymm hentryle hlast)

theorem holdsAll_iff (hsum : total es ≤ validatorFrequencyPrecision)
    (hpositive : ∃ entry ∈ es, 0 < entry.frequency) {addr : Address} :
    HoldsAll es addr ↔ ∀ target < validatorFrequencyPrecision, ownerOf es target = addr := by
  have hall : (∀ target < validatorFrequencyPrecision, ownerOf es target = addr) ↔
      ∀ owner ∈ tickets (ascending es) ++
        List.replicate (validatorFrequencyPrecision - total es)
          (lastAddress default (ascending es)), owner = addr := by
    rw [← ownerOf_range hsum, forall_mem_map]
    simp only [mem_range]
  obtain ⟨drawn, hdrawn, hfrequency⟩ := hpositive
  have hne : es ≠ [] := ne_nil_of_mem hdrawn
  have hticket : ∀ entry ∈ es, 0 < entry.frequency →
      entry.address ∈ tickets (ascending es) := fun entry hentry hpos =>
    mem_tickets.mpr ⟨entry, (ascending_perm es).mem_iff.mpr hentry, hpos, rfl⟩
  rw [hall]
  constructor
  · intro h owner howner
    rcases mem_append.mp howner with howner | howner
    · obtain ⟨entry, hentry, hpos, rfl⟩ := mem_tickets.mp howner
      by_contra hother
      have := h.others entry ((ascending_perm es).mem_iff.mp hentry) hother
      omega
    · obtain ⟨hleft, rfl⟩ := mem_replicate.mp howner
      exact (lastAddress_ascending hne).mpr ⟨h.listed, h.leftover (by omega)⟩
  · intro h
    have hsole : ∀ entry ∈ es, 0 < entry.frequency → entry.address = addr :=
      fun entry hentry hpos => h _ (mem_append_left _ (hticket entry hentry hpos))
    refine ⟨mem_map.mpr ⟨drawn, hdrawn, hsole drawn hdrawn hfrequency⟩, ?_, ?_⟩
    · intro entry hentry hother
      by_contra hfrequency
      exact hother (hsole entry hentry (pos_of_ne_zero hfrequency))
    · intro hleft
      refine ((lastAddress_ascending hne).mp (h _ (mem_append_right _ ?_))).2
      exact mem_replicate.mpr ⟨by omega, rfl⟩

theorem exists_consecutive {turn : ℕ} (h : turn ≠ 1) :
    ∃ number ≤ 2, (number + 1) / turn = (number + 2) / turn := by
  match turn, h with
  | 0, _ => exact ⟨1, by decide, rfl⟩
  | 2, _ => exact ⟨1, by decide, rfl⟩
  | 3, _ => exact ⟨2, by decide, rfl⟩
  | length + 4, _ =>
    refine ⟨1, by decide, ?_⟩
    rw [div_eq_of_lt (by omega), div_eq_of_lt (by omega)]

theorem sameThroughTurn_iff {freqRLP : Bytes} (hdecodes : Decodes freqRLP es)
    (hsum : total es ≤ validatorFrequencyPrecision)
    (hpositive : ∃ entry ∈ es, 0 < entry.frequency) (turn : ℕ) :
    SameThroughTurn freqRLP turn ↔ turn = 1 ∨ ∃ addr, HoldsAll es addr := by
  have hne : es ≠ [] := by
    obtain ⟨entry, hentry, -⟩ := hpositive
    exact ne_nil_of_mem hentry
  have hselect := selectValidatorFromFrequencyRLP_of_decodes hdecodes hne
  constructor
  · intro h
    by_contra hnot
    obtain ⟨hlength, hnone⟩ := not_or.mp hnot
    refine hnone ⟨ownerOf es 0, (holdsAll_iff hsum hpositive).mpr fun target htarget => ?_⟩
    obtain ⟨number, hnumber, hturn⟩ := exists_consecutive hlength
    -- a digest that sends the first block to `0` and the second to `target`
    let k : Crypto := { (default : Crypto) with
      sha256 := fun seed => digestOf (if seed = leBytes 8 (number + 1) then 0 else target) }
    let s : Snapshot :=
      { newSnapshot default number default [] [] true with turnLength := turn }
    have hseeds : leBytes 8 (number + 1 + 1) ≠ leBytes 8 (number + 1) := by
      intro heq
      have := congrArg leNat heq
      rw [leNat_leBytes 8 _ (by omega), leNat_leBytes 8 _ (by omega)] at this
      omega
    have hfirst : drawnTarget k s = 0 :=
      drawnTarget_eq (by decide) (congrArg digestOf (if_pos rfl))
    have hsecond : drawnTarget k { s with number := s.number + 1 } = target :=
      drawnTarget_eq htarget (congrArg digestOf (if_neg hseeds))
    have hsame := h k s rfl hturn
    rw [hselect, hselect, hfirst, hsecond, Except.ok.injEq] at hsame
    exact hsame.symm
  · rintro (rfl | ⟨addr, h⟩) k s hlength hturn
    · rw [Nat.div_one, Nat.div_one] at hturn
      omega
    · have howner := (holdsAll_iff hsum hpositive).mp h
      rw [hselect, hselect, howner _ (drawnTarget_lt _ _), howner _ (drawnTarget_lt _ _)]

/-- **Selection follows the frequencies.** Each candidate is drawn by as many of the targets as its
frequency says, and one fixed candidate also by those that are left over. The candidate stays the
same through a turn if and only if turns have one block, or one candidate holds all tickets. -/
theorem selection_follows_frequencies (freqRLP : Bytes) (entries : List CandidateEntry)
    (hdecodes : Decodes freqRLP entries) (hsum : total entries ≤ validatorFrequencyPrecision)
    (hpositive : ∃ entry ∈ entries, 0 < entry.frequency) : (∀ (k : Crypto) (s : Snapshot),
      s.selectValidatorFromFrequencyRLP k freqRLP = .ok (ownerOf entries (drawnTarget k s))) ∧
    (∃ fixed ∈ entries.map address, ∀ addr,
      (List.range validatorFrequencyPrecision).countP
        (fun target => ownerOf entries target = addr) =
        frequencyOfAddress addr entries +
          if addr = fixed then validatorFrequencyPrecision - total entries else 0) ∧
    ∀ turnLength, SameThroughTurn freqRLP turnLength ↔
      turnLength = 1 ∨ ∃ addr, HoldsAll entries addr := by
  have hne : entries ≠ [] := by
    obtain ⟨entry, hentry, -⟩ := hpositive
    exact ne_nil_of_mem hentry
  refine ⟨selectValidatorFromFrequencyRLP_of_decodes hdecodes hne,
    ⟨lastAddress default (ascending entries), ((lastAddress_ascending hne).mp rfl).1,
      fun addr => ?_⟩, sameThroughTurn_iff hdecodes hsum hpositive⟩
  rw [← frequencyOfAddress_ascending, ← total_ascending]
  exact countP_pick default (by rwa [total_ascending]) addr

/-- Two candidates with half of the frequency each. -/
def halves : List CandidateEntry := [⟨.ofBytes 20 [1], 500⟩, ⟨.ofBytes 20 [2], 500⟩]

/-- Each half is drawn by 500 targets. -/
theorem selection_follows_frequencies_halves :
    Decodes (Rlp.encodeList (halves.flatMap CandidateEntry.encode)) halves ∧
    ∃ fixed ∈ halves.map address, ∀ addr,
      (List.range validatorFrequencyPrecision).countP (fun target => ownerOf halves target = addr) =
        frequencyOfAddress addr halves +
          if addr = fixed then validatorFrequencyPrecision - total halves else 0 := by
  have hdecodes : Decodes (Rlp.encodeList (halves.flatMap CandidateEntry.encode)) halves := by
    unfold Decodes
    decide
  exact ⟨hdecodes, (selection_follows_frequencies _ halves hdecodes (by decide)
    ⟨_, mem_cons_self .., by decide⟩).2.1⟩

/-- The SHA-256 digests of the numbers of blocks 102 and 103, in eight bytes, lowest first. -/
def digests (seed : Bytes) : Hash :=
  if seed = leBytes 8 102 then
    digestOf 0x98fdfcbc3fdc1804f196207e9b88616544580a6213fec7474b2a2ded56e6ca9e
  else digestOf 0x5c62e2f48f43961a204fd130c976b94999cda7d74de4ace9e5310a634fc7381e

/-- Blocks 102 and 103 lie in one turn of 50 blocks, and go to different candidates. -/
theorem turn_split_between_candidates :
    let freqRLP := Rlp.encodeList (halves.flatMap CandidateEntry.encode)
    let k : Crypto := { (default : Crypto) with sha256 := digests }
    let s : Snapshot :=
      { newSnapshot default 101 default [.ofBytes 20 [1], .ofBytes 20 [2]] [] true with
        turnLength := snake8TurnLength, frequencyRLP := freqRLP }
    (s.number + 1) / s.turnLength = (s.number + 2) / s.turnLength ∧
    s.selectValidatorFromFrequencyRLP k freqRLP = .ok (.ofBytes 20 [2]) ∧
    { s with number := s.number + 1 }.selectValidatorFromFrequencyRLP k freqRLP =
      .ok (.ofBytes 20 [1]) := by
  refine ⟨by decide, ?_, ?_⟩ <;> decide

end Snapshot

end ChilizChain
