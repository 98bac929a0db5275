import ChilizChain.PathDb.Index

/-! Deleting from a history index, id by id from the last one.

While ids are popped the database stays as it is, and the deleter opens the block before the one it
has emptied. Where the block ids have not wrapped around, that is the block that was written for
these ids (`Popped`), and finishing leaves the database of the ids that are left. Where they have,
it may be a later block, from which nothing can be popped. -/

namespace ChilizChain.PathDb

open Chunks List Nat BlockWriter Function

/-- The last descriptor is that of the live block and changes with it. -/
structure IndexDeleter where
  descList : List IndexBlockDesc
  bw : BlockWriter
  dropped : List ℕ
  lastID : ℕ
deriving DecidableEq

def newIndexDeleter (db : IndexDb) : Except IndexError IndexDeleter :=
  if db.index.length = 0 then .ok ⟨[⟨0, 0, 0⟩], ⟨⟨0, 0, 0⟩, [], []⟩, [], 0⟩
  else
    match parseIndex db.index with
    | .error e => .error e
    | .ok descList =>
      match descList.getLast? with
      | none => .error .emptyIndex
      | some lastDesc =>
        match newBlockWriter (db.blocks lastDesc.id) lastDesc with
        | .error e => .error e
        | .ok bw => .ok ⟨descList, bw, [], lastDesc.max⟩

def deleteBlocks (blocks : ℕ → Bytes) (dropped : List ℕ) : ℕ → Bytes :=
  dropped.foldl (fun blocks id => Function.update blocks id []) blocks

namespace IndexDeleter

def empty (d : IndexDeleter) : Bool := d.bw.empty && d.descList.length == 1

/-- The error, if there is one, and the deleter afterwards. -/
def pop (d : IndexDeleter) (db : IndexDb) (id : ℕ) : Option IndexError × IndexDeleter :=
  if id = 0 then (some .zeroID, d)
  else if id ≠ d.lastID then (some (.popOutOfOrder d.lastID id), d)
  else
    match d.bw.pop id with
    | .error e => (some e, d)
    | .ok bw =>
      let d := { d with bw := bw, descList := d.descList.dropLast ++ [bw.desc] }
      if bw.empty = false then (none, { d with lastID := bw.desc.max })
      else
        let d := { d with dropped := d.dropped ++ [bw.desc.id] }
        if d.empty then (none, { d with lastID := 0 })
        else
          let d := { d with descList := d.descList.dropLast }
          match d.descList.getLast? with
          | none => (some .emptyIndex, d)
          | some lastDesc =>
            match newBlockWriter (db.blocks lastDesc.id) lastDesc with
            | .error e => (some e, d)
            | .ok bw => (none, { d with bw := bw, lastID := bw.desc.max })

def popAll (d : IndexDeleter) (db : IndexDb) : List ℕ → Option IndexError × IndexDeleter
  | [] => (none, d)
  | id :: ids =>
    match d.pop db id with
    | (none, d) => d.popAll db ids
    | (some e, d) => (some e, d)

def finish (d : IndexDeleter) (db : IndexDb) : IndexDb :=
  let blocks := deleteBlocks db.blocks d.dropped
  ⟨if d.empty then [] else d.descList.flatMap IndexBlockDesc.encode,
    if d.bw.empty then blocks else Function.update blocks d.bw.desc.id d.bw.finish⟩

end IndexDeleter

/-! ## Blocks that are opened again -/

/-- The live block of some ids. -/
def liveOf (ids : List ℕ) : List ℕ := (blocksOf ids).getLast?.getD []

/-- The number of the live block. -/
def liveNumber (ids : List ℕ) : ℕ := (blocksOf ids).length - 1

/-- The writer of a block `xs` that has the content of `ys`. -/
def reopened (k : ℕ) (xs ys : List ℕ) : BlockWriter :=
  ⟨(blockOf k xs).desc, starts (sections ys), encSections (sections ys)⟩

/-- The ids of the blocks that are dropped when there are `k` left of `n`. -/
def droppedIDs (n k : ℕ) : List ℕ := (List.range' k (n - k)).reverse.map (· % blockIDs)

/-- The deleter that has popped from `n` blocks to these ids and whose live block has the content
of `ys`. -/
def deleterFor (n : ℕ) (ids ys : List ℕ) : IndexDeleter where
  descList := (writersFrom 0 (blocksOf ids).dropLast).map BlockWriter.desc ++
    [(blockOf (liveNumber ids % blockIDs) (liveOf ids)).desc]
  bw := reopened (liveNumber ids % blockIDs) (liveOf ids) ys
  dropped := droppedIDs n (blocksOf ids).length
  lastID := ids.getLast?.getD 0

variable {x : ℕ}

theorem sectionSearch_absent (prev : ℕ) {entries : List (ℕ × ℕ)} (h : ∀ e ∈ entries, e.1 ≠ x) :
    (sectionSearch x prev entries).1 = false := by
  induction entries generalizing prev with
  | nil => rfl
  | cons e entries ih =>
    obtain ⟨v, p⟩ := e
    rw [sectionSearch, if_neg (Ne.symm (h (v, p) (by simp)))]
    exact ih v fun e he => h e (mem_cons_of_mem _ he)

variable {k : ℕ}

/-- Nothing can be popped from a full block with the content of a later one. -/
theorem pop_later_content {xs ys : List ℕ} (hlen : xs.length = indexBlockEntriesCap)
    (hys : Ascending ys) (hlater : ∀ y ∈ ys, x < y) : ∃ e, (reopened k xs ys).pop x = .error e := by
  have hentries : (reopened k xs ys).desc.entries = indexBlockEntriesCap := hlen
  have habsent : ∀ e ∈ lastSection (starts (sections ys)) (encSections (sections ys)),
      e.1 ≠ x := by
    intro e he
    rcases chunks_cases restartLen_pos ys with ⟨rfl, hnil⟩ | ⟨init, last, heq, -, hflat⟩
    · cases he
    · rw [sections, heq, lastSection_starts] at he
      · have hmem : e.1 ∈ last := by
          rw [← sectionEntries_values (encSections init).length last]
          exact mem_map_of_mem he
        have := hlater e.1 (by rw [← hflat]; simp [hmem])
        omega
      · exact (hflat ▸ hys).sublist (by simp)
  unfold pop
  split
  · exact ⟨_, rfl⟩
  · split
    · exact ⟨_, rfl⟩
    · rw [if_neg (by rw [hentries]; decide), if_neg (by rw [hentries]; decide)]
      split
      · exact ⟨_, rfl⟩
      · rename_i hfound
        have hnot := sectionSearch_absent 0 habsent
        have htrue := congrArg Prod.fst hfound
        exact absurd (htrue.symm.trans hnot) (by simp)

/-! ## Popping -/

theorem blocksOf_last (ids : List ℕ) (x : ℕ) :
    ∃ init live, blocksOf (ids ++ [x]) = init ++ [live ++ [x]] ∧
      (live ≠ [] ∧ blocksOf ids = init ++ [live] ∨ live = [] ∧ blocksOf ids = init ∧
        ∀ b ∈ init, b.length = indexBlockEntriesCap) := by
  by_cases hmod : ids.length % indexBlockEntriesCap = 0
  · refine ⟨blocksOf ids, [], chunks_append_full cap_pos hmod, .inr ⟨rfl, rfl, ?_⟩⟩
    rcases chunks_cases cap_pos (ids ++ [x]) with ⟨hnil, -⟩ | ⟨init, last, heq, hcut, -⟩
    · simp at hnil
    · rw [chunks_append_full cap_pos hmod] at heq
      obtain ⟨hinit, -⟩ := append_inj' heq rfl
      rw [blocksOf, hinit]
      exact hcut.full
  · obtain ⟨init, live, heq, hcut, -, -, -, hafter⟩ := chunks_append_room (x := x) cap_pos hmod
    exact ⟨init, live, hafter, .inl ⟨length_pos_iff.mp hcut.pos, heq⟩⟩

variable {ids live : List ℕ} {init : List (List ℕ)}

theorem liveOf_snoc (h : blocksOf ids = init ++ [live]) :
    liveOf ids = live ∧ liveNumber ids = init.length ∧ (blocksOf ids).dropLast = init := by
  simp [liveOf, liveNumber, h]

theorem getLast?_liveOf (ids : List ℕ) : (liveOf ids).getLast?.getD 0 = ids.getLast?.getD 0 := by
  by_cases hne : ids = []
  · subst hne
    rfl
  · obtain ⟨init, live, heq, hcut, hflat⟩ := blocksOf_cases hne
    rw [(liveOf_snoc heq).1]
    exact getLast?_live hcut hflat

@[simp] theorem reopened_self (k : ℕ) (xs : List ℕ) : reopened k xs xs = blockOf k xs := rfl

variable {n : ℕ}

theorem droppedIDs_succ (hk : k < n) : droppedIDs n (k + 1) ++ [k % blockIDs] = droppedIDs n k := by
  obtain ⟨m, rfl⟩ := Nat.exists_eq_add_of_lt hk
  rw [droppedIDs, droppedIDs, show k + m + 1 - k = m + 1 by omega, range'_succ,
    show k + m + 1 - (k + 1) = m by omega]
  simp

theorem deleterFor_snoc (h : blocksOf ids = init ++ [live]) (ys : List ℕ) :
    deleterFor n ids ys = ⟨(writersFrom 0 init).map desc ++
      [(blockOf (init.length % blockIDs) live).desc], reopened (init.length % blockIDs) live ys,
      droppedIDs n (init.length + 1), ids.getLast?.getD 0⟩ := by
  simp [deleterFor, liveOf, liveNumber, h]

section Pop

variable {n x : ℕ} {ids live : List ℕ} {init : List (List ℕ)} (db : IndexDb)

theorem pop_live (hasc : Ascending (ids ++ [x]))
    (h : blocksOf (ids ++ [x]) = init ++ [live ++ [x]]) :
    (blockOf (init.length % blockIDs) (live ++ [x])).pop x =
      .ok (blockOf (init.length % blockIDs) live) := by
  refine pop_blockOf (hasc.sublist ?_)
  rw [← flatten_chunks cap_pos (ids ++ [x]), show chunks _ (ids ++ [x]) = _ from h]
  simp

theorem pop_within (hasc : Ascending (ids ++ [x])) (hne : live ≠ [])
    (h : blocksOf (ids ++ [x]) = init ++ [live ++ [x]]) (hbefore : blocksOf ids = init ++ [live]) :
    (deleterFor n (ids ++ [x]) (live ++ [x])).pop db x = (none, deleterFor n ids live) := by
  have hx0 : x ≠ 0 := ne_of_gt (hasc.pos x (by simp))
  have hmax := getLast?_liveOf ids
  rw [(liveOf_snoc hbefore).1] at hmax
  rw [deleterFor_snoc h, deleterFor_snoc hbefore, IndexDeleter.pop, if_neg hx0, if_neg (by simp)]
  simp only [reopened_self, pop_live hasc h, empty_blockOf hne, if_true, dropLast_concat]
  rw [← hmax]
  rfl

theorem pop_first (hasc : Ascending [x]) (hn : 0 < n) :
    (deleterFor n [x] [x]).pop db x = (none, deleterFor n [] []) := by
  have hx0 : x ≠ 0 := ne_of_gt (hasc.pos x (by simp))
  have hone : blocksOf ([] ++ [x]) = [] ++ [[] ++ [x]] := rfl
  have hpop := pop_live (show Ascending ([] ++ [x]) from hasc) hone
  have hdropped := droppedIDs_succ hn
  have hempty : deleterFor n [] [] = ⟨[(blockOf 0 []).desc], blockOf 0 [], droppedIDs n 0, 0⟩ := rfl
  rw [hempty, ← hdropped, show deleterFor n [x] [x] = _ from deleterFor_snoc hone [x],
    IndexDeleter.pop, if_neg hx0, if_neg (by simp)]
  simp only [reopened_self, nil_append] at hpop ⊢
  simp only [hpop]
  rfl

/-- The first id of a block that is not the first one: the block before is opened, with what is
stored under its id. -/
theorem pop_boundary (hasc : Ascending (ids ++ [x])) {ys : List ℕ} (hys : IsBlock ys)
    (hn : init.length + 1 < n) (h : blocksOf (ids ++ [x]) = init ++ [live] ++ [[x]])
    (hbefore : blocksOf ids = init ++ [live])
    (hblock : db.blocks (init.length % blockIDs) = (blockOf (init.length % blockIDs) ys).finish) :
    (deleterFor n (ids ++ [x]) [x]).pop db x = (none, deleterFor n ids ys) := by
  have hx0 : x ≠ 0 := ne_of_gt (hasc.pos x (by simp))
  have hmax := getLast?_liveOf ids
  rw [(liveOf_snoc hbefore).1] at hmax
  have h' : blocksOf (ids ++ [x]) = (init ++ [live]) ++ [[] ++ [x]] := h
  have hpop := pop_live hasc h'
  have hdropped := droppedIDs_succ hn
  have hempty : (blockOf ((init.length + 1) % blockIDs) []).empty = true := rfl
  rw [deleterFor_snoc h', deleterFor_snoc hbefore, IndexDeleter.pop, if_neg hx0, if_neg (by simp)]
  simp only [length_append, length_singleton, nil_append, reopened_self] at hpop ⊢
  simp only [hpop, hempty, Bool.true_eq_false, if_false, dropLast_concat, IndexDeleter.empty,
    Bool.true_and, writersFrom_snoc, map_append, map_cons, map_nil]
  rw [if_neg (by simp)]
  have hopen : newBlockWriter (db.blocks (blockOf (init.length % blockIDs) live).desc.id)
      (blockOf (init.length % blockIDs) live).desc =
        .ok (reopened (init.length % blockIDs) live ys) := by
    rw [blockOf_id, hblock]
    exact newBlockWriter_finish hys _
  simp only [getLast?_concat, zero_add, hopen]
  rw [← hdropped, ← hmax]
  rfl

end Pop

/-! ## Runs of pops -/

/-- The live block is full and has the content of a later one. -/
structure Stale (all ids ys : List ℕ) : Prop where
  full : (liveOf ids).length = indexBlockEntriesCap
  later : ∃ j, (blocksOf ids).length ≤ j ∧ (blocksOf all)[j]? = some ys

/-- What holds while the ids of `all` are popped down to `ids`. The live block is the one that was
written, unless block ids have wrapped around; then the first block is not. -/
def Popped (all ids : List ℕ) (d : IndexDeleter) : Prop :=
  ∃ ys, d = deleterFor (blocksOf all).length ids ys ∧ (ys = liveOf ids ∨ Stale all ids ys) ∧
    ((blocksOf all).length ≤ blockIDs → ys = liveOf ids) ∧
    (blockIDs < (blocksOf all).length → (blocksOf ids).length ≤ 1 → Stale all ids ys)

variable {all : List ℕ}

theorem newIndexDeleter_stored (hall : Ascending all) :
    ∃ d, newIndexDeleter (stored all) = .ok d ∧ Popped all all d := by
  refine ⟨deleterFor (blocksOf all).length all (liveOf all), ?_, _, rfl, .inl rfl, fun _ => rfl, ?_⟩
  · rw [newIndexDeleter]
    by_cases hne : all = []
    · rw [if_pos ((stored_index_length all).mpr hne), hne]
      rfl
    · obtain ⟨init, live, heq, hcut, hflat⟩ := blocksOf_cases hne
      have hlast : (blockOf (init.length % blockIDs) live).desc.max = all.getLast?.getD 0 :=
        getLast?_live hcut hflat
      rw [if_neg (mt (stored_index_length all).mp hne), parseIndex_stored hall hne,
        descsOf_snoc heq, (liveOf_snoc heq).1, deleterFor_snoc heq]
      simp only [getLast?_concat, newBlockWriter_live hall heq, hlast]
      simp [heq, droppedIDs, blockOf]
  · intro hwrap hone
    simp only [blockIDs] at hwrap
    omega

theorem pop_stale {ys : List ℕ} (hall : Ascending all) (hids : ids ++ [x] <+: all)
    (hstale : Stale all (ids ++ [x]) ys) (n : ℕ) (db : IndexDb) :
    ∃ e, (deleterFor n (ids ++ [x]) ys).pop db x = (some e, deleterFor n (ids ++ [x]) ys) := by
  obtain ⟨rest, rfl⟩ := hids
  obtain ⟨j, hj, hys⟩ := hstale.later
  obtain ⟨init, live, hblocks, -⟩ := blocksOf_last ids x
  obtain ⟨hlive, -, -⟩ := liveOf_snoc hblocks
  have hfull := hstale.full
  rw [hlive] at hfull
  -- the block of the last id stands before the one with the content
  have hat : (blocksOf (ids ++ [x]))[init.length]? = some (live ++ [x]) := by
    rw [hblocks, getElem?_concat_length]
  rw [hblocks, length_append, length_singleton] at hj
  have hsorted := blocks_sorted hall (by omega) (full_block_stays hall hat hfull) hys x (by simp)
  obtain ⟨e, he⟩ := pop_later_content (k := init.length % blockIDs) hfull
    (block_of_mem hall (mem_of_getElem? hys)).toAscending hsorted
  rw [deleterFor_snoc hblocks, IndexDeleter.pop]
  split
  · exact ⟨_, rfl⟩
  · split
    · exact ⟨_, rfl⟩
    · simp only [he]
      exact ⟨_, rfl⟩

/-- The block that is opened is the one that was written, or a later one with the same id. -/
theorem pop_opens (hall : Ascending all) (hids : ids ++ [x] <+: all)
    (hblocks : blocksOf (ids ++ [x]) = init ++ [live] ++ [[x]])
    (hbefore : blocksOf ids = init ++ [live]) (hfull : live.length = indexBlockEntriesCap) :
    ∃ d, (deleterFor (blocksOf all).length (ids ++ [x]) [x]).pop (stored all) x = (none, d) ∧
      Popped all ids d := by
  obtain ⟨rest, rfl⟩ := hids
  have hmono := blocksOf_length_mono (ids ++ [x]) rest
  rw [hblocks, length_append, length_append, length_singleton, length_singleton] at hmono
  obtain ⟨j, hkj, hj, hjmod, hjlast⟩ := last_with_id (k := init.length)
    (n := (blocksOf (ids ++ [x] ++ rest)).length) (by omega)
  have hys := getElem?_eq_getElem hj
  have hysblock := block_of_mem hall (getElem_mem hj)
  have hblock := stored_block_mod hys hjlast
  rw [hjmod] at hblock
  refine ⟨_, pop_boundary _ hall.left hysblock (by omega) hblocks hbefore hblock, _, rfl, ?_⟩
  obtain ⟨hlive, -, -⟩ := liveOf_snoc hbefore
  have hlength : (blocksOf ids).length = init.length + 1 := by rw [hbefore]; simp
  have hstale (hlt : init.length < j) :
      Stale (ids ++ [x] ++ rest) ids (blocksOf (ids ++ [x] ++ rest))[j] :=
    ⟨by rw [hlive, hfull], j, by omega, hys⟩
  have hfresh (heq : j = init.length) : (blocksOf (ids ++ [x] ++ rest))[j] = liveOf ids := by
    subst heq
    have hat : (blocksOf ids)[init.length]? = some live := by
      rw [hbefore, getElem?_concat_length]
    rw [append_assoc] at hall
    have hstays := full_block_stays hall hat hfull
    rw [← append_assoc, hys] at hstays
    rw [hlive]
    exact Option.some.inj hstays
  refine ⟨?_, fun hfits => hfresh ?_, fun hwrap hone => hstale (by omega)⟩
  · rcases eq_or_lt_of_le hkj with heq | hlt
    · exact .inl (hfresh heq.symm)
    · exact .inr (hstale hlt)
  · simp only [blockIDs] at hjmod hfits
    omega

variable {d : IndexDeleter}

/-- A pop of the last id goes through unless the live block is stale. -/
theorem Popped.pop (hall : Ascending all) (hids : ids ++ [x] <+: all)
    (h : Popped all (ids ++ [x]) d) :
    ((blocksOf all).length ≤ blockIDs → (d.pop (stored all) x).1 = none) ∧
      ((d.pop (stored all) x).1 = none → Popped all ids (d.pop (stored all) x).2) := by
  obtain ⟨ys, rfl, hcontent, hfits, hwrap⟩ := h
  have hasc : Ascending (ids ++ [x]) := hall.sublist hids.sublist
  by_cases hys : ys = liveOf (ids ++ [x])
  · subst hys
    have hmono : (blocksOf (ids ++ [x])).length ≤ (blocksOf all).length := by
      obtain ⟨rest, rfl⟩ := hids
      exact blocksOf_length_mono _ _
    obtain ⟨init, live, hblocks, hcases⟩ := blocksOf_last ids x
    have hlive := (liveOf_snoc hblocks).1
    rw [hblocks, length_append, length_singleton] at hmono
    -- the first block is stale once ids have wrapped around, so nothing was popped from it
    have hnotfirst : ∀ d', (deleterFor (blocksOf all).length (ids ++ [x]) (liveOf (ids ++ [x]))).pop
        (stored all) x = (none, d') → blockIDs < (blocksOf all).length → 0 < init.length := by
      intro d' hpop hlt
      by_contra hzero
      have hstale := hwrap hlt (by rw [hblocks, length_append, length_singleton]; omega)
      obtain ⟨e, he⟩ := pop_stale hall hids hstale (blocksOf all).length (stored all)
      rw [he] at hpop
      cases hpop
    rcases hcases with ⟨hne, hbefore⟩ | ⟨rfl, hbefore, hfull⟩
    · have hpop := pop_within (n := (blocksOf all).length) (stored all) hasc hne hblocks hbefore
      have hpositive := hnotfirst (deleterFor (blocksOf all).length ids live) (by rw [hlive, hpop])
      rw [hlive, hpop]
      refine ⟨fun _ => rfl, fun _ => ⟨live, rfl, .inl (liveOf_snoc hbefore).1.symm,
        fun _ => (liveOf_snoc hbefore).1.symm, fun hlt hone => ?_⟩⟩
      rw [hbefore, length_append, length_singleton] at hone
      have := hpositive hlt
      omega
    · rcases eq_nil_or_concat init with rfl | ⟨init', last, rfl⟩
      · have hnil : ids = [] := by
          rw [← flatten_chunks cap_pos ids, show chunks _ ids = _ from hbefore]
          rfl
        subst hnil
        have hpop := pop_first (n := (blocksOf all).length) (stored all) hasc (by omega)
        have hpositive := hnotfirst _ (by rw [hlive]; exact hpop)
        rw [hlive, nil_append, hpop]
        exact ⟨fun _ => rfl, fun _ => ⟨[], rfl, .inl rfl, fun _ => rfl, fun hlt _ =>
          absurd (hpositive hlt) (lt_irrefl _)⟩⟩
      · rw [concat_eq_append] at hblocks hbefore hfull
        obtain ⟨d, hpop, hpopped⟩ := pop_opens hall hids hblocks hbefore (hfull last (by simp))
        rw [hlive, nil_append, hpop]
        exact ⟨fun _ => rfl, fun _ => hpopped⟩
  · have hstale : Stale all (ids ++ [x]) ys := hcontent.resolve_left hys
    obtain ⟨e, he⟩ := pop_stale hall hids hstale (blocksOf all).length (stored all)
    rw [he]
    exact ⟨fun hle => absurd (hfits hle) hys, fun hnone => by cases hnone⟩

theorem Popped.popAll {b : List ℕ} (hall : Ascending all) (hids : ids ++ b <+: all)
    (h : Popped all (ids ++ b) d) :
    ((blocksOf all).length ≤ blockIDs → (d.popAll (stored all) b.reverse).1 = none) ∧
      ((d.popAll (stored all) b.reverse).1 = none →
        Popped all ids (d.popAll (stored all) b.reverse).2) := by
  induction b using List.reverseRecOn generalizing d with
  | nil =>
    rw [append_nil] at h
    exact ⟨fun _ => rfl, fun _ => h⟩
  | append_singleton b x ih =>
    rw [← append_assoc] at hids h
    obtain ⟨hpop, hnext⟩ := h.pop hall hids
    rw [reverse_append, reverse_singleton, singleton_append, IndexDeleter.popAll]
    have hshorter : ids ++ b <+: all := (prefix_append _ _).trans hids
    generalize d.pop (stored all) x = result at hpop hnext ⊢
    obtain ⟨_ | e, d'⟩ := result
    · exact ih hshorter (hnext rfl)
    · exact ⟨hpop, fun hnone => by cases hnone⟩

theorem Popped.pop_refused (h : Popped all ids d) (hx : ids.getLast? ≠ some x) (db : IndexDb) :
    ∃ e, d.pop db x = (some e, d) := by
  obtain ⟨ys, rfl, -⟩ := h
  rw [IndexDeleter.pop]
  split
  · exact ⟨_, rfl⟩
  · rename_i hx0
    rw [if_pos]
    · exact ⟨_, rfl⟩
    · show x ≠ ids.getLast?.getD 0
      cases hlast : ids.getLast? with
      | none => exact hx0
      | some y =>
        rintro rfl
        exact hx hlast

/-! ## Finishing -/

theorem deleteBlocks_apply (blocks : ℕ → Bytes) (dropped : List ℕ) (i : ℕ) :
    deleteBlocks blocks dropped i = if i ∈ dropped then [] else blocks i := by
  induction dropped generalizing blocks with
  | nil => rfl
  | cons id dropped ih =>
    rw [deleteBlocks, foldl_cons, ← deleteBlocks, ih]
    by_cases hi : i = id
    · subst hi
      simp
    · simp [hi]

variable {i : ℕ}

theorem stored_absent (hfits : (blocksOf ids).length ≤ blockIDs) (hi : (blocksOf ids).length ≤ i) :
    (stored ids).blocks i = [] := by
  show storeBlocks _ (writersFrom 0 (blocksOf ids)) i = _
  refine storeBlocks_kept _ fun b hb => ?_
  simp only [writersFrom, mem_map] at hb
  obtain ⟨⟨xs, j⟩, hj, rfl⟩ := hb
  obtain ⟨-, hjlt, -⟩ := mem_zipIdx hj
  rw [blockOf_id, mod_eq_of_lt (by omega)]
  omega

theorem mem_droppedIDs (hn : n ≤ blockIDs) : i ∈ droppedIDs n k ↔ k ≤ i ∧ i < n := by
  simp only [droppedIDs, mem_map, mem_reverse, mem_range'_1]
  constructor
  · rintro ⟨j, ⟨hkj, hj⟩, rfl⟩
    rw [mod_eq_of_lt (by omega)]
    omega
  · rintro ⟨hk, hi⟩
    exact ⟨i, by omega, mod_eq_of_lt (by omega)⟩

theorem finish_index (n : ℕ) (ids ys : List ℕ) (db : IndexDb) :
    ((deleterFor n ids ys).finish db).index = (stored ids).index := by
  by_cases hne : ids = []
  · subst hne
    rfl
  · obtain ⟨init, live, heq, hcut, -⟩ := blocksOf_cases hne
    have hempty : (reopened (init.length % blockIDs) live ys).empty = false :=
      empty_blockOf (length_pos_iff.mp hcut.pos)
    rw [stored_index, descsOf_snoc heq, deleterFor_snoc heq]
    simp [IndexDeleter.finish, IndexDeleter.empty, hempty]

theorem finish_blocks (heq : blocksOf ids = init ++ [live])
    (hcut : Cut indexBlockEntriesCap init live) (hfits : (blocksOf ids).length ≤ blockIDs) (n : ℕ)
    (ys : List ℕ) (db : IndexDb) : ((deleterFor n ids ys).finish db).blocks =
      update (deleteBlocks db.blocks (droppedIDs n (blocksOf ids).length)) init.length
        (blockOf init.length ys).finish := by
  have hlength : (blocksOf ids).length = init.length + 1 := by rw [heq]; simp
  have hmod : init.length % blockIDs = init.length := mod_eq_of_lt (by omega)
  have hempty : (reopened init.length live ys).empty = false :=
    empty_blockOf (length_pos_iff.mp hcut.pos)
  rw [deleterFor_snoc heq, ← hlength, hmod, IndexDeleter.finish]
  simp only [hempty, Bool.false_eq_true, if_false]
  rfl

theorem deleted_block {rest : List ℕ} (hfits : (blocksOf (ids ++ rest)).length ≤ blockIDs)
    (hi : (blocksOf ids).length ≤ i) : deleteBlocks (stored (ids ++ rest)).blocks
      (droppedIDs (blocksOf (ids ++ rest)).length (blocksOf ids).length) i = [] := by
  rw [deleteBlocks_apply]
  split
  · rfl
  · rename_i hkept
    rw [mem_droppedIDs hfits] at hkept
    exact stored_absent hfits (by omega)

theorem kept_block {rest : List ℕ} (hall : Ascending (ids ++ rest))
    (hfits : (blocksOf (ids ++ rest)).length ≤ blockIDs) (heq : blocksOf ids = init ++ [live])
    (hcut : Cut indexBlockEntriesCap init live) (hi : i < init.length) :
    deleteBlocks (stored (ids ++ rest)).blocks
      (droppedIDs (blocksOf (ids ++ rest)).length (blocksOf ids).length) i =
        (stored ids).blocks i := by
  have hmono := blocksOf_length_mono ids rest
  have hat : (blocksOf ids)[i]? = some init[i] := by
    rw [heq, getElem?_append_left hi, getElem?_eq_getElem hi]
  have hstays := full_block_stays hall hat (hcut.full _ (getElem_mem hi))
  have hlength : (blocksOf ids).length = init.length + 1 := by rw [heq]; simp
  rw [deleteBlocks_apply, if_neg (by rw [mem_droppedIDs hfits]; omega), stored_block hfits hstays,
    stored_block (hmono.trans hfits) hat]

theorem finish_deleterFor (hall : Ascending all) (hids : ids <+: all)
    (hfits : (blocksOf all).length ≤ blockIDs) :
    (deleterFor (blocksOf all).length ids (liveOf ids)).finish (stored all) = stored ids := by
  obtain ⟨rest, rfl⟩ := hids
  have hmono := blocksOf_length_mono ids rest
  refine IndexDb.ext (finish_index _ ids (liveOf ids) _) ?_
  funext i
  by_cases hne : ids = []
  · subst hne
    exact deleted_block (show (blocksOf ([] ++ rest)).length ≤ blockIDs from hfits) (zero_le i)
  · obtain ⟨init, live, heq, hcut, -⟩ := blocksOf_cases hne
    have hlength : (blocksOf ids).length = init.length + 1 := by rw [heq]; simp
    rw [finish_blocks heq hcut (hmono.trans hfits), (liveOf_snoc heq).1]
    rcases lt_trichotomy i init.length with hlt | rfl | hgt
    · rw [update_of_ne (by omega)]
      exact kept_block hall hfits heq hcut hlt
    · rw [update_self, stored_block (hmono.trans hfits)
        (show (blocksOf ids)[init.length]? = some live by rw [heq, getElem?_concat_length])]
    · rw [update_of_ne (by omega), deleted_block hfits (by omega),
        stored_absent (hmono.trans hfits) (by omega)]

/-- Where the ids of the dropped blocks have wrapped around, the first block is lost. -/
theorem query_lost (hall : Ascending all) (hids : ids <+: all)
    (hfits : (blocksOf ids).length ≤ blockIDs) (hwrap : blockIDs < (blocksOf all).length)
    (h : Popped all ids d) : query (d.finish (stored all)) 0 ≠ .ok (leastAbove ids 0) := by
  obtain ⟨ys, rfl, hcontent, -, hstale⟩ := h
  have hne : ids ≠ [] := by
    rintro rfl
    have hfull := (hstale hwrap (by simp)).full
    cases hfull
  have hindex := finish_index (blocksOf all).length ids ys (stored all)
  obtain ⟨init, live, heq, hcut, -⟩ := blocksOf_cases hne
  have hlength : (blocksOf ids).length = init.length + 1 := by rw [heq]; simp
  have hblocks := finish_blocks heq hcut hfits (blocksOf all).length ys (stored all)
  by_cases hzero : init.length = 0
  · -- the first block is live, with the content of a later one
    obtain ⟨j, hj, hys⟩ := (hstale hwrap (by omega)).later
    refine query_overwritten hall hids hne hindex (by omega) hys ?_
    rw [hblocks, hzero, update_self]
  · have hlost : ((deleterFor (blocksOf all).length ids ys).finish (stored all)).blocks 0 = [] := by
      have hdropped : 0 ∈ droppedIDs (blocksOf all).length (blocksOf ids).length := by
        simp only [droppedIDs, mem_map, mem_reverse, mem_range'_1]
        exact ⟨blockIDs, by omega, mod_self _⟩
      rw [hblocks, update_of_ne (by omega), deleteBlocks_apply, if_pos hdropped]
    obtain ⟨-, hquery⟩ := query_zero (hall.sublist hids.sublist) hne hindex
    rw [hquery, hlost]
    intro heq
    cases heq

/-! ## What deletion gives -/

/-- Deletion goes through and leaves what indexing `a` alone gives, also for what is appended
later. -/
def Undoes (db alone : IndexDb) (d : IndexDeleter) (a b : List ℕ) (later : List IndexEvent) :
    Prop :=
  ∃ d', d.popAll db b.reverse = (none, d') ∧ (d'.finish db).index = alone.index ∧
    (∀ id, query (d'.finish db) id = query alone id) ∧
    ∀ n, ∃ s, IndexState.run ⟨d'.finish db, IndexState.start.reader⟩ (later.take n) = .ok s ∧
      ∀ id, ∃ r, query s.db id = .ok r ∧ Answer (a ++ appended (later.take n)) id r

theorem indexes_stored (ids : List ℕ) : Indexes ⟨stored ids, IndexState.start.reader⟩ ids :=
  ⟨rfl, fun _ => ⟨[], ids, rfl, rfl, by rintro key br ⟨⟩⟩⟩

theorem undoes_iff {a b : List ℕ} {later : List IndexEvent} (hids : Ascending (a ++ b))
    (hlater : Ascending (a ++ appended later)) (hd : Popped (a ++ b) (a ++ b) d) :
    Undoes (stored (a ++ b)) (stored a) d a b later ↔
      (a ++ b).length ≤ 2 ^ 44 ∧ (a ++ appended later).length ≤ 2 ^ 44 := by
  have ha : Ascending a := hids.left
  obtain ⟨hgoes, hpopped⟩ := hd.popAll hids (prefix_refl _)
  rw [← blocksOf_length, ← blocksOf_length]
  constructor
  · rintro ⟨d', hpop, -, hsame, hread⟩
    rw [hpop] at hpopped
    have hfits : (blocksOf (a ++ b)).length ≤ blockIDs := by
      by_contra hwrap
      obtain ⟨s, hrun, hanswer⟩ := hread 0
      cases hrun
      obtain ⟨r, hr, hanswer⟩ := hanswer 0
      rw [take_zero, show appended [] = [] from rfl, append_nil, answer_iff ha] at hanswer
      subst hanswer
      rcases lt_or_ge blockIDs (blocksOf a).length with halone | halone
      · exact query_wrapped ha halone ((hsame 0).symm.trans hr)
      · exact query_lost hids (prefix_append _ _) halone (not_le.mp hwrap) (hpopped rfl) hr
    refine ⟨hfits, ?_⟩
    obtain ⟨ys, hd', -, hys, -⟩ := hpopped rfl
    have hfinish := finish_deleterFor hids (prefix_append a b) hfits
    rw [hys hfits] at hd'
    change d' = _ at hd'
    subst hd'
    rw [hfinish] at hread
    obtain ⟨s, hrun, hanswer⟩ := hread later.length
    rw [take_length] at hrun hanswer
    obtain ⟨s', hrun', hs'⟩ := (indexes_stored a).run later hlater
    cases hrun.symm.trans hrun'
    by_contra hwrap
    obtain ⟨r, hr, hanswer⟩ := hanswer 0
    rw [hs'.db, (answer_iff hlater).mp hanswer] at hr
    exact query_wrapped hlater (not_le.mp hwrap) hr
  · rintro ⟨hfits, hlaterfits⟩
    have hgone := hgoes hfits
    obtain ⟨ys, hd', -, hys, -⟩ := hpopped hgone
    rw [hys hfits] at hd'
    have hfinish := finish_deleterFor hids (prefix_append a b) hfits
    rw [← hd'] at hfinish
    refine ⟨_, Prod.ext hgone rfl, by rw [hfinish], fun id => by rw [hfinish], fun n => ?_⟩
    have happ : appended later = appended (later.take n) ++ appended (later.drop n) := by
      rw [appended, appended, appended, ← flatMap_append, take_append_drop]
    rw [happ, ← append_assoc] at hlater hlaterfits
    have htaken : Ascending (a ++ appended (later.take n)) := hlater.left
    obtain ⟨s, hrun, hs⟩ := (indexes_stored a).run _ htaken
    refine ⟨s, by rw [hfinish, hrun], fun id => ⟨_, ?_, (answer_iff htaken).mpr rfl⟩⟩
    rw [hs.db, query_stored htaken ((blocksOf_length_mono _ _).trans hlaterfits)]

/-- Whatever the sessions were, only the last id can be popped; popping the ids of `b` leaves what
indexing `a` alone gives, exactly as long as there are not more ids than the block ids can tell
apart. -/
theorem deletion_exact {events later : List IndexEvent} {a b : List ℕ}
    (hevents : appended events = a ++ b) (hids : Ascending (a ++ b))
    (hlater : Ascending (a ++ appended later)) : ∃ s alone d, IndexState.start.run events = .ok s ∧
      IndexState.start.run [.session a] = .ok alone ∧ newIndexDeleter s.db = .ok d ∧
      (∀ b₁ b₂ d' x, b = b₁ ++ b₂ → d.popAll s.db b₂.reverse = (none, d') →
        (a ++ b₁).getLast? ≠ some x → ∃ e, d'.pop s.db x = (some e, d')) ∧
      (Undoes s.db alone.db d a b later ↔
        (a ++ b).length ≤ 2 ^ 44 ∧ (a ++ appended later).length ≤ 2 ^ 44) := by
  have ha : Ascending a := hids.left
  obtain ⟨s, hrun, hs⟩ := indexes_start.run events (by rw [hevents]; exact hids)
  obtain ⟨alone, halone, hsalone⟩ := session_run ha
  rw [nil_append, hevents] at hs
  obtain ⟨d, hd, hpopped⟩ := newIndexDeleter_stored hids
  refine ⟨s, alone, d, hrun, halone, by rw [hs.db, hd], ?_, ?_⟩
  · rintro b₁ b₂ d' x rfl hpop hx
    rw [hs.db] at hpop ⊢
    rw [← append_assoc] at hids hpopped hpop ⊢
    have hleft := (hpopped.popAll hids (prefix_refl _)).2
    rw [hpop] at hleft
    exact (hleft rfl).pop_refused hx _
  · rw [hs.db, hsalone]
    exact undoes_iff hids hlater hpopped

/-- Two of three ids are popped, and others appended. -/
theorem deletion_exact_three :
    ∃ s alone d, IndexState.start.run [.session [3], .session [5, 9]] = .ok s ∧
      IndexState.start.run [.session [3]] = .ok alone ∧ newIndexDeleter s.db = .ok d ∧
      Undoes s.db alone.db d [3] [5, 9] [.session [4, 8]] := by
  obtain ⟨s, alone, d, hrun, halone, hd, -, hiff⟩ :=
    deletion_exact (show appended [.session [3], .session [5, 9]] = [3] ++ [5, 9] from rfl)
      ⟨by decide, by decide, by decide⟩
      (show Ascending ([3] ++ appended [.session [4, 8]]) from ⟨by decide, by decide, by decide⟩)
  exact ⟨s, alone, d, hrun, halone, hd, hiff.mpr (by decide)⟩

theorem pop_range_wrapped (hn : n = 2 ^ 44) :
    ∃ s d d', IndexState.start.run [.session (List.range' 1 (n + 1))] = .ok s ∧
      newIndexDeleter s.db = .ok d ∧ d.pop s.db (n + 1) = (none, d') ∧
      query (d'.finish s.db) 0 ≠ .ok 1 := by
  have hall : Ascending (List.range' 1 (n + 1)) := ascending_range (by omega)
  obtain ⟨s, hrun, hs⟩ := session_run hall
  have hsplit : List.range' 1 (n + 1) = List.range' 1 n ++ [n + 1] := by
    rw [range'_1_concat, add_comm 1 n]
  have hne : List.range' 1 n ≠ [] := by
    intro hnil
    have hlen := congrArg List.length hnil
    rw [length_range', length_nil] at hlen
    omega
  have hmod : (List.range' 1 n).length % indexBlockEntriesCap = 0 := by
    rw [length_range', hn]
    rfl
  obtain ⟨init, last, hbefore, hcut, hflat⟩ := blocksOf_cases hne
  have hlast : last.length = indexBlockEntriesCap := by
    have hlen := hcut.length_eq
    have hpos := hcut.pos
    have hle := hcut.le
    rw [hflat] at hlen
    simp only [indexBlockEntriesCap] at hlen hmod hle ⊢
    omega
  have hblocks : blocksOf (List.range' 1 n ++ [n + 1]) = init ++ [last] ++ [[n + 1]] := by
    rw [← hbefore]
    exact chunks_append_full cap_pos hmod
  rw [hsplit] at hall hs
  obtain ⟨d, hd, ys, rfl, hys, -⟩ := newIndexDeleter_stored hall
  have hys : ys = [n + 1] := by
    rcases hys with rfl | hstale
    · exact (liveOf_snoc hblocks).1
    · obtain ⟨j, hj, hget⟩ := hstale.later
      rw [getElem?_eq_none hj] at hget
      cases hget
  subst hys
  obtain ⟨d', hpop, hpopped⟩ := pop_opens hall (prefix_refl _) hblocks hbefore hlast
  refine ⟨s, _, d', hrun, by rw [hs, hd], by rw [hs, hpop], ?_⟩
  have hlost := query_lost hall (prefix_append _ _)
    (by rw [blocksOf_length, length_range', hn])
    (by rw [← not_le, blocksOf_length, ← hsplit, length_range', hn]; omega) hpopped
  rw [leastAbove_range (by omega)] at hlost
  rwa [hs]

/-- With 2 ^ 44 + 1 ids, popping the last one loses the first one. -/
theorem deletion_wrapped :
    ∃ s d d', IndexState.start.run [.session (List.range' 1 (2 ^ 44 + 1))] = .ok s ∧
      newIndexDeleter s.db = .ok d ∧ d.pop s.db (2 ^ 44 + 1) = (none, d') ∧
      query (d'.finish s.db) 0 ≠ .ok 1 :=
  pop_range_wrapped rfl

end ChilizChain.PathDb
