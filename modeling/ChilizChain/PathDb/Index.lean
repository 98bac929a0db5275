import ChilizChain.PathDb.IndexBlock

/-! The history index of one account or slot: a list of block descriptors, and the blocks by id.

`stored` says what the database holds for given ids. A session of the writer leads from the
database of some ids to that of all ids (`session_stored`), however the ids are split into
sessions. Block ids have 32 bits and wrap around, so the blocks answer for their ids only as long
as there are not more than 2 ^ 32 of them. -/

namespace ChilizChain.PathDb

open Chunks List Function Nat Bytes BlockWriter Bool

/-- The size of a descriptor: 8 bytes of the maximum, 2 of the number of entries and 4 of the id. -/
def indexBlockDescSize : ℕ := 14

/-- The number of block ids. -/
def blockIDs : ℕ := 2 ^ 32

namespace IndexBlockDesc

def encode (d : IndexBlockDesc) : Bytes :=
  putBig 8 d.max ++ (putBig 2 d.entries ++ putBig 4 d.id)

def decode (blob : Bytes) : IndexBlockDesc where
  max := getBig (Bytes.slice blob 0 8)
  entries := getBig (Bytes.slice blob 8 10)
  id := getBig (Bytes.slice blob 10 14)

end IndexBlockDesc

/-- The index of one state; an empty value is an absent one. -/
@[ext] structure IndexDb where
  index : Bytes
  blocks : ℕ → Bytes

/-- The first `n` descriptors. -/
def parseDescs (blob : Bytes) : ℕ → Except IndexError (List IndexBlockDesc)
  | 0 => .ok []
  | n + 1 =>
    match parseDescs blob n with
    | .error e => .error e
    | .ok descList =>
      let desc := IndexBlockDesc.decode
        (Bytes.slice blob (n * indexBlockDescSize) ((n + 1) * indexBlockDescSize))
      let lastID := (descList.getLast?.map IndexBlockDesc.id).getD 0
      if desc.empty then .error .emptyBlock
      else if lastID ≠ 0 ∧ (lastID + 1) % blockIDs ≠ desc.id then
        .error (.blockOutOfOrder lastID desc.id)
      else .ok (descList ++ [desc])

def parseIndex (blob : Bytes) : Except IndexError (List IndexBlockDesc) :=
  if blob.length = 0 then .error .emptyIndex
  else if blob.length % indexBlockDescSize ≠ 0 then .error (.corruptedIndex blob.length)
  else parseDescs blob (blob.length / indexBlockDescSize)

def loadIndexData (db : IndexDb) : Except IndexError (List IndexBlockDesc) :=
  if db.index.length = 0 then .ok [] else parseIndex db.index

/-! ## The reader -/

structure IndexReader where
  descList : List IndexBlockDesc
  readers : ℕ → Option BlockReader

def newIndexReader (db : IndexDb) : Except IndexError IndexReader :=
  match loadIndexData db with
  | .error e => .error e
  | .ok descList => .ok ⟨descList, fun _ => none⟩

namespace IndexReader

/-- The reader of the last block is dropped unless that block was full. -/
def refresh (r : IndexReader) (db : IndexDb) : Except IndexError IndexReader :=
  let readers :=
    match r.descList.getLast? with
    | none => r.readers
    | some last => if last.full then r.readers else Function.update r.readers last.id none
  match loadIndexData db with
  | .error e => .error e
  | .ok descList => .ok ⟨descList, readers⟩

/-- The reader of a block, which is made and kept if there is none. -/
def blockReader (r : IndexReader) (db : IndexDb) (id : ℕ) :
    Except IndexError (BlockReader × IndexReader) :=
  match r.readers id with
  | some br => .ok (br, r)
  | none =>
    match newBlockReader (db.blocks id) with
    | .error e => .error e
    | .ok br => .ok (br, { r with readers := Function.update r.readers id (some br) })

/-- The answer, and the reader with the block it has read. -/
def readGreaterThan (r : IndexReader) (db : IndexDb) (id : ℕ) : Except IndexError ℕ × IndexReader :=
  match r.descList[search r.descList.length fun i => id < (r.descList[i]?).elim 0 (·.max)]? with
  | none => (.ok maxUint64, r)
  | some desc =>
    match r.blockReader db desc.id with
    | .error e => (.error e, r)
    | .ok (br, r) => (br.readGreaterThan id, r)

end IndexReader

/-- Ask a new reader. -/
def query (db : IndexDb) (id : ℕ) : Except IndexError ℕ :=
  match newIndexReader db with
  | .error e => .error e
  | .ok r => (r.readGreaterThan db id).1

/-! ## The writer -/

/-- The last descriptor of the source's list is that of the live block and is changed with it; here
`descs` are the ones before it. -/
structure IndexWriter where
  descs : List IndexBlockDesc
  bw : BlockWriter
  frozen : List BlockWriter
  lastID : ℕ
deriving DecidableEq

def newIndexWriter (db : IndexDb) : Except IndexError IndexWriter :=
  if db.index.length = 0 then .ok ⟨[], ⟨⟨0, 0, 0⟩, [], []⟩, [], 0⟩
  else
    match parseIndex db.index with
    | .error e => .error e
    | .ok descList =>
      match descList.getLast? with
      | none => .error .emptyIndex
      | some lastDesc =>
        match newBlockWriter (db.blocks lastDesc.id) lastDesc with
        | .error e => .error e
        | .ok bw => .ok ⟨descList.dropLast, bw, [], lastDesc.max⟩

namespace IndexWriter

def rotate (w : IndexWriter) : IndexWriter :=
  { w with
    frozen := w.frozen ++ [w.bw]
    descs := w.descs ++ [w.bw.desc]
    bw := ⟨⟨0, 0, (w.bw.desc.id + 1) % blockIDs⟩, [], []⟩ }

def append (w : IndexWriter) (id : ℕ) : Except IndexError IndexWriter :=
  if id ≤ w.lastID then .error (.appendOutOfOrder w.lastID id)
  else
    let w := if w.bw.full then w.rotate else w
    match w.bw.append id with
    | .error e => .error e
    | .ok bw => .ok { w with bw := bw, lastID := id }

def appendAll (w : IndexWriter) : List ℕ → Except IndexError IndexWriter
  | [] => .ok w
  | id :: ids =>
    match w.append id with
    | .error e => .error e
    | .ok w => w.appendAll ids

end IndexWriter

/-- Write the blocks in this order. -/
def storeBlocks (blocks : ℕ → Bytes) (writers : List BlockWriter) : ℕ → Bytes :=
  writers.foldl (fun blocks bw => Function.update blocks bw.desc.id bw.finish) blocks

namespace IndexWriter

def finish (w : IndexWriter) (db : IndexDb) : IndexDb :=
  let writers := if w.bw.empty then w.frozen else w.frozen ++ [w.bw]
  let descList := if w.bw.empty then w.descs else w.descs ++ [w.bw.desc]
  if writers.length = 0 then db
  else ⟨descList.flatMap IndexBlockDesc.encode, storeBlocks db.blocks writers⟩

end IndexWriter

/-- Open a writer, append the ids and finish. -/
def session (db : IndexDb) (ids : List ℕ) : Except IndexError IndexDb :=
  match newIndexWriter db with
  | .error e => .error e
  | .ok w =>
    match w.appendAll ids with
    | .error e => .error e
    | .ok w => .ok (w.finish db)

def emptyIndex : IndexDb := ⟨[], fun _ => []⟩

/-- What happens to an index and to a reader of it. -/
inductive IndexEvent where
  | session (ids : List ℕ)
  | openReader
  | read (id : ℕ)
  | refresh

/-- A database with a reader. -/
structure IndexState where
  db : IndexDb
  reader : IndexReader

namespace IndexState

def step (s : IndexState) : IndexEvent → Except IndexError IndexState
  | .session ids => (session s.db ids).map fun db => { s with db := db }
  | .openReader => (newIndexReader s.db).map fun r => { s with reader := r }
  | .read id => .ok { s with reader := (s.reader.readGreaterThan s.db id).2 }
  | .refresh => (s.reader.refresh s.db).map fun r => { s with reader := r }

/-- The events one after the other. -/
def run (s : IndexState) (events : List IndexEvent) : Except IndexError IndexState :=
  events.foldl (fun s event => s.bind (step · event)) (.ok s)

def start : IndexState := ⟨emptyIndex, ⟨[], fun _ => none⟩⟩

end IndexState

/-- The ids that the events append. -/
def appended (events : List IndexEvent) : List ℕ :=
  events.flatMap fun
    | .session ids => ids
    | _ => []

/-! ## What the database holds -/

abbrev blocksOf (ids : List ℕ) : List (List ℕ) := chunks indexBlockEntriesCap ids

variable (k : ℕ) (bs : List (List ℕ))

/-- The writers of blocks, the first of which has the number `k`. -/
def writersFrom : List BlockWriter :=
  (bs.zipIdx k).map fun (xs, j) => blockOf (j % blockIDs) xs

def stored (ids : List ℕ) : IndexDb where
  index := (writersFrom 0 (blocksOf ids)).flatMap fun bw => bw.desc.encode
  blocks := storeBlocks (fun _ => []) (writersFrom 0 (blocksOf ids))

theorem cap_pos : 0 < indexBlockEntriesCap := by decide

@[simp] theorem writersFrom_length : (writersFrom k bs).length = bs.length := by
  simp [writersFrom]

theorem writersFrom_append (as bs : List (List ℕ)) :
    writersFrom k (as ++ bs) = writersFrom k as ++ writersFrom (k + as.length) bs := by
  simp [writersFrom, zipIdx_append]

theorem writersFrom_cons (b : List ℕ) (bs : List (List ℕ)) :
    writersFrom k (b :: bs) = blockOf (k % blockIDs) b :: writersFrom (k + 1) bs := by
  simp [writersFrom, zipIdx_cons]

@[simp] theorem writersFrom_nil : writersFrom k [] = [] := rfl

theorem writersFrom_snoc (b : List ℕ) :
    writersFrom k (bs ++ [b]) = writersFrom k bs ++ [blockOf ((k + bs.length) % blockIDs) b] := by
  rw [writersFrom_append, writersFrom_cons, writersFrom_nil]

variable {ids xs : List ℕ}

theorem block_of_mem (hids : Ascending ids) (hxs : xs ∈ blocksOf ids) : IsBlock xs := by
  rcases chunks_cases cap_pos ids with ⟨-, hnil⟩ | ⟨init, last, heq, hcut, hflat⟩
  · rw [blocksOf, hnil] at hxs
    cases hxs
  · have hsub : xs.Sublist ids := by
      rw [← flatten_chunks cap_pos ids]
      exact sublist_flatten_of_mem hxs
    rw [blocksOf, heq] at hxs
    have hasc := hids.sublist hsub
    rcases mem_append.mp hxs with hxs | hxs
    · have hlen := hcut.full xs hxs
      exact ⟨hasc, length_pos_iff.mp (by rw [hlen]; exact cap_pos), hlen.le⟩
    · cases mem_singleton.mp hxs
      exact ⟨hasc, length_pos_iff.mp hcut.pos, hcut.le⟩

/-! ### Descriptors -/

theorem decode_encode {d : IndexBlockDesc} (hmax : d.max < 2 ^ 64) (hentries : d.entries < 2 ^ 16)
    (hid : d.id < 2 ^ 32) : IndexBlockDesc.decode d.encode = d := by
  have h8 : slice d.encode 0 8 = putBig 8 d.max := by
    rw [IndexBlockDesc.encode, slice_append_left _ _ (by simp), slice_all _ (by simp)]
  have h10 : slice d.encode 8 10 = putBig 2 d.entries :=
    slice_middle _ _ _ (by simp) (by simp)
  have h14 : slice d.encode 10 14 = putBig 4 d.id := by
    rw [IndexBlockDesc.encode, slice_append_right _ _ (by simp),
      slice_append_right _ _ (by simp)]
    simp only [putBig_length]
    exact slice_all _ (by simp)
  rw [IndexBlockDesc.decode, h8, h10, h14, getBig_putBig (by simpa using hmax),
    getBig_putBig (by simpa using hentries), getBig_putBig (by simpa using hid)]

@[simp] theorem encode_length (d : IndexBlockDesc) : d.encode.length = indexBlockDescSize := by
  simp [IndexBlockDesc.encode, indexBlockDescSize]

/-- What makes a list of descriptors readable. -/
structure Readable (ds : List IndexBlockDesc) : Prop where
  max : ∀ d ∈ ds, d.max < 2 ^ 64
  entries : ∀ d ∈ ds, 0 < d.entries ∧ d.entries < 2 ^ 16
  id : ∀ d ∈ ds, d.id < 2 ^ 32
  next : ds.IsChain fun d d' => d'.id = (d.id + 1) % blockIDs

variable {n : ℕ}

theorem parseDescs_encode {ds : List IndexBlockDesc} (hds : Readable ds) (hn : n ≤ ds.length) :
    parseDescs (ds.flatMap IndexBlockDesc.encode) n = .ok (ds.take n) := by
  induction n with
  | zero => rfl
  | succ n ih =>
    have hmem := getElem_mem (l := ds) hn
    have hslice : IndexBlockDesc.decode (slice (ds.flatMap IndexBlockDesc.encode)
        (n * indexBlockDescSize) ((n + 1) * indexBlockDescSize)) = ds[n] := by
      rw [slice_flatMap encode_length ds n hn]
      exact decode_encode (hds.max _ hmem) (hds.entries _ hmem).2 (hds.id _ hmem)
    have hempty : ds[n].empty = false := by
      simpa [IndexBlockDesc.empty] using ne_of_gt (hds.entries _ hmem).1
    -- the id of the descriptor before, if there is one, leads to this one
    have horder : ¬ (((ds.take n).getLast?.map IndexBlockDesc.id).getD 0 ≠ 0 ∧
        (((ds.take n).getLast?.map IndexBlockDesc.id).getD 0 + 1) % blockIDs ≠ ds[n].id) := by
      cases n with
      | zero => simp
      | succ m =>
        rintro ⟨-, hbad⟩
        refine hbad ?_
        have hlast : (ds.take (m + 1)).getLast? = some ds[m] := by
          rw [← take_concat_get' ds m (by omega)]
          exact getLast?_concat
        rw [hlast]
        exact (isChain_iff_getElem.mp hds.next m hn).symm
    rw [parseDescs, ih (by omega)]
    simp only [hslice, hempty, false_eq_true, if_false, if_neg horder]
    rw [take_concat_get' ds n hn]

theorem parseIndex_encode {ds : List IndexBlockDesc} (hds : Readable ds) (hne : ds ≠ []) :
    parseIndex (ds.flatMap IndexBlockDesc.encode) = .ok ds := by
  have hlen : (ds.flatMap IndexBlockDesc.encode).length = ds.length * indexBlockDescSize :=
    flatMap_length encode_length ds
  have hpos : 0 < ds.length := length_pos_iff.mpr hne
  have hsize : 0 < indexBlockDescSize := by decide
  rw [parseIndex, if_neg (by rw [hlen]; exact (Nat.mul_pos hpos hsize).ne'),
    if_neg (by rw [hlen, Nat.mul_mod_left]; simp), hlen, Nat.mul_div_cancel _ hsize,
    parseDescs_encode hds le_rfl, take_length]

variable {k : ℕ}

theorem readable_writersFrom {bs : List (List ℕ)} (hbs : ∀ xs ∈ bs, IsBlock xs) :
    Readable ((writersFrom k bs).map desc) := by
  have hmem : ∀ d ∈ (writersFrom k bs).map desc,
      ∃ xs ∈ bs, ∃ j, d = ⟨xs.getLast?.getD 0, xs.length, j % blockIDs⟩ := by
    intro d hd
    simp only [writersFrom, map_map, mem_map] at hd
    obtain ⟨⟨xs, j⟩, hxs, rfl⟩ := hd
    exact ⟨xs, fst_mem_of_mem_zipIdx hxs, j, rfl⟩
  refine ⟨?_, ?_, ?_, ?_⟩
  · intro d hd
    obtain ⟨xs, hxs, j, rfl⟩ := hmem d hd
    cases hlast : xs.getLast? with
    | none => simp
    | some x => exact (hbs xs hxs).lt x (mem_of_getLast? hlast)
  · intro d hd
    obtain ⟨xs, hxs, j, rfl⟩ := hmem d hd
    have hblock := hbs xs hxs
    exact ⟨length_pos_iff.mpr hblock.nonempty, hblock.length_le.trans_lt (by decide)⟩
  · intro d hd
    obtain ⟨xs, hxs, j, rfl⟩ := hmem d hd
    exact mod_lt _ (by decide)
  · rw [isChain_iff_getElem]
    intro i hi
    simp [writersFrom, blockOf, ← add_assoc]

/-- The descriptors of the blocks. -/
def descsOf (ids : List ℕ) : List IndexBlockDesc :=
  (writersFrom 0 (blocksOf ids)).map BlockWriter.desc

theorem stored_index (ids : List ℕ) :
    (stored ids).index = (descsOf ids).flatMap IndexBlockDesc.encode := by
  rw [stored, descsOf, flatMap_map]

theorem descsOf_ne_nil (hne : ids ≠ []) : descsOf ids ≠ [] := by
  intro hnil
  have hlen := congrArg List.length hnil
  rw [descsOf, length_map, writersFrom_length, length_nil, length_eq_zero_iff] at hlen
  exact chunks_ne_nil cap_pos hne hlen

theorem parseIndex_stored (hids : Ascending ids) (hne : ids ≠ []) :
    parseIndex (stored ids).index = .ok (descsOf ids) := by
  rw [stored_index]
  exact parseIndex_encode (readable_writersFrom fun _ hxs => block_of_mem hids hxs)
    (descsOf_ne_nil hne)

theorem stored_index_length (ids : List ℕ) : (stored ids).index.length = 0 ↔ ids = [] := by
  constructor
  · intro hlen
    by_contra hne
    have hpos : 0 < (descsOf ids).length := length_pos_iff.mpr (descsOf_ne_nil hne)
    rw [stored_index, flatMap_length encode_length] at hlen
    simp only [indexBlockDescSize] at hlen
    omega
  · rintro rfl
    rfl

variable {db : IndexDb}

theorem loadIndexData_stored (hids : Ascending ids) (hindex : db.index = (stored ids).index) :
    loadIndexData db = .ok (descsOf ids) := by
  rw [loadIndexData, hindex]
  by_cases hne : ids = []
  · rw [if_pos ((stored_index_length ids).mpr hne), hne]
    rfl
  · rw [if_neg (mt (stored_index_length ids).mp hne), parseIndex_stored hids hne]

/-! ### Blocks -/

variable (blocks : ℕ → Bytes)

theorem storeBlocks_append (as bs : List BlockWriter) :
    storeBlocks blocks (as ++ bs) = storeBlocks (storeBlocks blocks as) bs := by
  simp [storeBlocks]

@[simp] theorem storeBlocks_cons (b : BlockWriter) (bs : List BlockWriter) :
    storeBlocks blocks (b :: bs) = storeBlocks (update blocks b.desc.id b.finish) bs :=
  rfl

theorem storeBlocks_again {b b' : BlockWriter} (bs : List BlockWriter)
    (hid : b'.desc.id = b.desc.id) :
    storeBlocks (storeBlocks blocks [b]) (b' :: bs) = storeBlocks blocks (b' :: bs) := by
  simp [storeBlocks, hid]

theorem storeBlocks_last (bs : List BlockWriter) (b : BlockWriter) :
    storeBlocks blocks (bs ++ [b]) b.desc.id = b.finish := by
  rw [storeBlocks_append]
  simp [storeBlocks]

theorem storeBlocks_kept {bs : List BlockWriter} {key : ℕ}
    (h : ∀ b ∈ bs, b.desc.id ≠ key) : storeBlocks blocks bs key = blocks key := by
  induction bs generalizing blocks with
  | nil => rfl
  | cons b bs ih =>
    rw [storeBlocks_cons, ih _ fun b' hb' => h b' (mem_cons_of_mem _ hb'),
      update_of_ne (h b (by simp)).symm]

theorem newBlockWriter_finish (h : IsBlock xs) (desc : IndexBlockDesc) :
    newBlockWriter (blockOf k xs).finish desc =
      .ok ⟨desc, starts (sections xs), encSections (sections xs)⟩ := by
  have hblob : (blockOf k xs).finish.length ≠ 0 := by
    rw [finish, length_append, length_append, length_singleton]
    omega
  rw [newBlockWriter, if_neg hblob, parseIndexBlock_finish h]

@[simp] theorem blockOf_id (k : ℕ) (xs : List ℕ) : (blockOf k xs).desc.id = k := rfl

theorem full_blockOf (k : ℕ) (xs : List ℕ) :
    (blockOf k xs).full = decide (indexBlockEntriesCap ≤ xs.length) :=
  rfl

theorem empty_blockOf (hne : xs ≠ []) : (blockOf k xs).empty = false := by
  simpa [empty, IndexBlockDesc.empty, blockOf] using hne

/-! ## Sessions -/

/-- The writer that has appended all ids and in whose session the first `k` blocks were already
finished. -/
def writerFor (k : ℕ) (ids : List ℕ) : IndexWriter where
  descs := (writersFrom 0 (blocksOf ids).dropLast).map BlockWriter.desc
  bw := blockOf (((blocksOf ids).length - 1) % blockIDs) ((blocksOf ids).getLast?.getD [])
  frozen := writersFrom k ((blocksOf ids).dropLast.drop k)
  lastID := ids.getLast?.getD 0

variable {live : List ℕ} {init : List (List ℕ)}

section

variable (h : blocksOf ids = init ++ [live])
include h

theorem writerFor_snoc :
    writerFor k ids = ⟨(writersFrom 0 init).map desc, blockOf (init.length % blockIDs) live,
      writersFrom k (init.drop k), ids.getLast?.getD 0⟩ := by
  simp [writerFor, h]

theorem descsOf_snoc : descsOf ids = (writersFrom 0 init).map desc ++
      [(blockOf (init.length % blockIDs) live).desc] := by
  rw [descsOf, h, writersFrom_snoc, map_append, Nat.zero_add]
  rfl

theorem stored_blocks_snoc :
    (stored ids).blocks = storeBlocks (storeBlocks (fun _ => []) (writersFrom 0 init))
      [blockOf (init.length % blockIDs) live] := by
  rw [← storeBlocks_append]
  show storeBlocks _ (writersFrom 0 (blocksOf ids)) = _
  rw [h, writersFrom_snoc, Nat.zero_add]

end

theorem blocksOf_cases (hne : ids ≠ []) :
    ∃ init live, blocksOf ids = init ++ [live] ∧ Cut indexBlockEntriesCap init live ∧
      (init ++ [live]).flatten = ids := by
  rcases chunks_cases cap_pos ids with ⟨hnil, -⟩ | h
  · exact absurd hnil hne
  · exact h

theorem newBlockWriter_live (hids : Ascending ids) (heq : blocksOf ids = init ++ [live]) :
    newBlockWriter ((stored ids).blocks (blockOf (init.length % blockIDs) live).desc.id)
      (blockOf (init.length % blockIDs) live).desc =
        .ok (blockOf (init.length % blockIDs) live) := by
  have hlive : IsBlock live := block_of_mem hids (by rw [heq]; simp)
  rw [stored_blocks_snoc heq, ← storeBlocks_append, storeBlocks_last, newBlockWriter_finish hlive]
  rfl

theorem newIndexWriter_stored (hids : Ascending ids) :
    newIndexWriter (stored ids) = .ok (writerFor ((blocksOf ids).length - 1) ids) := by
  rw [newIndexWriter]
  by_cases hne : ids = []
  · rw [if_pos ((stored_index_length ids).mpr hne), hne]
    rfl
  · obtain ⟨init, live, heq, hcut, hflat⟩ := blocksOf_cases hne
    have hlast : (blockOf (init.length % blockIDs) live).desc.max = ids.getLast?.getD 0 :=
      getLast?_live hcut hflat
    rw [if_neg (mt (stored_index_length ids).mp hne), parseIndex_stored hids hne, descsOf_snoc heq]
    simp only [getLast?_concat, newBlockWriter_live hids heq, hlast, dropLast_concat]
    rw [writerFor_snoc heq]
    simp [heq, writersFrom, blockOf]

theorem append_writerFor {x : ℕ} (hids : Ascending (ids ++ [x]))
    (hk : k ≤ (blocksOf ids).length - 1) :
    (writerFor k ids).append x = .ok (writerFor k (ids ++ [x])) := by
  have hx : ids.getLast?.getD 0 < x := by
    cases hlast : ids.getLast? with
    | none => exact hids.pos x (by simp)
    | some y =>
      exact (pairwise_append.mp hids.sorted).2.2 y (mem_of_getLast? hlast) x (by simp)
  have hlastID : ¬ x ≤ (writerFor k ids).lastID := not_le.mpr hx
  rw [IndexWriter.append, if_neg hlastID]
  by_cases hne : ids = []
  · -- the first id goes to the block the writer began with
    subst hne
    have hbw : (blockOf 0 []).append x = .ok (blockOf 0 [x]) := append_blockOf hx (by decide)
    have hk0 : k = 0 := le_zero.mp hk
    subst hk0
    have hnew : writerFor 0 [x] = ⟨[], blockOf 0 [x], [], x⟩ := rfl
    have hempty : writerFor 0 [] = ⟨[], blockOf 0 [], [], 0⟩ := rfl
    have hnotfull : (blockOf 0 []).full = false := rfl
    simp only [nil_append, hnew, hempty, hnotfull, false_eq_true, if_false, hbw]
  · obtain ⟨init, live, heq, hcut, hflat⟩ := blocksOf_cases hne
    have hlive : live.getLast?.getD 0 < x := by rwa [getLast?_live hcut hflat]
    have hkinit : k ≤ init.length := by simpa [heq] using hk
    have hlen := hcut.length_eq
    rw [hflat] at hlen
    have hnewlast : (ids ++ [x]).getLast?.getD 0 = x := by simp
    by_cases hfull : live.length = indexBlockEntriesCap
    · have hmod : ids.length % indexBlockEntriesCap = 0 := by
        rw [hlen, hfull, add_mod_right, Nat.mul_mod_left]
      have hnew : blocksOf (ids ++ [x]) = (init ++ [live]) ++ [[x]] := by
        rw [blocksOf, chunks_append_full cap_pos hmod, ← heq]
      have hbw : (blockOf ((init.length + 1) % blockIDs) []).append x =
          .ok (blockOf ((init.length + 1) % blockIDs) [x]) :=
        append_blockOf (hids.pos x (by simp)) (by decide)
      have hisfull : (blockOf (init.length % blockIDs) live).full = true := by
        rw [full_blockOf, hfull]
        exact decide_eq_true le_rfl
      have hrotated : ((init.length % blockIDs) + 1) % blockIDs = (init.length + 1) % blockIDs :=
        mod_add_mod _ _ _
      have hempty (j : ℕ) : (⟨⟨0, 0, j⟩, [], []⟩ : BlockWriter) = blockOf j [] := rfl
      rw [writerFor_snoc heq, writerFor_snoc hnew]
      simp only [hisfull, if_true, IndexWriter.rotate]
      rw [show (blockOf (init.length % blockIDs) live).desc.id = init.length % blockIDs from rfl,
        hrotated, hempty, hbw]
      simp only [hnewlast, length_append, length_singleton, writersFrom_snoc,
        drop_append_of_le_length hkinit, Nat.zero_add, map_append, length_drop,
        Nat.add_sub_cancel' hkinit]
      rfl
    · have hroom : live.length < indexBlockEntriesCap := lt_of_le_of_ne hcut.le hfull
      have hmod : ids.length % indexBlockEntriesCap ≠ 0 := by
        rw [hlen, add_comm, add_mul_mod_self_right, mod_eq_of_lt hroom]
        exact ne_of_gt hcut.pos
      have hnew : blocksOf (ids ++ [x]) = init ++ [live ++ [x]] := by
        obtain ⟨init', live', heq', -, -, -, -, hafter⟩ := chunks_append_room (x := x) cap_pos hmod
        obtain ⟨rfl, hsame⟩ := append_inj' (heq.symm.trans heq') rfl
        rw [blocksOf, hafter, singleton_inj.mp hsame]
      have hnotfull : (blockOf (init.length % blockIDs) live).full = false := by
        rw [full_blockOf]
        exact decide_eq_false (not_le.mpr hroom)
      rw [writerFor_snoc heq, writerFor_snoc hnew]
      simp only [hnotfull, false_eq_true, if_false, append_blockOf hlive hroom, hnewlast]

theorem blocksOf_length_mono (ids new : List ℕ) :
    (blocksOf ids).length ≤ (blocksOf (ids ++ new)).length := by
  by_cases hne : ids = []
  · subst hne
    exact zero_le _
  · obtain ⟨init, live, heq, -⟩ := blocksOf_cases hne
    obtain ⟨grown, rest, hgrown, -⟩ := chunks_grow heq new
    rw [show blocksOf (ids ++ new) = _ from hgrown, heq]
    simp

theorem appendAll_writerFor {new : List ℕ} (hids : Ascending (ids ++ new))
    (hk : k ≤ (blocksOf ids).length - 1) :
    (writerFor k ids).appendAll new = .ok (writerFor k (ids ++ new)) := by
  induction new generalizing ids with
  | nil => simp [IndexWriter.appendAll]
  | cons x new ih =>
    rw [append_cons] at hids ⊢
    have hfirst := append_writerFor hids.left hk
    have hmono := blocksOf_length_mono ids [x]
    rw [IndexWriter.appendAll, hfirst]
    exact ih hids (by omega)

theorem finish_writerFor (hne : ids ≠ []) (hk : k ≤ (blocksOf ids).length - 1) (db : IndexDb) :
    (writerFor k ids).finish db =
      ⟨(stored ids).index, storeBlocks db.blocks (writersFrom k ((blocksOf ids).drop k))⟩ := by
  obtain ⟨init, live, heq, hcut, hflat⟩ := blocksOf_cases hne
  have hkinit : k ≤ init.length := by simpa [heq] using hk
  have hlive : (blockOf (init.length % blockIDs) live).empty = false :=
    empty_blockOf (length_pos_iff.mp hcut.pos)
  rw [writerFor_snoc heq, IndexWriter.finish]
  simp only [hlive, false_eq_true, if_false]
  rw [if_neg (by simp), ← descsOf_snoc heq, ← stored_index, heq,
    drop_append_of_le_length hkinit, writersFrom_snoc, length_drop,
    Nat.add_sub_cancel' hkinit]

theorem session_stored {new : List ℕ} (hids : Ascending (ids ++ new)) :
    session (stored ids) new = .ok (stored (ids ++ new)) := by
  have hold : Ascending ids := hids.left
  rw [session, newIndexWriter_stored hold]
  simp only [appendAll_writerFor hids le_rfl]
  congr 1
  by_cases hne : ids = []
  · subst hne
    by_cases hnew : new = []
    · subst hnew
      rfl
    · exact finish_writerFor hnew (zero_le _) _
  · obtain ⟨init, live, heq, -⟩ := blocksOf_cases hne
    obtain ⟨grown, rest, hgrown, -⟩ := chunks_grow heq new
    have hmono := blocksOf_length_mono ids new
    have hall : blocksOf (ids ++ new) = init ++ grown :: rest := hgrown
    have hk : (blocksOf ids).length - 1 = init.length := by simp [heq]
    -- the live block is written again with what it has grown to
    have hagain : storeBlocks (storeBlocks (storeBlocks (fun _ => []) (writersFrom 0 init))
        [blockOf (init.length % blockIDs) live])
          (blockOf (init.length % blockIDs) grown :: writersFrom (init.length + 1) rest) = _ :=
      storeBlocks_again _ _ rfl
    rw [finish_writerFor (by simp [hne]) (by omega), stored_blocks_snoc heq, hk, hall,
      drop_left, writersFrom_cons, hagain, ← storeBlocks_append, ← writersFrom_cons]
    simp only [stored, hall, writersFrom_append, Nat.zero_add]

/-! ## Reading -/

section Reading

variable {ids old new : List ℕ}

/-- The reader of a block. -/
def readerOf (xs : List ℕ) : BlockReader := ⟨starts (sections xs), encSections (sections xs)⟩

variable {xs : List ℕ}

theorem newBlockReader_finish {k : ℕ} (h : IsBlock xs) :
    newBlockReader (blockOf k xs).finish = .ok (readerOf xs) := by
  rw [newBlockReader, parseIndexBlock_finish h]
  rfl

theorem descsOf_getElem? (ids : List ℕ) (i : ℕ) :
    (descsOf ids)[i]? = ((blocksOf ids)[i]?).map fun xs => (blockOf (i % blockIDs) xs).desc := by
  simp [descsOf, writersFrom, getElem?_zipIdx, Option.map_map, comp_def]

variable {i : ℕ}

/-- A block is found under its id if none of the later ones has the same. -/
theorem stored_block_mod (hi : (blocksOf ids)[i]? = some xs)
    (hlast : (blocksOf ids).length ≤ i + blockIDs) :
    (stored ids).blocks (i % blockIDs) = (blockOf (i % blockIDs) xs).finish := by
  obtain ⟨hlt, hget⟩ := List.getElem?_eq_some_iff.mp hi
  have hsplit : blocksOf ids = (blocksOf ids).take i ++ [xs] ++ (blocksOf ids).drop (i + 1) := by
    rw [← hget, take_concat_get' _ _ hlt, take_append_drop]
  have hlater : ∀ b ∈ writersFrom (i + 1) ((blocksOf ids).drop (i + 1)),
      b.desc.id ≠ i % blockIDs := by
    intro b hb
    simp only [writersFrom, mem_map] at hb
    obtain ⟨⟨ys, j⟩, hj, rfl⟩ := hb
    obtain ⟨hge, hjlt, -⟩ := mem_zipIdx hj
    rw [length_drop] at hjlt
    show j % blockIDs ≠ i % blockIDs
    simp only [blockIDs] at hlast ⊢
    omega
  have htake : ((blocksOf ids).take i).length = i := by
    rw [length_take]
    omega
  show storeBlocks _ (writersFrom 0 (blocksOf ids)) _ = _
  rw [hsplit, writersFrom_append, writersFrom_snoc, length_append, htake, Nat.zero_add,
    Nat.zero_add, length_singleton, storeBlocks_append, storeBlocks_kept _ hlater]
  exact storeBlocks_last _ _ (blockOf (i % blockIDs) xs)

/-- As long as the block ids do not wrap around, every block is found under its number. -/
theorem stored_block (hfits : (blocksOf ids).length ≤ blockIDs)
    (hi : (blocksOf ids)[i]? = some xs) :
    (stored ids).blocks i = (blockOf i xs).finish := by
  obtain ⟨hlt, -⟩ := List.getElem?_eq_some_iff.mp hi
  have hblock := stored_block_mod hi (by omega)
  rwa [mod_eq_of_lt (hlt.trans_le hfits)] at hblock

theorem full_block_stays (hids : Ascending (old ++ new)) (hi : (blocksOf old)[i]? = some xs)
    (hfull : xs.length = indexBlockEntriesCap) : (blocksOf (old ++ new))[i]? = some xs := by
  have hne : old ≠ [] := by
    rintro rfl
    simp at hi
  obtain ⟨init, live, heq, -⟩ := blocksOf_cases hne
  obtain ⟨grown, rest, hgrown, hpre⟩ := chunks_grow heq new
  have hall : blocksOf (old ++ new) = init ++ grown :: rest := hgrown
  rw [heq] at hi
  rw [hall]
  rcases lt_or_ge i init.length with hlt | hge
  · rwa [getElem?_append_left hlt] at hi ⊢
  · rw [getElem?_append_right hge, getElem?_singleton] at hi
    split at hi
    · rename_i hzero
      rw [getElem?_append_right hge, hzero, getElem?_cons_zero]
      have hlive : live = xs := Option.some.inj hi
      have hgrownlen : grown.length ≤ indexBlockEntriesCap :=
        (block_of_mem hids (by rw [hall]; simp)).length_le
      rw [← hlive, hpre.eq_of_length_le (by rw [hlive, hfull]; exact hgrownlen)]
    · cases hi

theorem blocks_sorted (hids : Ascending ids) {j : ℕ} (hij : i < j) {ys : List ℕ}
    (hi : (blocksOf ids)[i]? = some xs) (hj : (blocksOf ids)[j]? = some ys) :
    ∀ x ∈ xs, ∀ y ∈ ys, x < y := by
  have hsorted := hids.sorted
  rw [← flatten_chunks cap_pos ids, pairwise_flatten] at hsorted
  obtain ⟨hjlt, rfl⟩ := List.getElem?_eq_some_iff.mp hj
  obtain ⟨hilt, rfl⟩ := List.getElem?_eq_some_iff.mp hi
  exact pairwise_iff_getElem.mp hsorted.2 i j hilt hjlt hij

theorem le_max (hxs : Ascending xs) {x : ℕ} (hx : x ∈ xs) : x ≤ xs.getLast?.getD 0 := by
  obtain ⟨init, last, rfl⟩ := eq_nil_or_concat xs |>.resolve_left (ne_nil_of_mem hx)
  rw [concat_eq_append] at hx hxs ⊢
  rw [getLast?_concat, Option.getD_some]
  rcases mem_append.mp hx with hx | hx
  · exact ((pairwise_append.mp hxs.sorted).2.2 x hx last (by simp)).le
  · exact (mem_singleton.mp hx).le

theorem max_mem (hne : xs ≠ []) : xs.getLast?.getD 0 ∈ xs := by
  rw [getLast?_eq_some_getLast hne, Option.getD_some]
  exact getLast_mem hne

theorem found_block (hids : Ascending ids) (id : ℕ)
    (hi : i = search (descsOf ids).length fun i => id < ((descsOf ids)[i]?).elim 0 (·.max)) :
    (∀ x ∈ ((blocksOf ids).take i).flatten, x ≤ id) ∧
      (((blocksOf ids)[i]? = none ∧ leastAbove ids id = maxUint64) ∨
        ∃ xs, (blocksOf ids)[i]? = some xs ∧ leastAbove ids id = leastAbove xs id) := by
  have hmax (j : ℕ) : ((descsOf ids)[j]?).elim 0 (·.max) =
      ((blocksOf ids)[j]?).elim 0 fun xs => xs.getLast?.getD 0 := by
    rw [descsOf_getElem?]
    cases (blocksOf ids)[j]? <;> rfl
  have hlen : (descsOf ids).length = (blocksOf ids).length := by simp [descsOf]
  simp only [hmax, hlen] at hi
  -- the maxima ascend, so the search is that of the first block that is large enough
  obtain ⟨hle, hbefore, hat⟩ := search_spec
    (f := fun j => id < ((blocksOf ids)[j]?).elim 0 fun xs => xs.getLast?.getD 0)
    (n := (blocksOf ids).length) (by
      intro a b hab hb ha
      rcases eq_or_lt_of_le hab with rfl | hlt
      · exact ha
      · have hya := getElem?_eq_getElem (l := blocksOf ids) (hlt.trans hb)
        have hyb := getElem?_eq_getElem (l := blocksOf ids) hb
        simp only [hya, hyb, Option.elim_some, decide_eq_true_eq] at ha ⊢
        have hmema := max_mem (block_of_mem hids (getElem_mem (hlt.trans hb))).nonempty
        have hmemb := max_mem (block_of_mem hids (getElem_mem hb)).nonempty
        exact ha.trans (blocks_sorted hids hlt hya hyb _ hmema _ hmemb))
  rw [← hi] at hle hbefore hat
  have hlow : ∀ x ∈ ((blocksOf ids).take i).flatten, x ≤ id := by
    intro x hx
    obtain ⟨xs, hxs, hmem⟩ := mem_flatten.mp hx
    obtain ⟨j, hj, rfl⟩ := mem_take_iff_getElem.mp hxs
    have hjlt : j < (blocksOf ids).length := by omega
    have hfalse := hbefore j (by omega)
    simp only [getElem?_eq_getElem hjlt, Option.elim_some, decide_eq_false_iff_not,
      not_lt] at hfalse
    exact (le_max (block_of_mem hids (getElem_mem hjlt)).toAscending hmem).trans hfalse
  have hsplit : ids = ((blocksOf ids).take i).flatten ++ ((blocksOf ids).drop i).flatten := by
    rw [← flatten_append, take_append_drop, flatten_chunks cap_pos]
  have hleast : leastAbove ids id = leastAbove ((blocksOf ids).drop i).flatten id := by
    have hfind : (((blocksOf ids).take i).flatten ++ ((blocksOf ids).drop i).flatten).find?
        (fun x => id < x) = _ := find?_of_le hlow
    rw [leastAbove, leastAbove, ← hfind, ← hsplit]
  refine ⟨hlow, ?_⟩
  rcases lt_or_ge i (blocksOf ids).length with hlt | hge
  · right
    have hgt := hat hlt
    simp only [getElem?_eq_getElem hlt, Option.elim_some, decide_eq_true_eq] at hgt
    refine ⟨(blocksOf ids)[i], getElem?_eq_getElem hlt, ?_⟩
    rw [hleast, drop_eq_getElem_cons hlt, flatten_cons, leastAbove, leastAbove, find?_append]
    obtain ⟨y, hy⟩ : ∃ y, (blocksOf ids)[i].find? (fun x => id < x) = some y := by
      rw [← Option.isSome_iff_exists, find?_isSome]
      exact ⟨_, max_mem (block_of_mem hids (getElem_mem hlt)).nonempty, by simpa using hgt⟩
    rw [hy]
    rfl
  · left
    refine ⟨getElem?_eq_none hge, ?_⟩
    rw [hleast, drop_eq_nil_of_le hge]
    rfl

/-- The reader knows the blocks of `old`; of the block that may grow it may have read anything. -/
structure Follows (r : IndexReader) (old : List ℕ) : Prop where
  descList : r.descList = descsOf old
  readers : ∀ key br, r.readers key = some br →
    ∃ xs, (blocksOf old)[key]? = some xs ∧
      (xs.length = indexBlockEntriesCap → br = readerOf xs)

/-- The reader has read nothing but what the database holds. -/
structure UpToDate (r : IndexReader) (ids : List ℕ) : Prop where
  descList : r.descList = descsOf ids
  readers : ∀ key br, r.readers key = some br →
    ∃ xs, (blocksOf ids)[key]? = some xs ∧ br = readerOf xs

variable {r : IndexReader}

theorem UpToDate.follows (h : UpToDate r ids) : Follows r ids :=
  ⟨h.descList, fun key br hbr => by
    obtain ⟨xs, hxs, heq⟩ := h.readers key br hbr
    exact ⟨xs, hxs, fun _ => heq⟩⟩

section

variable (hids : Ascending ids)
include hids

theorem newIndexReader_stored {db : IndexDb} (hindex : db.index = (stored ids).index) :
    newIndexReader db = .ok ⟨descsOf ids, fun _ => none⟩ := by
  rw [newIndexReader, loadIndexData_stored hids hindex]

theorem UpToDate.blockReader (hfits : (blocksOf ids).length ≤ blockIDs)
    (h : UpToDate r ids) (hi : (blocksOf ids)[i]? = some xs) :
    ∃ r', r.blockReader (stored ids) i = .ok (readerOf xs, r') := by
  rw [IndexReader.blockReader]
  cases hcached : r.readers i with
  | some br =>
    obtain ⟨ys, hys, rfl⟩ := h.readers i br hcached
    rw [hi] at hys
    cases hys
    exact ⟨r, rfl⟩
  | none =>
    have hblock := block_of_mem hids (mem_of_getElem? hi)
    simp only [stored_block hfits hi, newBlockReader_finish hblock]
    exact ⟨_, rfl⟩

theorem UpToDate.answers (hfits : (blocksOf ids).length ≤ blockIDs) (h : UpToDate r ids) (id : ℕ) :
    (r.readGreaterThan (stored ids) id).1 = .ok (leastAbove ids id) := by
  rw [IndexReader.readGreaterThan, h.descList]
  rcases (found_block hids id rfl).2 with ⟨hnone, hleast⟩ | ⟨xs, hxs, hleast⟩
  · rw [descsOf_getElem?, hnone, hleast]
    rfl
  · obtain ⟨hlt, -⟩ := List.getElem?_eq_some_iff.mp hxs
    obtain ⟨r', hr'⟩ := h.blockReader hids hfits hxs
    rw [descsOf_getElem?, hxs, hleast]
    simp only [Option.map_some, blockOf, mod_eq_of_lt (hlt.trans_le hfits), hr']
    exact readGreaterThan_blockOf (block_of_mem hids (mem_of_getElem? hxs)) id

theorem query_stored (hfits : (blocksOf ids).length ≤ blockIDs) (id : ℕ) :
    query (stored ids) id = .ok (leastAbove ids id) := by
  rw [query, newIndexReader_stored hids rfl]
  exact UpToDate.answers hids hfits ⟨rfl, by rintro key br ⟨⟩⟩ id

end

variable (hids : Ascending (old ++ new)) (hfits : (blocksOf (old ++ new)).length ≤ blockIDs)
  (h : Follows r old)

include hids hfits h

theorem Follows.blockReader {r' : IndexReader} {br : BlockReader}
    (hi : (blocksOf old)[i]? = some xs)
    (hread : r.blockReader (stored (old ++ new)) i = .ok (br, r')) : Follows r' old := by
  rw [IndexReader.blockReader] at hread
  cases hcached : r.readers i with
  | some br' =>
    simp only [hcached] at hread
    cases hread
    exact h
  | none =>
    simp only [hcached] at hread
    split at hread
    · cases hread
    · rename_i hblock
      cases hread
      refine ⟨h.descList, fun key br' hbr' => ?_⟩
      change update r.readers i (some br) key = some br' at hbr'
      by_cases hkey : key = i
      · -- a full block has not changed since
        subst hkey
        rw [update_self] at hbr'
        cases hbr'
        refine ⟨xs, hi, fun hfull => ?_⟩
        rw [stored_block hfits (full_block_stays hids hi hfull), newBlockReader_finish
          (block_of_mem hids.left (mem_of_getElem? hi))] at hblock
        cases hblock
        rfl
      · rw [update_of_ne hkey] at hbr'
        exact h.readers key br' hbr'

/-- What a reader has read stays right, also if the database has grown meanwhile. -/
theorem Follows.read (id : ℕ) : Follows (r.readGreaterThan (stored (old ++ new)) id).2 old := by
  rw [IndexReader.readGreaterThan, h.descList]
  split
  · exact h
  · rename_i desc hdesc
    rw [descsOf_getElem?] at hdesc
    obtain ⟨xs, hxs, rfl⟩ := Option.map_eq_some_iff.mp hdesc
    obtain ⟨hlt, -⟩ := List.getElem?_eq_some_iff.mp hxs
    have hmono := blocksOf_length_mono old new
    simp only [blockOf, mod_eq_of_lt (hlt.trans_le (hmono.trans hfits))]
    split
    · exact h
    · rename_i br r' hread
      exact h.blockReader hids hfits hxs hread

/-- A refresh forgets the block that may have grown. -/
theorem Follows.refresh :
    ∃ r', r.refresh (stored (old ++ new)) = .ok r' ∧ UpToDate r' (old ++ new) := by
  rw [IndexReader.refresh, loadIndexData_stored hids rfl, h.descList]
  refine ⟨_, rfl, rfl, ?_⟩
  intro key br hbr
  -- what is left is of full blocks
  have hkept : ∃ xs, (blocksOf old)[key]? = some xs ∧ xs.length = indexBlockEntriesCap ∧
      br = readerOf xs := by
    by_cases hne : old = []
    · subst hne
      obtain ⟨xs, hxs, -⟩ := h.readers key br hbr
      simp at hxs
    · obtain ⟨init, live, heq, hcut, -⟩ := blocksOf_cases hne
      have hmono := blocksOf_length_mono old new
      have hmod : (blockOf (init.length % blockIDs) live).desc.id = init.length := by
        rw [heq, length_append, length_singleton] at hmono
        exact mod_eq_of_lt (by omega)
      simp only [descsOf_snoc heq, getLast?_concat] at hbr
      split at hbr
      · rename_i hfull
        have hlen : live.length = indexBlockEntriesCap :=
          le_antisymm hcut.le (of_decide_eq_true hfull)
        obtain ⟨xs, hxs, hbr⟩ := h.readers key br hbr
        have hxsfull : xs.length = indexBlockEntriesCap := by
          rw [heq] at hxs
          rcases mem_append.mp (mem_of_getElem? hxs) with hmem | hmem
          · exact hcut.full xs hmem
          · rw [mem_singleton.mp hmem, hlen]
        exact ⟨xs, hxs, hxsfull, hbr hxsfull⟩
      · rw [hmod] at hbr
        have hkey : key ≠ init.length := by
          rintro rfl
          rw [update_self] at hbr
          cases hbr
        rw [update_of_ne hkey] at hbr
        obtain ⟨xs, hxs, hbr⟩ := h.readers key br hbr
        have hxsfull : xs.length = indexBlockEntriesCap := by
          obtain ⟨hlt, -⟩ := List.getElem?_eq_some_iff.mp hxs
          rw [heq] at hxs hlt
          rw [length_append, length_singleton] at hlt
          rw [getElem?_append_left (by omega)] at hxs
          exact hcut.full xs (mem_of_getElem? hxs)
        exact ⟨xs, hxs, hxsfull, hbr hxsfull⟩
  obtain ⟨xs, hxs, hfull, rfl⟩ := hkept
  exact ⟨xs, full_block_stays hids hxs hfull, rfl⟩

end Reading

/-! ## Runs -/

/-- What holds after every event. The reader may have seen fewer ids than there are now. -/
structure Indexes (s : IndexState) (ids : List ℕ) : Prop where
  db : s.db = stored ids
  reader : (blocksOf ids).length ≤ blockIDs → ∃ old new, ids = old ++ new ∧ Follows s.reader old

@[simp] theorem appended_session (ids : List ℕ) : appended [.session ids] = ids := by
  simp [appended]

theorem Indexes.step {s : IndexState} {event : IndexEvent} (h : Indexes s ids)
    (hids : Ascending (ids ++ appended [event])) :
    ∃ s', s.step event = .ok s' ∧ Indexes s' (ids ++ appended [event]) := by
  have hold : Ascending ids := hids.left
  cases event with
  | session new =>
    rw [appended_session] at hids ⊢
    refine ⟨⟨stored (ids ++ new), s.reader⟩, ?_, rfl, fun hfits => ?_⟩
    · rw [IndexState.step, h.db, session_stored hids]
      rfl
    · obtain ⟨old, rest, rfl, hfollows⟩ := h.reader ((blocksOf_length_mono ids new).trans hfits)
      exact ⟨old, rest ++ new, append_assoc _ _ _, hfollows⟩
  | openReader =>
    have happ : ids ++ appended [.openReader] = ids := by simp [appended]
    rw [happ]
    refine ⟨⟨s.db, ⟨descsOf ids, fun _ => none⟩⟩, ?_, h.db, fun _ => ⟨ids, [], by simp, rfl, ?_⟩⟩
    · rw [IndexState.step, h.db, newIndexReader_stored hold rfl]
      rfl
    · rintro key br ⟨⟩
  | read id =>
    have happ : ids ++ appended [.read id] = ids := by simp [appended]
    rw [happ]
    refine ⟨_, rfl, h.db, fun hfits => ?_⟩
    obtain ⟨old, rest, rfl, hfollows⟩ := h.reader hfits
    refine ⟨old, rest, rfl, ?_⟩
    rw [h.db]
    exact hfollows.read hold hfits id
  | refresh =>
    have happ : ids ++ appended [.refresh] = ids := by simp [appended]
    rw [happ]
    obtain ⟨r, hr⟩ : ∃ r, s.reader.refresh s.db = .ok r := by
      rw [IndexReader.refresh, h.db, loadIndexData_stored hold rfl]
      exact ⟨_, rfl⟩
    refine ⟨⟨s.db, r⟩, by rw [IndexState.step, hr]; rfl, h.db, fun hfits => ?_⟩
    obtain ⟨old, rest, rfl, hfollows⟩ := h.reader hfits
    obtain ⟨r', hr', hdate⟩ := hfollows.refresh hold hfits
    rw [← h.db, hr] at hr'
    cases hr'
    exact ⟨_, [], by simp, hdate.follows⟩

theorem Indexes.run {s : IndexState} (h : Indexes s ids) (events : List IndexEvent)
    (hids : Ascending (ids ++ appended events)) :
    ∃ s', s.run events = .ok s' ∧ Indexes s' (ids ++ appended events) := by
  induction events generalizing s ids with
  | nil => exact ⟨s, rfl, by simpa [appended] using h⟩
  | cons event events ih =>
    have happ : appended (event :: events) = appended [event] ++ appended events := by
      simp [appended]
    rw [happ, ← append_assoc] at hids ⊢
    obtain ⟨s₁, hstep, h₁⟩ := h.step hids.left
    obtain ⟨s', hrun, h'⟩ := ih h₁ hids
    refine ⟨s', ?_, h'⟩
    rw [← hrun, IndexState.run, foldl_cons]
    simp only [Except.bind, hstep]
    rfl

theorem indexes_start : Indexes IndexState.start [] :=
  ⟨rfl, fun _ => ⟨[], [], rfl, rfl, by rintro key br ⟨⟩⟩⟩

theorem session_run (hids : Ascending ids) :
    ∃ s, IndexState.start.run [.session ids] = .ok s ∧ s.db = stored ids := by
  obtain ⟨s, hrun, hs⟩ := indexes_start.run [.session ids] (by simpa using hids)
  exact ⟨s, hrun, by simpa using hs.db⟩

/-! ### Where the block ids wrap around -/

theorem blocksOf_length (ids : List ℕ) :
    (blocksOf ids).length ≤ blockIDs ↔ ids.length ≤ 2 ^ 44 := by
  rcases chunks_cases cap_pos ids with ⟨rfl, -⟩ | ⟨init, live, heq, hcut, hflat⟩
  · exact ⟨fun _ => zero_le _, fun _ => zero_le _⟩
  · have hlen := hcut.length_eq
    have hpos := hcut.pos
    have hle := hcut.le
    rw [hflat] at hlen
    rw [show blocksOf ids = _ from heq, length_append, length_singleton]
    simp only [indexBlockEntriesCap, blockIDs] at hlen hle ⊢
    omega

theorem leastAbove_zero_mem (h : IsBlock xs) : leastAbove xs 0 ∈ xs := by
  obtain ⟨x, rest, rfl⟩ := exists_cons_of_ne_nil h.nonempty
  have hpos : 0 < x := h.pos x (by simp)
  simp [leastAbove, hpos]

theorem query_zero (hids : Ascending ids) (hne : ids ≠ [])
    (hindex : db.index = (stored ids).index) :
    (∃ xs, (blocksOf ids)[0]? = some xs ∧ leastAbove ids 0 = leastAbove xs 0) ∧
      query db 0 = (newBlockReader (db.blocks 0)).bind (·.readGreaterThan 0) := by
  have hpos : 0 < (blocksOf ids).length := length_pos_iff.mpr (chunks_ne_nil cap_pos hne)
  have hfirst := getElem?_eq_getElem hpos
  have hblock := block_of_mem hids (getElem_mem hpos)
  obtain ⟨hlow, hfound⟩ := found_block hids 0 rfl
  have hzero : search (descsOf ids).length
      (fun i => 0 < ((descsOf ids)[i]?).elim 0 (·.max)) = 0 := by
    by_contra hsearch
    have hmem : (blocksOf ids)[0] ∈ (blocksOf ids).take (search (descsOf ids).length
        fun i => 0 < ((descsOf ids)[i]?).elim 0 (·.max)) :=
      mem_take_iff_getElem.mpr ⟨0, by omega, rfl⟩
    have hmax := max_mem hblock.nonempty
    have := hlow _ (mem_flatten.mpr ⟨_, hmem, hmax⟩)
    have := hblock.pos _ hmax
    omega
  rw [hzero, hfirst] at hfound
  constructor
  · obtain ⟨⟨⟩, -⟩ | ⟨xs, hxs, hleast⟩ := hfound
    exact ⟨xs, hfirst.trans hxs, hleast⟩
  · rw [query, newIndexReader_stored hids hindex]
    dsimp only
    rw [IndexReader.readGreaterThan, hzero, descsOf_getElem?, hfirst]
    simp only [Option.map_some, blockOf, zero_mod, IndexReader.blockReader]
    cases newBlockReader (db.blocks 0) <;> rfl

theorem query_overwritten {all ys : List ℕ} (hall : Ascending all) (hids : ids <+: all)
    (hne : ids ≠ []) (hindex : db.index = (stored ids).index) {j : ℕ} (hj : 0 < j)
    (hys : (blocksOf all)[j]? = some ys) (hblock : db.blocks 0 = (blockOf 0 ys).finish) :
    query db 0 ≠ .ok (leastAbove ids 0) := by
  have hasc_ids : Ascending ids := hall.sublist hids.sublist
  obtain ⟨⟨xs, hxs, hleast⟩, hquery⟩ := query_zero hasc_ids hne hindex
  have hysblock := block_of_mem hall (mem_of_getElem? hys)
  rw [hquery, hblock, newBlockReader_finish hysblock, hleast]
  intro heq
  have hanswer : (readerOf ys).readGreaterThan 0 = .ok (leastAbove ys 0) :=
    readGreaterThan_blockOf hysblock 0
  rw [show (readerOf ys).readGreaterThan 0 = _ from heq, Except.ok.injEq] at hanswer
  have hxsblock := block_of_mem hasc_ids (mem_of_getElem? hxs)
  -- the first block of all ids begins as that of these ids
  obtain ⟨zs, hzs, hpre⟩ : ∃ zs, (blocksOf all)[0]? = some zs ∧ xs <+: zs := by
    obtain ⟨rest, rfl⟩ := hids
    obtain ⟨init, live, heq, -⟩ := blocksOf_cases hne
    obtain ⟨grown, more, hgrown, hpre⟩ := chunks_grow heq rest
    rw [show blocksOf (ids ++ rest) = _ from hgrown]
    rw [heq] at hxs
    cases init with
    | nil =>
      cases hxs
      exact ⟨grown, rfl, hpre⟩
    | cons b init => exact ⟨b, rfl, by cases hxs; exact prefix_refl _⟩
  have hlt := blocks_sorted hall hj hzs hys _
    (hpre.subset (leastAbove_zero_mem hxsblock)) _ (leastAbove_zero_mem hysblock)
  omega

theorem last_with_id (hk : k < n) :
    ∃ j, k ≤ j ∧ j < n ∧ j % blockIDs = k % blockIDs ∧ n ≤ j + blockIDs := by
  refine ⟨k + blockIDs * ((n - 1 - k) / blockIDs), le_add_right _ _, ?_,
    add_mul_mod_self_left _ _ _, ?_⟩
  all_goals
    simp only [blockIDs]
    omega

theorem query_wrapped (hids : Ascending ids) (hwrap : blockIDs < (blocksOf ids).length) :
    query (stored ids) 0 ≠ .ok (leastAbove ids 0) := by
  have hne : ids ≠ [] := by
    rintro rfl
    simp at hwrap
  obtain ⟨j, -, hj, hjmod, hjlast⟩ := last_with_id (zero_lt_of_lt hwrap)
  have hlater := getElem?_eq_getElem hj
  have hblock := stored_block_mod hlater hjlast
  rw [hjmod] at hblock
  exact query_overwritten hids (prefix_refl _) hne rfl (by omega) hlater hblock

/-! ### What the index answers -/

/-- The least of the ids above `id`, or the largest number if there is none. -/
def Answer (ids : List ℕ) (id r : ℕ) : Prop :=
  IsLeast {x | x ∈ ids ∧ id < x} r ∨ (∀ x ∈ ids, x ≤ id) ∧ r = maxUint64

theorem answer_iff (hids : Ascending ids) {id r : ℕ} : Answer ids id r ↔ r = leastAbove ids id := by
  have hleast : Answer ids id (leastAbove ids id) := by
    rw [leastAbove]
    cases hfind : ids.find? fun x => id < x with
    | none =>
      refine .inr ⟨fun x hx => ?_, rfl⟩
      simpa using find?_eq_none.mp hfind x hx
    | some y =>
      obtain ⟨hy, as, bs, rfl, has⟩ := find?_eq_some_iff_append.mp hfind
      refine .inl ⟨⟨by simp, by simpa using hy⟩, ?_⟩
      rintro x ⟨hx, hgt⟩
      rcases mem_append.mp hx with hx | hx
      · have := has x hx
        simp only [not_eq_true', decide_eq_false_iff_not] at this
        exact absurd hgt this
      · rcases mem_cons.mp hx with rfl | hx
        · exact le_rfl
        · have hpair := (pairwise_append.mp hids.sorted).2.1
          exact ((pairwise_cons.mp hpair).1 x hx).le
  constructor
  · rintro (hr | ⟨hr, rfl⟩)
    · rcases hleast with h | ⟨h, -⟩
      · exact hr.unique h
      · exact absurd (h r hr.1.1) (not_le.mpr hr.1.2)
    · rcases hleast with h | ⟨-, h⟩
      · exact absurd (hr _ h.1.1) (not_le.mpr h.1.2)
      · exact h.symm
  · rintro rfl
    exact hleast

/-- The offsets of the sections fit in two bytes and their number in one. -/
def BlockWriter.Fits (bw : BlockWriter) : Prop :=
  bw.data.length < 2 ^ 16 ∧ bw.restarts.length < 2 ^ 8

theorem fits_blockOf (hlen : xs.length ≤ indexBlockEntriesCap) : (blockOf k xs).Fits := by
  have hdata := block_data_length hlen
  have hrestarts := block_restarts_length hlen
  refine ⟨lt_of_le_of_lt hdata (by decide), ?_⟩
  show (starts (sections xs)).length < 2 ^ 8
  rw [starts_length]
  omega

theorem fits_writerFor (hids : Ascending ids) :
    ∀ bw ∈ (writerFor k ids).frozen ++ [(writerFor k ids).bw], bw.Fits := by
  intro bw hbw
  rcases mem_append.mp hbw with hbw | hbw
  · simp only [writerFor, writersFrom, mem_map] at hbw
    obtain ⟨⟨xs, j⟩, hxs, rfl⟩ := hbw
    have hmem := dropLast_subset _ (mem_of_mem_drop (fst_mem_of_mem_zipIdx hxs))
    exact fits_blockOf (block_of_mem hids hmem).length_le
  · rw [mem_singleton.mp hbw]
    refine fits_blockOf ?_
    cases hlast : (blocksOf ids).getLast? with
    | none => exact zero_le _
    | some xs => exact (block_of_mem hids (mem_of_getLast? hlast)).length_le

/-- Whatever the events are, the blocks keep to their limits; the index answers for the ids that
were appended, and a refreshed reader answers as a new one, exactly as long as there are not more
ids than the block ids can tell apart. -/
theorem index_exact {events : List IndexEvent} (hids : Ascending (appended events)) :
    ∃ s, IndexState.start.run events = .ok s ∧ (∀ new, Ascending (appended events ++ new) →
        ∃ w, (newIndexWriter s.db).bind (·.appendAll new) = .ok w ∧
          ∀ bw ∈ w.frozen ++ [w.bw], bw.Fits) ∧
      (((∀ id, ∃ r, query s.db id = .ok r ∧ Answer (appended events) id r) ∧
          ∃ r, s.reader.refresh s.db = .ok r ∧
            ∀ id, (r.readGreaterThan s.db id).1 = query s.db id) ↔
        (appended events).length ≤ 2 ^ 44) := by
  obtain ⟨s, hrun, hs⟩ := indexes_start.run events hids
  rw [nil_append] at hs
  refine ⟨s, hrun, ?_, ?_⟩
  · intro new hnew
    refine ⟨writerFor ((blocksOf (appended events)).length - 1) _, ?_, fits_writerFor hnew⟩
    rw [hs.db, newIndexWriter_stored hids]
    exact appendAll_writerFor hnew le_rfl
  · rw [← blocksOf_length]
    constructor
    · rintro ⟨hquery, -⟩
      by_contra hwrap
      obtain ⟨r, hr, hanswer⟩ := hquery 0
      rw [hs.db, (answer_iff hids).mp hanswer] at hr
      exact query_wrapped hids (Nat.not_le.mp hwrap) hr
    · intro hfits
      have hquery (id : ℕ) : query s.db id = .ok (leastAbove (appended events) id) := by
        rw [hs.db, query_stored hids hfits]
      obtain ⟨old, rest, hsplit, hfollows⟩ := hs.reader hfits
      rw [hsplit] at hids hfits hs
      obtain ⟨r, hr, hdate⟩ := hfollows.refresh hids hfits
      refine ⟨fun id => ⟨_, hquery id, (answer_iff (hsplit ▸ hids)).mpr rfl⟩, r, ?_, fun id => ?_⟩
      · rw [hs.db, hr]
      · rw [hquery, hs.db, hdate.answers hids hfits, hsplit]

/-- Two sessions, with a reader that has read before the second one. -/
theorem index_exact_two_sessions :
    ∃ s, IndexState.start.run [.session [3, 5], .openReader, .read 3, .session [9]] = .ok s ∧
      (∀ id, ∃ r, query s.db id = .ok r ∧ Answer [3, 5, 9] id r) ∧
      ∃ r, s.reader.refresh s.db = .ok r ∧ ∀ id, (r.readGreaterThan s.db id).1 = query s.db id := by
  have hids : Ascending (appended [.session [3, 5], .openReader, .read 3, .session [9]]) :=
    ⟨by decide, by decide, by decide⟩
  obtain ⟨s, hrun, -, hiff⟩ := index_exact hids
  exact ⟨s, hrun, hiff.mpr (by decide)⟩

theorem ascending_range (hn : n < 2 ^ 64) : Ascending (List.range' 1 n) where
  sorted := pairwise_lt_range'
  pos x hx := (mem_range'_1.mp hx).1
  lt x hx := by
    have := (mem_range'_1.mp hx).2
    omega

theorem leastAbove_range (hn : 0 < n) : leastAbove (List.range' 1 n) 0 = 1 := by
  obtain ⟨m, rfl⟩ := exists_eq_succ_of_ne_zero hn.ne'
  rw [range'_succ]
  simp [leastAbove]

theorem query_range_wrapped (hn : n < 2 ^ 64) (hwrap : 2 ^ 44 < n) :
    ∃ s, IndexState.start.run [.session (List.range' 1 n)] = .ok s ∧ query s.db 0 ≠ .ok 1 := by
  have hids := ascending_range hn
  obtain ⟨s, hrun, hs⟩ := session_run hids
  refine ⟨s, hrun, ?_⟩
  have hwrapped : blockIDs < (blocksOf (List.range' 1 n)).length := by
    rw [← not_le, blocksOf_length, length_range']
    omega
  have hquery := query_wrapped hids hwrapped
  rw [leastAbove_range (zero_lt_of_lt hwrap)] at hquery
  rwa [hs]

/-- With 2 ^ 44 + 1 ids the first one is not found any more. -/
theorem index_wrapped : ∃ s, IndexState.start.run [.session (List.range' 1 (2 ^ 44 + 1))] = .ok s ∧
      query s.db 0 ≠ .ok 1 :=
  query_range_wrapped (by norm_num) (by norm_num)

end ChilizChain.PathDb
