import ChilizChain.Lib.Varint
import ChilizChain.Lib.Search
import ChilizChain.Lib.Chunks

/-! Blocks of the state history index.

A block holds ascending history ids. They are cut into sections of 256; the first id of a section
is written in full, every other as the difference to the one before, all as varints. Behind the
data stand the offsets of the sections, two bytes each, and their number in one byte.

`blockOf` says what the writer of a block with given ids looks like. Appending and popping an id
lead from one such writer to another (`append_blockOf`, `pop_blockOf`), writing and parsing gives
the same block back (`parseIndexBlock_finish`), and the reader answers with the least id above the
asked one (`readGreaterThan_blockOf`). -/

namespace ChilizChain.PathDb

open Chunks List Varint Bytes UInt8

def indexBlockEntriesCap : ℕ := 4096

def indexBlockRestartLen : ℕ := 256

def maxUint64 : ℕ := 2 ^ 64 - 1

/-- `binary.BigEndian` numbers of `w` bytes. -/
def putBig (w n : ℕ) : Bytes := (Bytes.leBytes w n).reverse

def getBig (bs : Bytes) : ℕ := Bytes.leNat bs.reverse

theorem getBig_putBig {w n : ℕ} (h : n < 256 ^ w) : getBig (putBig w n) = n := by
  rw [getBig, putBig, reverse_reverse, leNat_leBytes w n h]

@[simp] theorem putBig_length (w n : ℕ) : (putBig w n).length = w := by
  simp [putBig]

structure IndexBlockDesc where
  max : ℕ
  entries : ℕ
  id : ℕ
deriving DecidableEq

namespace IndexBlockDesc

def empty (d : IndexBlockDesc) : Bool := d.entries == 0

def full (d : IndexBlockDesc) : Bool := indexBlockEntriesCap ≤ d.entries

end IndexBlockDesc

inductive IndexError where
  | corruptedBlock (len : ℕ)
  | noRestart
  | truncatedRestarts (size restarts : ℕ)
  | restartOutOfOrder (prev next : ℕ)
  | invalidRestart (restart size : ℕ)
  | undecodable
  | zeroID
  | appendOutOfOrder (last this : ℕ)
  | popOutOfOrder (last this : ℕ)
  | popNotFound (last this : ℕ)
  | emptyIndex
  | corruptedIndex (len : ℕ)
  | emptyBlock
  | blockOutOfOrder (last this : ℕ)
deriving DecidableEq

/-! ## Parsing and reading -/

/-- The first `n` restart offsets, which stand from `dataEnd` on. -/
def parseRestarts (blob : Bytes) (dataEnd : ℕ) : ℕ → Except IndexError (List ℕ)
  | 0 => .ok []
  | n + 1 =>
    match parseRestarts blob dataEnd n with
    | .error e => .error e
    | .ok restarts =>
      let next := getBig (Bytes.slice blob (dataEnd + 2 * n) (dataEnd + 2 * n + 2))
      match restarts.getLast? with
      | some prev =>
        if next ≤ prev then .error (.restartOutOfOrder prev next)
        else if dataEnd ≤ next then .error (.invalidRestart next dataEnd)
        else .ok (restarts ++ [next])
      | none =>
        if dataEnd ≤ next then .error (.invalidRestart next dataEnd) else .ok (restarts ++ [next])

def parseIndexBlock (blob : Bytes) : Except IndexError (List ℕ × Bytes) :=
  match blob.getLast? with
  | none => .error (.corruptedBlock blob.length)
  | some count =>
    let restartLen := count.toNat
    if restartLen = 0 then .error .noRestart
    else
      let tailLen := restartLen * 2 + 1
      if blob.length < tailLen then .error (.truncatedRestarts blob.length restartLen)
      else
        let dataEnd := blob.length - tailLen
        match parseRestarts blob dataEnd restartLen with
        | .error e => .error e
        | .ok restarts => .ok (restarts, blob.take dataEnd)

/-- The values of a section with their positions: the first one is written in full, the others are
differences. -/
def scanFrom (data : Bytes) (start limit : ℕ) : ℕ → ℕ → ℕ → List (ℕ × ℕ)
  | 0, _, _ => []
  | fuel + 1, pos, value =>
    if pos < limit then
      let (x, n) := Varint.uvarint (data.drop pos)
      let value := if pos = start then x else (value + x) % 2 ^ 64
      (value, pos) :: scanFrom data start limit fuel (pos + n.toNat) value
    else []

def scan (data : Bytes) (start limit : ℕ) : List (ℕ × ℕ) :=
  scanFrom data start limit data.length start 0

structure BlockReader where
  restarts : List ℕ
  data : Bytes
deriving DecidableEq

def newBlockReader (blob : Bytes) : Except IndexError BlockReader :=
  match parseIndexBlock blob with
  | .error e => .error e
  | .ok (restarts, data) => .ok ⟨restarts, data⟩

namespace BlockReader

/-- The value at a restart and the number of its bytes. -/
def item (br : BlockReader) (i : ℕ) : ℕ × ℤ :=
  Varint.uvarint (br.data.drop (br.restarts.getD i 0))

def readGreaterThan (br : BlockReader) (id : ℕ) : Except IndexError ℕ :=
  let above : ℕ → Bool := fun i => id < (br.item i).1
  let index := search br.restarts.length above
  if (probes br.restarts.length above).any fun i => (br.item i).2 ≤ 0 then .error .undecodable
  else if index = 0 then .ok (br.item 0).1
  else
    -- the section before the found restart; behind the last restart it ends with the data
    let start := br.restarts.getD (index - 1) 0
    let limit := if index = br.restarts.length then br.data.length else br.restarts.getD index 0
    match (scan br.data start limit).find? fun entry => id < entry.1 with
    | some (result, _) => .ok result
    | none => if index = br.restarts.length then .ok maxUint64 else .ok (br.item index).1

end BlockReader

/-! ## Writing -/

structure BlockWriter where
  desc : IndexBlockDesc
  restarts : List ℕ
  data : Bytes
deriving DecidableEq

def newBlockWriter (blob : Bytes) (desc : IndexBlockDesc) : Except IndexError BlockWriter :=
  if blob.length = 0 then .ok ⟨desc, [], []⟩
  else
    match parseIndexBlock blob with
    | .error e => .error e
    | .ok (restarts, data) => .ok ⟨desc, restarts, data⟩

namespace BlockWriter

variable (b : BlockWriter)

def append (id : ℕ) : Except IndexError BlockWriter :=
  if id = 0 then .error .zeroID
  else if id ≤ b.desc.max then .error (.appendOutOfOrder b.desc.max id)
  else
    let desc := { b.desc with entries := (b.desc.entries + 1) % 2 ^ 16, max := id }
    if b.desc.entries % indexBlockRestartLen = 0 then
      .ok ⟨desc, b.restarts ++ [b.data.length % 2 ^ 16], b.data ++ Varint.encode id⟩
    else .ok ⟨desc, b.restarts, b.data ++ Varint.encode (id - b.desc.max)⟩

/-- `scanSection`, for the last section. -/
def lastSection (restarts : List ℕ) (data : Bytes) : List (ℕ × ℕ) :=
  scan data (restarts.getLast?.getD 0) data.length

def sectionLast (entries : List (ℕ × ℕ)) : ℕ := (entries.getLast?.map Prod.fst).getD 0

/-- Whether the value is found, the value before it, and its position. -/
def sectionSearch (n : ℕ) : ℕ → List (ℕ × ℕ) → Bool × ℕ × ℕ
  | prev, [] => (false, prev, 0)
  | prev, (v, p) :: rest => if n = v then (true, prev, p) else sectionSearch n v rest

def pop (id : ℕ) : Except IndexError BlockWriter :=
  if id = 0 then .error .zeroID
  else if id ≠ b.desc.max then .error (.popOutOfOrder b.desc.max id)
  else if b.desc.entries = 1 then .ok ⟨{ b.desc with max := 0, entries := 0 }, [], []⟩
  else if b.desc.entries % indexBlockRestartLen = 1 then
    let data := b.data.take (b.restarts.getLast?.getD 0)
    let restarts := b.restarts.dropLast
    .ok ⟨{ b.desc with max := sectionLast (lastSection restarts data),
                       entries := b.desc.entries - 1 }, restarts, data⟩
  else
    match sectionSearch id 0 (lastSection b.restarts b.data) with
    | (false, _, _) => .error (.popNotFound b.desc.max id)
    | (true, prev, pos) =>
      .ok ⟨{ b.desc with max := prev, entries := b.desc.entries - 1 }, b.restarts,
        b.data.take pos⟩

def empty (b : BlockWriter) : Bool := b.desc.empty

def full (b : BlockWriter) : Bool := b.desc.full

def finish : Bytes :=
  b.data ++ (b.restarts.flatMap (putBig 2) ++ [UInt8.ofNat b.restarts.length])

end BlockWriter

/-! ## What a block is -/

/-- Ascending positive 64-bit ids. -/
structure Ascending (xs : List ℕ) : Prop where
  sorted : xs.Pairwise (· < ·)
  pos : ∀ x ∈ xs, 0 < x
  lt : ∀ x ∈ xs, x < 2 ^ 64

variable {xs : List ℕ}

theorem Ascending.sublist {ys : List ℕ} (h : Ascending xs) (hsub : ys.Sublist xs) : Ascending ys :=
  ⟨h.sorted.sublist hsub, fun x hx => h.pos x (hsub.subset hx), fun x hx => h.lt x (hsub.subset hx)⟩

theorem Ascending.left {ys : List ℕ} (h : Ascending (xs ++ ys)) : Ascending xs :=
  h.sublist (sublist_append_left _ _)

/-- The ids of a block. -/
structure IsBlock (xs : List ℕ) : Prop extends Ascending xs where
  nonempty : xs ≠ []
  length_le : xs.length ≤ indexBlockEntriesCap

def deltas (prev : ℕ) : List ℕ → Bytes
  | [] => []
  | y :: ys => Varint.encode (y - prev) ++ deltas y ys

def encSection : List ℕ → Bytes
  | [] => []
  | x :: xs => Varint.encode x ++ deltas x xs

def encSections (ss : List (List ℕ)) : Bytes := ss.flatMap encSection

/-- The offsets of the sections. -/
def starts (ss : List (List ℕ)) : List ℕ :=
  (List.range ss.length).map fun i => (encSections (ss.take i)).length

abbrev sections (xs : List ℕ) : List (List ℕ) := chunks indexBlockRestartLen xs

def blockOf (id : ℕ) (xs : List ℕ) : BlockWriter :=
  ⟨⟨xs.getLast?.getD 0, xs.length, id⟩, starts (sections xs), encSections (sections xs)⟩

theorem deltas_append (prev : ℕ) (ys : List ℕ) (x : ℕ) :
    deltas prev (ys ++ [x]) = deltas prev ys ++ encode (x - ys.getLast?.getD prev) := by
  induction ys generalizing prev with
  | nil => simp [deltas]
  | cons y ys ih =>
    rw [cons_append, deltas, deltas, ih, append_assoc, getLast?_cons]
    rfl

variable {s : List ℕ}

theorem encSection_append (hs : s ≠ []) (x : ℕ) :
    encSection (s ++ [x]) = encSection s ++ encode (x - s.getLast?.getD 0) := by
  cases s with
  | nil => exact absurd rfl hs
  | cons y ys =>
    rw [cons_append, encSection, encSection, deltas_append, append_assoc, getLast?_cons]
    rfl

@[simp] theorem encSections_append (ss ss' : List (List ℕ)) :
    encSections (ss ++ ss') = encSections ss ++ encSections ss' := by
  simp [encSections]

@[simp] theorem encSections_singleton (s : List ℕ) : encSections [s] = encSection s := by
  simp [encSections]

variable (ss : List (List ℕ))

theorem starts_append (s : List ℕ) :
    starts (ss ++ [s]) = starts ss ++ [(encSections ss).length] := by
  rw [starts, length_append, length_singleton, range_succ, map_append]
  congr 1
  · refine map_congr_left fun i hi => ?_
    rw [take_append_of_le_length (mem_range.mp hi).le]
  · simp

@[simp] theorem starts_length : (starts ss).length = ss.length := by
  simp [starts]

theorem encSection_length_le (s : List ℕ) : (encSection s).length ≤ 10 * s.length := by
  induction s using List.reverseRecOn with
  | nil => simp [encSection]
  | append_singleton s x ih =>
    by_cases hs : s = []
    · subst hs
      simpa [encSection, deltas] using encode_length_le x
    · rw [encSection_append hs, length_append, length_append, length_singleton]
      have := encode_length_le (x - s.getLast?.getD 0)
      omega

theorem encSections_length_le : (encSections ss).length ≤ 10 * ss.flatten.length := by
  induction ss with
  | nil => simp [encSections]
  | cons s ss ih =>
    have hs := encSection_length_le s
    rw [encSections, flatMap_cons, length_append, flatten_cons, length_append]
    rw [encSections] at ih
    omega

theorem encSection_length_pos (hs : s ≠ []) : 0 < (encSection s).length := by
  cases s with
  | nil => exact absurd rfl hs
  | cons x xs =>
    rw [encSection, length_append]
    have := encode_length_pos x
    omega

theorem restartLen_pos : 0 < indexBlockRestartLen := by decide

theorem getLast?_live {cap : ℕ} {init : List (List ℕ)} {live : List ℕ} (hcut : Cut cap init live)
    (hflat : (init ++ [live]).flatten = xs) : live.getLast?.getD 0 = xs.getLast?.getD 0 := by
  have hne : live ≠ [] := length_pos_iff.mp hcut.pos
  rw [← hflat, flatten_append, flatten_singleton, getLast?_append_of_ne_nil _ hne]

section Writer

variable {id x : ℕ} {xs : List ℕ}

theorem block_data_length (hlen : xs.length ≤ indexBlockEntriesCap) :
    (encSections (sections xs)).length ≤ 40960 := by
  have h := encSections_length_le (sections xs)
  rw [flatten_chunks restartLen_pos] at h
  simp only [indexBlockEntriesCap] at hlen
  omega

theorem block_restarts_length (hlen : xs.length ≤ indexBlockEntriesCap) :
    (sections xs).length ≤ 16 := by
  rcases chunks_cases restartLen_pos xs with ⟨-, hnil⟩ | ⟨init, last, heq, hcut, hflat⟩
  · rw [sections, hnil]
    exact Nat.zero_le _
  · have h := hcut.length_eq
    rw [hflat] at h
    have hpos := hcut.pos
    rw [sections, heq, length_append, length_singleton]
    simp only [indexBlockEntriesCap, indexBlockRestartLen] at hlen h
    omega

theorem append_blockOf (hx : xs.getLast?.getD 0 < x) (hlen : xs.length < indexBlockEntriesCap) :
    (blockOf id xs).append x = .ok (blockOf id (xs ++ [x])) := by
  have hx0 : x ≠ 0 := by omega
  have hdata := block_data_length hlen.le
  have hentries : (xs.length + 1) % 2 ^ 16 = (xs ++ [x]).length := by
    rw [length_append, length_singleton, Nat.mod_eq_of_lt]
    simp only [indexBlockEntriesCap] at hlen
    omega
  have hmax : (xs ++ [x]).getLast?.getD 0 = x := by simp
  rw [BlockWriter.append, if_neg hx0, if_neg (by simpa [blockOf] using hx)]
  by_cases hmod : xs.length % indexBlockRestartLen = 0
  · rw [if_pos (show (blockOf id xs).desc.entries % indexBlockRestartLen = 0 from hmod)]
    simp only [blockOf, sections] at hdata ⊢
    have hoffset : (encSections (chunks indexBlockRestartLen xs)).length % 2 ^ 16 =
        (encSections (chunks indexBlockRestartLen xs)).length := Nat.mod_eq_of_lt (by omega)
    rw [hentries, hmax, hoffset, chunks_append_full restartLen_pos hmod, starts_append,
      encSections_append, encSections_singleton]
    simp [encSection, deltas]
  · rw [if_neg (show ¬ (blockOf id xs).desc.entries % indexBlockRestartLen = 0 from hmod)]
    simp only [blockOf, sections]
    obtain ⟨init, last, heq, hcut, -, hflat, -, hafter⟩ :=
      chunks_append_room (x := x) restartLen_pos hmod
    have hlast : last ≠ [] := length_pos_iff.mp hcut.pos
    rw [hentries, hmax, hafter, heq, starts_append, starts_append, encSections_append,
      encSections_append, encSections_singleton, encSections_singleton, encSection_append hlast,
      getLast?_live hcut hflat, append_assoc]

end Writer

/-! ## Parsing what was written -/

section Parse

variable {data : Bytes} {rs : List ℕ}

theorem parseRestarts_eq (hsorted : rs.Pairwise (· < ·)) (hlt : ∀ r ∈ rs, r < data.length)
    (hdata : data.length ≤ 2 ^ 16) (tail : Bytes) {n : ℕ} (hn : n ≤ rs.length) :
    parseRestarts (data ++ (rs.flatMap (putBig 2) ++ tail)) data.length n = .ok (rs.take n) := by
  induction n with
  | zero => rfl
  | succ n ih =>
    have hn' : n < rs.length := hn
    have hr : rs[n] < data.length := hlt _ (getElem_mem hn')
    have hnext : getBig (slice (data ++ (rs.flatMap (putBig 2) ++ tail))
        (data.length + 2 * n) (data.length + 2 * n + 2)) = rs[n] := by
      have hlen := flatMap_length (f := putBig 2) (fun r => putBig_length 2 r) rs
      have hstop : 2 * n + 2 ≤ (rs.flatMap (putBig 2)).length := by omega
      rw [slice_append_right _ _ (by omega), Nat.add_sub_cancel_left,
        show data.length + 2 * n + 2 - data.length = 2 * n + 2 by omega,
        slice_append_left _ _ hstop]
      have hblock := slice_flatMap (f := putBig 2) (fun r => putBig_length 2 r) rs n hn'
      rw [show n * 2 = 2 * n by omega, show (n + 1) * 2 = 2 * n + 2 by omega] at hblock
      rw [hblock, getBig_putBig]
      omega
    have htake : rs.take (n + 1) = rs.take n ++ [rs[n]] := (take_concat_get' rs n hn').symm
    rw [parseRestarts, ih hn'.le]
    simp only [hnext, htake]
    cases hprev : (rs.take n).getLast? with
    | none => rw [if_neg (Nat.not_le.mpr hr)]
    | some prev =>
      obtain ⟨i, hi, rfl⟩ := mem_iff_getElem.mp (mem_of_getLast? hprev)
      have hin : i < n := by
        rw [length_take] at hi
        omega
      have hless : (rs.take n)[i] < rs[n] := by
        rw [getElem_take]
        exact pairwise_iff_getElem.mp hsorted i n (by omega) hn' hin
      simp only
      rw [if_neg (Nat.not_le.mpr hless), if_neg (Nat.not_le.mpr hr)]

theorem parse_blob (hpos : 0 < rs.length) (hcount : rs.length < 256)
    (hsorted : rs.Pairwise (· < ·)) (hlt : ∀ r ∈ rs, r < data.length)
    (hdata : data.length ≤ 2 ^ 16) :
    parseIndexBlock (data ++ (rs.flatMap (putBig 2) ++ [ofNat rs.length])) = .ok (rs, data) := by
  have hbyte : (ofNat rs.length).toNat = rs.length := by
    simp [Nat.mod_eq_of_lt hcount]
  have hlen := flatMap_length (f := putBig 2) (fun r => putBig_length 2 r) rs
  have hblob : (data ++ (rs.flatMap (putBig 2) ++ [ofNat rs.length])).length =
      data.length + (rs.length * 2 + 1) := by
    simp only [length_append, hlen, length_singleton]
  have hlast : (data ++ (rs.flatMap (putBig 2) ++ [ofNat rs.length])).getLast? =
      some (ofNat rs.length) := by
    simp [getLast?_append]
  have hparse := parseRestarts_eq hsorted hlt hdata [ofNat rs.length] (Nat.le_refl _)
  unfold parseIndexBlock
  rw [hlast]
  simp only [hbyte, hblob]
  rw [if_neg (by omega), if_neg (by omega), Nat.add_sub_cancel, hparse]
  simp

end Parse

/-- Sections as they stand in a block. -/
structure Sections (ss : List (List ℕ)) : Prop where
  nonempty : ∀ s ∈ ss, s ≠ []
  ascending : Ascending ss.flatten

theorem sections_of_ascending (hxs : Ascending xs) : Sections (sections xs) := by
  refine ⟨?_, by rwa [flatten_chunks restartLen_pos]⟩
  intro s hs
  rcases chunks_cases restartLen_pos xs with ⟨-, hnil⟩ | ⟨init, last, heq, hcut, -⟩
  · rw [sections, hnil] at hs
    cases hs
  · rw [sections, heq] at hs
    rcases mem_append.mp hs with hs | hs
    · refine length_pos_iff.mp ?_
      rw [hcut.full s hs]
      exact restartLen_pos
    · rw [mem_singleton.mp hs]
      exact length_pos_iff.mp hcut.pos

section SectionFacts

variable {ss : List (List ℕ)}

theorem encSections_take_lt (hne : ∀ s ∈ ss, s ≠ []) {i j : ℕ} (hij : i < j) (hj : j ≤ ss.length) :
    (encSections (ss.take i)).length < (encSections (ss.take j)).length := by
  have hi : i < ss.length := by omega
  have hsplit : ss.take j = ss.take i ++ ss[i] :: (ss.take j).drop (i + 1) := by
    have h₁ : ss.take i = (ss.take j).take i := by rw [take_take, Nat.min_eq_left hij.le]
    have hi' : i < (ss.take j).length := by rw [length_take]; omega
    have h₂ : ss[i] = (ss.take j)[i] := by rw [getElem_take]
    rw [h₁, h₂, ← drop_eq_getElem_cons hi', take_append_drop]
  rw [hsplit, encSections_append, length_append]
  have hpos := encSection_length_pos (hne _ (getElem_mem hi))
  rw [show encSections (ss[i] :: (ss.take j).drop (i + 1)) =
    encSection ss[i] ++ encSections ((ss.take j).drop (i + 1)) from flatMap_cons ..,
    length_append]
  omega

theorem starts_sorted (hne : ∀ s ∈ ss, s ≠ []) : (starts ss).Pairwise (· < ·) := by
  rw [starts, pairwise_map]
  refine pairwise_lt_range.imp_of_mem ?_
  intro i j _ hj hij
  exact encSections_take_lt hne hij (mem_range.mp hj).le

theorem starts_lt (hne : ∀ s ∈ ss, s ≠ []) : ∀ r ∈ starts ss, r < (encSections ss).length := by
  intro r hr
  obtain ⟨i, hi, rfl⟩ := mem_map.mp hr
  have h := encSections_take_lt hne (mem_range.mp hi) (Nat.le_refl _)
  rwa [take_length] at h

theorem starts_getD {i : ℕ} (hi : i < ss.length) :
    (starts ss).getD i 0 = (encSections (ss.take i)).length := by
  rw [getD_eq_getElem _ _ (by rwa [starts_length])]
  simp [starts]

theorem encSections_drop (i : ℕ) :
    (encSections ss).drop (encSections (ss.take i)).length = encSections (ss.drop i) := by
  conv_lhs => rw [← take_append_drop i ss, encSections_append]
  have htake : (ss.take i ++ ss.drop i).take i = ss.take i := by rw [take_append_drop]
  rw [htake, drop_left]

end SectionFacts

variable {id : ℕ}

theorem parseIndexBlock_finish (h : IsBlock xs) : parseIndexBlock (blockOf id xs).finish =
      .ok (starts (sections xs), encSections (sections xs)) := by
  have hss := sections_of_ascending h.toAscending
  have hcount := block_restarts_length h.length_le
  have hdata := block_data_length h.length_le
  have hpos : 0 < (starts (sections xs)).length := by
    rw [starts_length]
    rcases chunks_cases restartLen_pos xs with ⟨hnil, -⟩ | ⟨init, last, heq, -⟩
    · exact absurd hnil h.nonempty
    · rw [sections, heq]
      simp
  have hbyte : (starts (sections xs)).length < 256 := by
    rw [starts_length]
    omega
  have hoffsets : (encSections (sections xs)).length ≤ 2 ^ 16 := by omega
  exact parse_blob hpos hbyte (starts_sorted hss.nonempty) (starts_lt hss.nonempty) hoffsets

/-! ## Scanning a section -/

/-- The values after the first one of a section, with their positions. -/
def trail (pos prev : ℕ) : List ℕ → List (ℕ × ℕ)
  | [] => []
  | y :: ys => (y, pos) :: trail (pos + (Varint.encode (y - prev)).length) y ys

theorem trail_values (pos prev : ℕ) (ys : List ℕ) : (trail pos prev ys).map Prod.fst = ys := by
  induction ys generalizing pos prev with
  | nil => rfl
  | cons y ys ih => rw [trail, map_cons, ih]

theorem trail_append (pos prev : ℕ) (ys : List ℕ) (x : ℕ) : trail pos prev (ys ++ [x]) =
      trail pos prev ys ++ [(x, pos + (deltas prev ys).length)] := by
  induction ys generalizing pos prev with
  | nil => simp [trail, deltas]
  | cons y ys ih =>
    rw [cons_append, trail, trail, ih, deltas, length_append, Nat.add_assoc]
    rfl

/-- The entries of a section that starts at `pos`. -/
def sectionEntries (pos : ℕ) : List ℕ → List (ℕ × ℕ)
  | [] => []
  | x :: xs => (x, pos) :: trail (pos + (Varint.encode x).length) x xs

theorem sectionEntries_values (pos : ℕ) (s : List ℕ) : (sectionEntries pos s).map Prod.fst = s := by
  cases s with
  | nil => rfl
  | cons x xs => rw [sectionEntries, map_cons, trail_values]

theorem sectionEntries_append (hs : s ≠ []) (pos x : ℕ) : sectionEntries pos (s ++ [x]) =
      sectionEntries pos s ++ [(x, pos + (encSection s).length)] := by
  cases s with
  | nil => exact absurd rfl hs
  | cons y ys =>
    rw [cons_append, sectionEntries, sectionEntries, trail_append, encSection,
      length_append, Nat.add_assoc]
    rfl

theorem scanFrom_trail {data post : Bytes} {start fuel pos prev : ℕ} {ys : List ℕ}
    (hys : Ascending (prev :: ys)) (hpos : start < pos)
    (hdrop : data.drop pos = deltas prev ys ++ post) (hfuel : ys.length ≤ fuel) :
    scanFrom data start (pos + (deltas prev ys).length) fuel pos prev = trail pos prev ys := by
  induction ys generalizing fuel pos prev with
  | nil =>
    cases fuel with
    | zero => rfl
    | succ fuel => simp [scanFrom, deltas, trail]
  | cons y ys ih =>
    obtain ⟨n, rfl⟩ : ∃ n, fuel = n + 1 := ⟨fuel - 1, by simp at hfuel; omega⟩
    have hlt : prev < y := (pairwise_cons.mp hys.sorted).1 y (by simp)
    have hy : y < 2 ^ 64 := hys.lt y (by simp)
    have henc := encode_length_pos (y - prev)
    rw [deltas, append_assoc] at hdrop
    have hread := uvarint_encode (n := y - prev) (by omega) (deltas y ys ++ post)
    have hvalue : (prev + (y - prev)) % 2 ^ 64 = y := by
      rw [Nat.add_sub_cancel' hlt.le, Nat.mod_eq_of_lt hy]
    have hnext : data.drop (pos + (encode (y - prev)).length) = deltas y ys ++ post := by
      rw [← drop_drop, hdrop, drop_left]
    rw [scanFrom, if_pos (by rw [deltas, length_append]; omega), hdrop, hread]
    simp only [if_neg (Nat.ne_of_gt hpos), hvalue, Int.toNat_natCast]
    rw [deltas, length_append, ← Nat.add_assoc, trail,
      ih (hys.sublist (sublist_cons_self prev (y :: ys))) (by omega) hnext
        (by simpa using hfuel)]

theorem scan_section {data : Bytes} {pos : ℕ} (hs : Ascending s) (post : Bytes)
    (hdrop : data.drop pos = encSection s ++ post) :
    scan data pos (pos + (encSection s).length) = sectionEntries pos s := by
  cases s with
  | nil =>
    rw [scan]
    cases data with
    | nil => rfl
    | cons b data => simp [scanFrom, encSection, sectionEntries]
  | cons x xs =>
    rw [encSection, append_assoc] at hdrop
    have henc := encode_length_pos x
    have hlen : (data.drop pos).length = data.length - pos := length_drop
    rw [hdrop, length_append, length_append] at hlen
    have hdeltas : xs.length ≤ (deltas x xs).length := by
      have hgen : ∀ (ys : List ℕ) (p : ℕ), ys.length ≤ (deltas p ys).length := by
        intro ys
        induction ys with
        | nil => simp
        | cons y ys ih =>
          intro p
          have := encode_length_pos (y - p)
          have := ih y
          rw [deltas, length_append, length_cons]
          omega
      exact hgen xs x
    obtain ⟨n, hn⟩ : ∃ n, data.length = n + 1 := ⟨data.length - 1, by omega⟩
    have hread := uvarint_encode (n := x) (hs.lt x (by simp)) (deltas x xs ++ post)
    have hnext : data.drop (pos + (encode x).length) = deltas x xs ++ post := by
      rw [← drop_drop, hdrop, drop_left]
    rw [scan, hn, scanFrom, if_pos (by rw [encSection, length_append]; omega), hdrop, hread]
    simp only [if_true, Int.toNat_natCast]
    rw [encSection, length_append, ← Nat.add_assoc, sectionEntries,
      scanFrom_trail hs (by omega) hnext (by omega)]

/-! ## Reading -/

/-- The least of ascending ids above `id`, which is the first one, or the largest number. -/
def leastAbove (xs : List ℕ) (id : ℕ) : ℕ := (xs.find? fun x => id < x).getD maxUint64

theorem find?_of_le {as bs : List ℕ} (h : ∀ x ∈ as, x ≤ id) :
    (as ++ bs).find? (fun x => id < x) = bs.find? fun x => id < x := by
  have hnone : as.find? (fun x => id < x) = none := by
    refine find?_eq_none.mpr fun x hx => ?_
    simpa using h x hx
  rw [find?_append, hnone, Option.none_or]

section Reader

variable {ss : List (List ℕ)} {id : ℕ}

theorem item_starts (hss : Sections ss) {i : ℕ} (hi : i < ss.length) :
    ∃ (x : ℕ) (xs : List ℕ) (n : ℕ), ss[i] = x :: xs ∧ 0 < n ∧
      BlockReader.item ⟨starts ss, encSections ss⟩ i = (x, (n : ℤ)) := by
  have hne := hss.nonempty _ (getElem_mem hi)
  obtain ⟨x, xs, hs⟩ := exists_cons_of_ne_nil hne
  have hx : x < 2 ^ 64 := by
    refine hss.ascending.lt x ?_
    exact mem_flatten.mpr ⟨ss[i], getElem_mem hi, by rw [hs]; simp⟩
  refine ⟨x, xs, _, hs, encode_length_pos x, ?_⟩
  rw [BlockReader.item, starts_getD hi, encSections_drop, drop_eq_getElem_cons hi, hs,
    encSections, flatMap_cons, encSection, append_assoc]
  exact uvarint_encode hx _

theorem lt_of_mem_take (hss : Sections ss) {i : ℕ} (hi : i < ss.length) {x y : ℕ} {xs : List ℕ}
    (hs : ss[i] = x :: xs) (hy : y ∈ (ss.take i).flatten) : y < x := by
  have hsorted := hss.ascending.sorted
  rw [← take_append_drop i ss, drop_eq_getElem_cons hi, hs, flatten_append] at hsorted
  exact (pairwise_append.mp hsorted).2.2 y hy x (by simp)

theorem item_mono (hss : Sections ss) {a b : ℕ} (hab : a ≤ b) (hb : b < ss.length)
    (ha : id < (BlockReader.item ⟨starts ss, encSections ss⟩ a).1) :
    id < (BlockReader.item ⟨starts ss, encSections ss⟩ b).1 := by
  obtain ⟨x, xs, n, hsa, -, hia⟩ := item_starts hss (Nat.lt_of_le_of_lt hab hb)
  obtain ⟨y, ys, m, hsb, -, hib⟩ := item_starts hss hb
  rw [hia] at ha
  rw [hib]
  rcases Nat.lt_or_eq_of_le hab with hlt | rfl
  · refine Nat.lt_trans ha (lt_of_mem_take hss hb hsb ?_)
    refine mem_flatten.mpr ⟨ss[a], ?_, by rw [hsa]; simp⟩
    exact mem_take_iff_getElem.mpr ⟨a, by omega, rfl⟩
  · rw [hsa] at hsb
    cases hsb
    exact ha

/-- Every restart that the search looks at can be decoded. -/
theorem probes_decode (hss : Sections ss) (f : ℕ → Bool) : ¬ ((probes ss.length f).any fun i =>
    decide ((BlockReader.item ⟨starts ss, encSections ss⟩ i).2 ≤ 0)) = true := by
  rw [any_eq_true]
  rintro ⟨i, hi, hbad⟩
  obtain ⟨x, xs, n, -, hn, hitem⟩ := item_starts hss (lt_of_mem_probes hi)
  rw [hitem, decide_eq_true_iff] at hbad
  simp only at hbad
  omega

/-- A restart with a larger value holds the least larger value from there on. -/
theorem find?_drop (hss : Sections ss) {i : ℕ} (hi : i < ss.length)
    (habove : id < (BlockReader.item ⟨starts ss, encSections ss⟩ i).1) :
    (ss.drop i).flatten.find? (fun x => id < x) =
      some (BlockReader.item ⟨starts ss, encSections ss⟩ i).1 := by
  obtain ⟨x, xs, n, hs, -, hitem⟩ := item_starts hss hi
  rw [hitem] at habove ⊢
  rw [drop_eq_getElem_cons hi, hs, flatten_cons, cons_append, find?_cons]
  simp [habove]

/-- What is read from a restart on, up to the next one or the end, is one section. -/
theorem scan_starts (hss : Sections ss) {k : ℕ} (hk : k < ss.length) :
    scan (encSections ss) ((starts ss).getD k 0)
        (if k + 1 = ss.length then (encSections ss).length else (starts ss).getD (k + 1) 0) =
      sectionEntries ((starts ss).getD k 0) ss[k] := by
  have htake : (encSections (ss.take (k + 1))).length =
      (encSections (ss.take k)).length + (encSection ss[k]).length := by
    rw [← take_concat_get' ss k hk, encSections_append, length_append, encSections_singleton]
  have hlimit : (if k + 1 = ss.length then (encSections ss).length
      else (starts ss).getD (k + 1) 0) =
      (encSections (ss.take k)).length + (encSection ss[k]).length := by
    split
    · rename_i hend
      rw [← htake, hend, take_length]
    · rw [← htake]
      exact starts_getD (by omega)
  rw [hlimit, starts_getD hk]
  refine scan_section (hss.ascending.sublist (sublist_flatten_of_mem (getElem_mem hk)))
    (encSections (ss.drop (k + 1))) ?_
  rw [encSections_drop, drop_eq_getElem_cons hk]
  rfl

/-- Behind a restart that is not above `id`, the least larger id is in its section or after it. -/
theorem leastAbove_flatten (hss : Sections ss) {k : ℕ} (hk : k < ss.length)
    (hbelow : (BlockReader.item ⟨starts ss, encSections ss⟩ k).1 ≤ id) :
    leastAbove ss.flatten id = ((ss[k].find? fun x => id < x).or
      ((ss.drop (k + 1)).flatten.find? fun x => id < x)).getD maxUint64 := by
  obtain ⟨x, xs, n, hs, -, hitem⟩ := item_starts hss hk
  rw [hitem] at hbelow
  have hsplit : ss.flatten = (ss.take k).flatten ++ (ss[k] ++ (ss.drop (k + 1)).flatten) := by
    conv_lhs => rw [← take_append_drop k ss, drop_eq_getElem_cons hk, flatten_append, flatten_cons]
  rw [leastAbove, hsplit, find?_of_le, find?_append]
  intro y hy
  exact (Nat.lt_of_lt_of_le (lt_of_mem_take hss hk hs hy) hbelow).le

theorem readGreaterThan_sections (hss : Sections ss) (hne : ss ≠ []) (id : ℕ) :
    BlockReader.readGreaterThan ⟨starts ss, encSections ss⟩ id =
      .ok (leastAbove ss.flatten id) := by
  set br : BlockReader := ⟨starts ss, encSections ss⟩ with hbr
  have hlen : br.restarts.length = ss.length := starts_length ss
  have hmono : ∀ a b, a ≤ b → b < ss.length →
      decide (id < (br.item a).1) = true → decide (id < (br.item b).1) = true := by
    simp only [decide_eq_true_iff]
    exact fun a b => item_mono hss
  obtain ⟨hle, hfalse, htrue⟩ := search_spec hmono
  have hdecode : ¬ ((probes ss.length fun i => decide (id < (br.item i).1)).any fun i =>
      decide ((br.item i).2 ≤ 0)) = true := probes_decode hss _
  unfold BlockReader.readGreaterThan
  rw [hlen]
  simp only [if_neg hdecode]
  generalize hidx : search ss.length (fun i => decide (id < (br.item i).1)) = index at *
  have hhead (h : index < ss.length) : (ss.drop index).flatten.find? (fun x => id < x) =
      some (br.item index).1 := find?_drop hss h (of_decide_eq_true (htrue h))
  cases index with
  | zero =>
    rw [if_pos rfl, leastAbove, ← drop_zero (l := ss), hhead (length_pos_iff.mpr hne)]
    rfl
  | succ k =>
    have hk : k < ss.length := by omega
    have hbelow : (br.item k).1 ≤ id :=
      Nat.not_lt.mp (of_decide_eq_false (hfalse k (Nat.lt_succ_self k)))
    rw [if_neg (Nat.succ_ne_zero k), Nat.add_sub_cancel, leastAbove_flatten hss hk hbelow,
      show scan br.data (br.restarts.getD k 0) _ = _ from scan_starts hss hk]
    have hvalues := congrArg (List.find? fun x => decide (id < x))
      (sectionEntries_values (br.restarts.getD k 0) ss[k])
    rw [find?_map] at hvalues
    rw [← hvalues]
    change _ = Except.ok ((Option.or (Option.map Prod.fst (List.find?
      (fun entry : ℕ × ℕ => decide (id < entry.1)) _)) _).getD maxUint64)
    cases List.find? (fun entry : ℕ × ℕ => decide (id < entry.1))
        (sectionEntries (br.restarts.getD k 0) ss[k]) with
    | some entry => rfl
    | none =>
      by_cases hend : k + 1 = ss.length
      · rw [hend, drop_length]
        simp
      · rw [hhead (by omega)]
        simp [hend]

end Reader

theorem readGreaterThan_blockOf (h : IsBlock xs) (id : ℕ) :
    BlockReader.readGreaterThan ⟨starts (sections xs), encSections (sections xs)⟩ id =
      .ok (leastAbove xs id) := by
  rw [readGreaterThan_sections (sections_of_ascending h.toAscending)
    (chunks_ne_nil restartLen_pos h.nonempty), flatten_chunks restartLen_pos]

/-! ## Popping -/

theorem lastSection_starts {init : List (List ℕ)} {last : List ℕ} (hlast : Ascending last) :
    BlockWriter.lastSection (starts (init ++ [last])) (encSections (init ++ [last])) =
      sectionEntries (encSections init).length last := by
  rw [BlockWriter.lastSection, starts_append, getLast?_concat, Option.getD_some]
  have hlen : (encSections (init ++ [last])).length =
      (encSections init).length + (encSection last).length := by
    rw [encSections_append, length_append, encSections_singleton]
  rw [hlen]
  refine scan_section hlast [] ?_
  rw [encSections_append, drop_left, encSections_singleton, append_nil]

theorem sectionLast_entries (pos : ℕ) (s : List ℕ) :
    BlockWriter.sectionLast (sectionEntries pos s) = s.getLast?.getD 0 := by
  rw [BlockWriter.sectionLast, ← getLast?_map, sectionEntries_values]

theorem sectionSearch_append {x p : ℕ} {entries : List (ℕ × ℕ)} (prev : ℕ)
    (hne : ∀ e ∈ entries, e.1 ≠ x) : BlockWriter.sectionSearch x prev (entries ++ [(x, p)]) =
      (true, (entries.getLast?.map Prod.fst).getD prev, p) := by
  induction entries generalizing prev with
  | nil => simp [BlockWriter.sectionSearch]
  | cons e entries ih =>
    obtain ⟨v, q⟩ := e
    have hv : x ≠ v := Ne.symm (hne (v, q) (by simp))
    rw [cons_append, BlockWriter.sectionSearch, if_neg hv,
      ih v fun e he => hne e (mem_cons_of_mem _ he), getLast?_cons]
    cases entries.getLast? <;> rfl

theorem pop_blockOf {x : ℕ} (hxs : Ascending (xs ++ [x])) :
    (blockOf id (xs ++ [x])).pop x = .ok (blockOf id xs) := by
  have hx0 : x ≠ 0 := Nat.ne_of_gt (hxs.pos x (by simp))
  have hmax : (blockOf id (xs ++ [x])).desc.max = x := by simp [blockOf]
  have hentries : (blockOf id (xs ++ [x])).desc.entries = xs.length + 1 := by simp [blockOf]
  have hasc : Ascending xs := hxs.left
  unfold BlockWriter.pop
  rw [if_neg hx0, if_neg (by simp [hmax]), hentries]
  by_cases hnil : xs = []
  · subst hnil
    exact if_pos (Nat.zero_add 1)
  · have hlen : xs.length ≠ 0 := fun h => hnil (length_eq_zero_iff.mp h)
    rw [if_neg (by omega), Nat.add_sub_cancel]
    by_cases hmod : xs.length % indexBlockRestartLen = 0
    · -- the popped id was the first of its section
      have hone : (xs.length + 1) % indexBlockRestartLen = 1 := by
        simp only [indexBlockRestartLen] at hmod ⊢
        omega
      rw [if_pos hone]
      have hsections : sections (xs ++ [x]) = sections xs ++ [[x]] :=
        chunks_append_full restartLen_pos hmod
      have hdata : (blockOf id (xs ++ [x])).data.take
          ((blockOf id (xs ++ [x])).restarts.getLast?.getD 0) = encSections (sections xs) := by
        simp only [blockOf, hsections, starts_append, getLast?_concat, Option.getD_some,
          encSections_append, take_left]
      have hrestarts : (blockOf id (xs ++ [x])).restarts.dropLast = starts (sections xs) := by
        simp only [blockOf, hsections, starts_append, dropLast_concat]
      rcases chunks_cases restartLen_pos xs with ⟨h, -⟩ | ⟨init, last, heq, hcut, hflat⟩
      · exact absurd h hnil
      · have hlastAsc : Ascending last := by
          refine hasc.sublist ?_
          rw [← hflat, flatten_append]
          simp
        have hlast : BlockWriter.sectionLast (BlockWriter.lastSection (starts (sections xs))
            (encSections (sections xs))) = xs.getLast?.getD 0 := by
          rw [sections, heq, lastSection_starts hlastAsc, sectionLast_entries,
            getLast?_live hcut hflat]
        simp only [hdata, hrestarts, hlast]
        rfl
    · have hone : (xs.length + 1) % indexBlockRestartLen ≠ 1 := by
        simp only [indexBlockRestartLen] at hmod ⊢
        omega
      rw [if_neg hone]
      obtain ⟨init, last, heq, hcut, -, hflat, -, hafter⟩ :=
        chunks_append_room (x := x) restartLen_pos hmod
      have hlastNe : last ≠ [] := length_pos_iff.mp hcut.pos
      have hlastAsc : Ascending (last ++ [x]) := by
        refine hxs.sublist ?_
        rw [← hflat, flatten_append]
        simp
      have hsections : sections (xs ++ [x]) = init ++ [last ++ [x]] := hafter
      have hbefore : sections xs = init ++ [last] := heq
      have hscan : BlockWriter.lastSection (blockOf id (xs ++ [x])).restarts
          (blockOf id (xs ++ [x])).data = sectionEntries (encSections init).length last ++
            [(x, (encSections init).length + (encSection last).length)] := by
        simp only [blockOf, hsections]
        rw [lastSection_starts hlastAsc, sectionEntries_append hlastNe]
      have hbelow : ∀ e ∈ sectionEntries (encSections init).length last, e.1 ≠ x := by
        intro e he
        have hmem : e.1 ∈ last := by
          rw [← sectionEntries_values (encSections init).length last]
          exact mem_map_of_mem he
        exact Nat.ne_of_lt ((pairwise_append.mp hlastAsc.sorted).2.2 _ hmem x (by simp))
      rw [hscan, sectionSearch_append 0 hbelow]
      have hprev : ((sectionEntries (encSections init).length last).getLast?.map Prod.fst).getD 0 =
          xs.getLast?.getD 0 := by
        rw [← getLast?_map, sectionEntries_values, getLast?_live hcut hflat]
      have htake : (blockOf id (xs ++ [x])).data.take
          ((encSections init).length + (encSection last).length) = encSections (sections xs) := by
        simp only [blockOf, hsections, hbefore, encSections_append, encSections_singleton,
          encSection_append hlastNe]
        rw [← append_assoc, ← length_append, take_left]
      have hrestarts : (blockOf id (xs ++ [x])).restarts = starts (sections xs) := by
        simp only [blockOf, hsections, hbefore, starts_append]
      simp only [hprev, htake, hrestarts]
      rfl

end ChilizChain.PathDb
