import ChilizChain.Parlia.Header

/-! The log index: which row and which column of a filter map a log value is marked at, and how the
positions are found again in the rows of one value.

The hash functions are parameters; nothing is assumed about what they return. -/

namespace ChilizChain.FilterMaps

open List Nat

structure Params where
  logMapHeight : ℕ
  logMapWidth : ℕ
  logMapsPerEpoch : ℕ
  logValuesPerMap : ℕ
  baseRowLengthRatio : ℕ
  logLayerDiff : ℕ

def DefaultParams : Params where
  logMapHeight := 16
  logMapWidth := 24
  logMapsPerEpoch := 10
  logValuesPerMap := 16
  baseRowLengthRatio := 8
  logLayerDiff := 4

/-- The first four bytes of the SHA-256 hash of a value, a masked map index and a layer, and the
64-bit FNV hash of a position and a value. -/
structure Hashes where
  row : Hash → ℕ → ℕ → UInt32
  column : ℕ → Hash → UInt64

/-- The column indices of one row, in the order in which they were added. -/
abbrev FilterRow := List ℕ

/-- The rows of a map. -/
abbrev FilterMap := ℕ → FilterRow

namespace Params

variable (p : Params) (hs : Hashes)

def mapHeight : ℕ := 2 ^ p.logMapHeight % 2 ^ 32

def valuesPerMap : ℕ := 2 ^ p.logValuesPerMap % 2 ^ 64

def baseRowLength : ℕ := (p.valuesPerMap * p.baseRowLengthRatio % 2 ^ 64 / p.mapHeight) % 2 ^ 32

/-- The logarithm of how much longer than the base row the rows of a layer may get. -/
def layerGrowth (layerIndex : ℕ) : ℕ := min (layerIndex * p.logLayerDiff) p.logMapsPerEpoch

def maxRowLength (layerIndex : ℕ) : ℕ := p.baseRowLength <<< p.layerGrowth layerIndex % 2 ^ 32

def maskedMapIndex (mapIndex layerIndex : ℕ) : ℕ :=
  mapIndex &&& ((2 ^ 32 - 1) <<< (p.logMapsPerEpoch - p.layerGrowth layerIndex) % 2 ^ 32)

def rowIndex (mapIndex layerIndex : ℕ) (logValue : Hash) : ℕ :=
  (hs.row logValue (p.maskedMapIndex mapIndex layerIndex) layerIndex).toNat % p.mapHeight

def hashBits : ℕ := p.logMapWidth - p.logValuesPerMap

def columnIndex (lvIndex : ℕ) (logValue : Hash) : ℕ :=
  let hash := (hs.column lvIndex logValue).toNat
  ((lvIndex % p.valuesPerMap) <<< p.hashBits % 2 ^ 32 +
    ((hash >>> (64 - p.hashBits) % 2 ^ 32) ^^^ ((hash % 2 ^ 32) >>> (32 - p.hashBits)))) % 2 ^ 32

/-- The first position of a map. -/
def mapFirst (mapIndex : ℕ) : ℕ := mapIndex <<< p.logValuesPerMap % 2 ^ 64

/-- The positions that the entries of a row stand for, if they are marks of the value. -/
def rowMatches (mapIndex : ℕ) (logValue : Hash) (row : FilterRow) : List ℕ :=
  row.filterMap fun column =>
    let potentialMatch := (p.mapFirst mapIndex + column >>> p.hashBits) % 2 ^ 64
    if column = p.columnIndex hs potentialMatch logValue then some potentialMatch else none

/-- The matches of the rows from layer `layerIndex` on; `none` where all of them are full. -/
def collectMatches (mapIndex : ℕ) (logValue : Hash) : ℕ → List FilterRow → Option (List ℕ)
  | _, [] => some []
  | layerIndex, row :: rows =>
    let maxLen := p.maxRowLength layerIndex
    -- additional entries are generated by other log values on a higher layer
    let found := p.rowMatches hs mapIndex logValue (row.take maxLen)
    if min row.length maxLen < maxLen then some found
    else if rows = [] then none
    else (collectMatches mapIndex logValue (layerIndex + 1) rows).map (found ++ ·)

end Params

/-- Drop what is equal to the element before. -/
def dropRepeated : List ℕ → List ℕ
  | [] => []
  | x :: xs =>
    match dropRepeated xs with
    | [] => [x]
    | y :: ys => if x = y then y :: ys else x :: y :: ys

/-- `none` is the panic for an insufficient list of rows. -/
def Params.potentialMatches (p : Params) (hs : Hashes) (rows : List FilterRow) (mapIndex : ℕ)
    (logValue : Hash) : Option (List ℕ) :=
  (p.collectMatches hs mapIndex logValue 0 rows).map fun results =>
    dropRepeated (results.insertionSort (· ≤ ·))

/-! ## Sorted matches -/

theorem mem_dropRepeated {xs : List ℕ} {x : ℕ} : x ∈ dropRepeated xs ↔ x ∈ xs := by
  induction xs with
  | nil => rfl
  | cons y ys ih =>
    rw [dropRepeated, mem_cons, ← ih]
    split
    · rename_i hnil
      simp [hnil]
    · rename_i z zs hcons
      rw [hcons]
      split
      · rename_i heq
        simp [heq]
      · rw [mem_cons]

theorem dropRepeated_ascending {xs : List ℕ} (h : xs.Pairwise (· ≤ ·)) :
    (dropRepeated xs).Pairwise (· < ·) := by
  induction xs with
  | nil => exact List.Pairwise.nil
  | cons y ys ih =>
    obtain ⟨hy, hys⟩ := pairwise_cons.mp h
    have htail := ih hys
    rw [dropRepeated]
    split
    · exact pairwise_singleton _ _
    · rename_i z zs hcons
      rw [hcons] at htail
      split
      · exact htail
      · rename_i hne
        refine pairwise_cons.mpr ⟨fun w hw => ?_, htail⟩
        -- the head is below the first one that is kept, and that one below the others
        have hz : z ∈ ys := mem_dropRepeated.mp (by rw [hcons]; simp)
        have hlt : y < z := lt_of_le_of_ne (hy z hz) hne
        rcases mem_cons.mp hw with rfl | hw
        · exact hlt
        · exact hlt.trans ((pairwise_cons.mp htail).1 w hw)

/-! ## Columns -/

namespace Params

/-- The column indices of a map fit in 32 bits. -/
structure Valid (p : Params) : Prop where
  values_le_width : p.logValuesPerMap ≤ p.logMapWidth
  width_le : p.logMapWidth ≤ 32

theorem defaultParams_valid : DefaultParams.Valid := ⟨by decide, by decide⟩

variable {p : Params} {hs : Hashes}

theorem Valid.valuesPerMap_eq (hp : p.Valid) : p.valuesPerMap = 2 ^ p.logValuesPerMap := by
  have hle : p.logValuesPerMap ≤ 32 := hp.values_le_width.trans hp.width_le
  exact Nat.mod_eq_of_lt (Nat.pow_lt_pow_right (by decide) (by omega))

theorem Valid.mapFirst_eq (hp : p.Valid) {mi : ℕ} (hm : mi < 2 ^ 32) :
    p.mapFirst mi = mi * 2 ^ p.logValuesPerMap ∧ p.mapFirst mi + p.valuesPerMap ≤ 2 ^ 64 := by
  have hle : p.logValuesPerMap ≤ 32 := hp.values_le_width.trans hp.width_le
  have hpow : 2 ^ p.logValuesPerMap ≤ 2 ^ 32 := Nat.pow_le_pow_right (by decide) hle
  have hbound : (mi + 1) * 2 ^ p.logValuesPerMap ≤ 2 ^ 32 * 2 ^ 32 :=
    Nat.mul_le_mul hm hpow
  have hpos : 0 < 2 ^ p.logValuesPerMap := Nat.two_pow_pos _
  rw [Nat.succ_mul] at hbound
  have heq : p.mapFirst mi = mi * 2 ^ p.logValuesPerMap := by
    rw [mapFirst, shiftLeft_eq, Nat.mod_eq_of_lt (by omega)]
  rw [heq, hp.valuesPerMap_eq]
  exact ⟨rfl, by omega⟩

theorem Valid.columnIndex_shift (hp : p.Valid) (lvIndex : ℕ) (v : Hash) :
    p.columnIndex hs lvIndex v >>> p.hashBits = lvIndex % p.valuesPerMap := by
  have hbits : p.hashBits ≤ 32 := (sub_le _ _).trans hp.width_le
  have hsplit : p.logValuesPerMap + p.hashBits = p.logMapWidth :=
    Nat.add_sub_cancel' hp.values_le_width
  have hpos : lvIndex % p.valuesPerMap < 2 ^ p.logValuesPerMap := by
    rw [hp.valuesPerMap_eq]
    exact Nat.mod_lt _ (Nat.two_pow_pos _)
  have hmul : (lvIndex % p.valuesPerMap + 1) * 2 ^ p.hashBits ≤ 2 ^ 32 := by
    calc (lvIndex % p.valuesPerMap + 1) * 2 ^ p.hashBits
        ≤ 2 ^ p.logValuesPerMap * 2 ^ p.hashBits := mul_le_mul_right _ hpos
      _ = 2 ^ p.logMapWidth := by rw [← pow_add, hsplit]
      _ ≤ 2 ^ 32 := Nat.pow_le_pow_right (by decide) hp.width_le
  have hbitpos : 0 < 2 ^ p.hashBits := Nat.two_pow_pos _
  rw [columnIndex]
  set hash := (hs.column lvIndex v).toNat with hhash
  have hhi : hash >>> (64 - p.hashBits) % 2 ^ 32 < 2 ^ p.hashBits := by
    refine lt_of_le_of_lt (Nat.mod_le _ _) ?_
    rw [Nat.shiftRight_eq_div_pow, Nat.div_lt_iff_lt_mul (Nat.two_pow_pos _), ← pow_add,
      Nat.add_sub_cancel' (by omega)]
    exact UInt64.toNat_lt _
  have hlo : (hash % 2 ^ 32) >>> (32 - p.hashBits) < 2 ^ p.hashBits := by
    rw [Nat.shiftRight_eq_div_pow, Nat.div_lt_iff_lt_mul (Nat.two_pow_pos _), ← pow_add,
      Nat.add_sub_cancel' hbits]
    exact Nat.mod_lt _ (by decide)
  have hxor := xor_lt_two_pow hhi hlo
  rw [Nat.succ_mul] at hmul
  rw [shiftLeft_eq, Nat.mod_eq_of_lt (show lvIndex % p.valuesPerMap * 2 ^ p.hashBits < 2 ^ 32 by
    omega), Nat.mod_eq_of_lt (by omega), Nat.shiftRight_eq_div_pow, add_comm,
    add_mul_div_right _ _ hbitpos, div_eq_of_lt hxor, zero_add]

/-! ## What is found in the rows of a value -/

theorem mem_rowMatches {mi x : ℕ} {v : Hash} {row : FilterRow} : x ∈ p.rowMatches hs mi v row ↔
      ∃ column ∈ row, column = p.columnIndex hs x v ∧
        x = (p.mapFirst mi + column >>> p.hashBits) % 2 ^ 64 := by
  simp only [rowMatches, mem_filterMap, Option.ite_none_right_eq_some, Option.some.injEq]
  constructor
  · rintro ⟨column, hmem, hcolumn, rfl⟩
    exact ⟨column, hmem, hcolumn, rfl⟩
  · rintro ⟨column, hmem, hcolumn, hx⟩
    exact ⟨column, hmem, by rwa [← hx], hx.symm⟩

/-- All rows but the last are full, so each of them is searched. -/
theorem mem_collectMatches (hs : Hashes) (mi : ℕ) (v : Hash) {li : ℕ}
    {rows : List FilterRow} {last : FilterRow}
    (hfull : ∀ i row, rows[i]? = some row → p.maxRowLength (li + i) ≤ row.length)
    (hlast : last.length < p.maxRowLength (li + rows.length)) : ∃ results,
      p.collectMatches hs mi v li (rows ++ [last]) = some results ∧
      ∀ x, x ∈ results ↔ ∃ (i : ℕ) (row : FilterRow), (rows ++ [last])[i]? = some row ∧
        x ∈ p.rowMatches hs mi v (row.take (p.maxRowLength (li + i))) := by
  induction rows generalizing li with
  | nil =>
    rw [length_nil, add_zero] at hlast
    refine ⟨_, by rw [nil_append, collectMatches, if_pos (by omega)], fun x => ?_⟩
    constructor
    · intro hx
      exact ⟨0, last, rfl, hx⟩
    · rintro ⟨i, row, hrow, hx⟩
      obtain ⟨rfl, rfl⟩ : i = 0 ∧ last = row := by
        rw [nil_append, getElem?_singleton] at hrow
        split at hrow
        · exact ⟨‹_›, Option.some.inj hrow⟩
        · cases hrow
      exact hx
  | cons row rows ih =>
    have hrow := hfull 0 row rfl
    have hlayer (i : ℕ) : li + 1 + i = li + (i + 1) := by omega
    have htail : ∀ i row', rows[i]? = some row' →
        p.maxRowLength (li + 1 + i) ≤ row'.length := by
      intro i row' hrow'
      rw [hlayer]
      exact hfull (i + 1) row' hrow'
    obtain ⟨results, heq, hmem⟩ := ih htail (by rwa [hlayer])
    rw [add_zero] at hrow
    have hcons : p.collectMatches hs mi v li (row :: rows ++ [last]) =
        some (p.rowMatches hs mi v (row.take (p.maxRowLength li)) ++
          results) := by
      rw [cons_append, collectMatches, if_neg (by omega), if_neg (by simp), heq, Option.map_some]
    refine ⟨_, hcons, fun x => ?_⟩
    rw [mem_append, hmem]
    constructor
    · rintro (hx | ⟨i, row', hrow', hx⟩)
      · exact ⟨0, row, rfl, hx⟩
      · exact ⟨i + 1, row', hrow', by rwa [← hlayer]⟩
    · rintro ⟨i, row', hrow', hx⟩
      cases i with
      | zero =>
        cases hrow'
        exact .inl hx
      | succ i => exact .inr ⟨i, row', hrow', by rwa [hlayer]⟩

theorem mem_potentialMatches (hs : Hashes) (mi : ℕ) (v : Hash)
    {rows : List FilterRow} {last : FilterRow}
    (hfull : ∀ i row, rows[i]? = some row → p.maxRowLength i ≤ row.length)
    (hlast : last.length < p.maxRowLength rows.length) :
    ∃ found, p.potentialMatches hs (rows ++ [last]) mi v = some found ∧ found.Pairwise (· < ·) ∧
      ∀ x, x ∈ found ↔ ∃ (i : ℕ) (row : FilterRow), (rows ++ [last])[i]? = some row ∧
        ∃ column ∈ row.take (p.maxRowLength i), column = p.columnIndex hs x v ∧
          x = (p.mapFirst mi + column >>> p.hashBits) % 2 ^ 64 := by
  have hfull' : ∀ i row, rows[i]? = some row → p.maxRowLength (0 + i) ≤ row.length := by
    intro i row hrow
    rw [zero_add]
    exact hfull i row hrow
  have hlast' : last.length < p.maxRowLength (0 + rows.length) := by rwa [zero_add]
  obtain ⟨results, heq, hmem⟩ := mem_collectMatches hs mi v hfull' hlast'
  refine ⟨_, by rw [potentialMatches, heq]; rfl,
    dropRepeated_ascending (pairwise_insertionSort _ _), fun x => ?_⟩
  simp only [mem_dropRepeated, mem_insertionSort, hmem, zero_add, mem_rowMatches]

end Params

end ChilizChain.FilterMaps
