import ChilizChain.FilterMaps.Renderer

/-! The matcher of a single log value.

It reads the rows of the value layer by layer, for all maps at once, and is done with a map at the
first row that is not full. All marks of the value stand in the rows read until then. -/

namespace ChilizChain.FilterMaps

open List Nat Function FilterMaps.Params

/-! ## Rows in the database -/

/-- A row is stored in two parts, so that the base row can be read alone. -/
structure StoredRow where
  base : FilterRow
  ext : FilterRow

def storeFilterMapRow (p : Params) (row : FilterRow) : StoredRow :=
  if p.baseRowLength < row.length % 2 ^ 32 then
    ⟨row.take p.baseRowLength, row.drop p.baseRowLength⟩
  else ⟨row, []⟩

def getFilterMapRow (stored : StoredRow) (baseLayerOnly : Bool) : FilterRow :=
  if baseLayerOnly then stored.base else stored.base ++ stored.ext

/-! ## The matcher -/

structure SingleMatcherInstance where
  mapIndices : List ℕ
  filterRows : ℕ → Option (List FilterRow)

def newInstance (mapIndices : List ℕ) : SingleMatcherInstance :=
  ⟨mapIndices, fun mapIndex => if mapIndex ∈ mapIndices then some [] else none⟩

/-- What a layer changes: the rows that were read, and the results so far. -/
structure LayerState where
  filterRows : ℕ → Option (List FilterRow)
  results : List (ℕ × List ℕ)

section Matching

variable (p : Params) (hs : Hashes) (maps : ℕ → FilterMap) (value : Hash)

/-- The row of a map as the backend returns it on a layer. -/
def fetchRow (layerIndex rowIndex mapIndex : ℕ) : FilterRow :=
  getFilterMapRow (storeFilterMapRow p (maps mapIndex rowIndex)) (layerIndex == 0)

/-- `none` is a panic. -/
def matchMap (layerIndex rowIndex mapIndex : ℕ) (state : LayerState) : Option LayerState :=
  match state.filterRows mapIndex with
  | none => none
  | some filterRows =>
    let filterRow := fetchRow p maps layerIndex rowIndex mapIndex
    let filterRows := filterRows ++ [filterRow]
    if filterRow.length % 2 ^ 32 < p.maxRowLength layerIndex then
      match p.potentialMatches hs filterRows mapIndex value with
      | none => none
      | some found => some ⟨Function.update state.filterRows mapIndex none,
          state.results ++ [(mapIndex, found)]⟩
    else some ⟨Function.update state.filterRows mapIndex (some filterRows), state.results⟩

/-- The row index for a map that follows on maps with this masked index and row index. A run of maps
with the same masked index is read with the row index of its first map. -/
def groupRow (layerIndex : ℕ) (group : Option (ℕ × ℕ)) (mapIndex : ℕ) : ℕ :=
  match group with
  | none => p.rowIndex hs mapIndex layerIndex value
  | some (masked, rowIndex) =>
    if p.maskedMapIndex mapIndex layerIndex = masked then rowIndex
    else p.rowIndex hs mapIndex layerIndex value

/-- The maps one after the other. -/
def matchMaps (layerIndex : ℕ) : Option (ℕ × ℕ) → List ℕ → LayerState → Option LayerState
  | _, [], state => some state
  | group, mapIndex :: mapIndices, state =>
    let rowIndex := groupRow p hs value layerIndex group mapIndex
    match matchMap p hs maps value layerIndex rowIndex mapIndex state with
    | none => none
    | some state =>
      matchMaps layerIndex (some (p.maskedMapIndex mapIndex layerIndex, rowIndex)) mapIndices state

def getMatchesForLayer (m : SingleMatcherInstance) (layerIndex : ℕ) :
    Option (List (ℕ × List ℕ) × SingleMatcherInstance) :=
  match matchMaps p hs maps value layerIndex none m.mapIndices ⟨m.filterRows, []⟩ with
  | none => none
  | some state =>
    some (state.results,
      ⟨m.mapIndices.filter fun mapIndex => (state.filterRows mapIndex).isSome, state.filterRows⟩)

/-- Layer after layer, until there are `n` results. -/
def matchLayers (n : ℕ) :
    ℕ → ℕ → SingleMatcherInstance → List (ℕ × List ℕ) → Option (List (ℕ × List ℕ))
  | 0, _, _, _ => none
  | fuel + 1, layerIndex, m, results =>
    if results.length < n then
      match getMatchesForLayer p hs maps value m layerIndex with
      | none => none
      | some (found, m) => matchLayers n fuel ((layerIndex + 1) % layers) m (results ++ found)
    else some results

/-- When all layers have been read without a result for every map, the loop never ends: `none`. -/
def getAllMatches (mapIndices : List ℕ) : Option (List (List ℕ)) :=
  (matchLayers p hs maps value mapIndices.length (layers + 1) 0 (newInstance mapIndices) []).map
    fun results => mapIndices.map fun mapIndex => (results.lookup mapIndex).getD []

end Matching

/-! ## One layer -/

section Layer

variable {p : Params} {hs : Hashes} {maps : ℕ → FilterMap} {value : Hash}

/-- The row is full in the map of this index. -/
abbrev Full (p : Params) (hs : Hashes) (maps : ℕ → FilterMap) (value : Hash)
    (mapIndex layerIndex : ℕ) : Prop :=
  RowFull p hs mapIndex (maps mapIndex) value layerIndex

instance (fm : FilterMap) (mapIndex layerIndex : ℕ) :
    Decidable (RowFull p hs mapIndex fm value layerIndex) :=
  inferInstanceAs (Decidable (_ ≤ _))

/-- The rows of the value on the first layers, as they are read. -/
def rowsRead (p : Params) (hs : Hashes) (maps : ℕ → FilterMap) (value : Hash)
    (mapIndex n : ℕ) : List FilterRow :=
  (List.range n).map fun layerIndex =>
    fetchRow p maps layerIndex (p.rowIndex hs mapIndex layerIndex value) mapIndex

/-- The first layer whose row is not full. -/
structure FirstRoom (p : Params) (hs : Hashes) (maps : ℕ → FilterMap) (value : Hash)
    (mapIndex layerIndex : ℕ) : Prop where
  before : ∀ l < layerIndex, Full p hs maps value mapIndex l
  room : ¬ Full p hs maps value mapIndex layerIndex

theorem maxRowLength_zero (p : Params) : p.maxRowLength 0 = p.baseRowLength := by
  have hlt : p.baseRowLength < 2 ^ 32 := mod_lt _ (by decide)
  rw [maxRowLength, layerGrowth, zero_mul, zero_min, shiftLeft_zero, mod_eq_of_lt hlt]

variable {mi rowIndex : ℕ}

theorem fetchRow_eq {li : ℕ} (hshort : (maps mi rowIndex).length < 2 ^ 32) :
    fetchRow p maps li rowIndex mi =
      if li = 0 then (maps mi rowIndex).take p.baseRowLength
      else maps mi rowIndex := by
  rw [fetchRow, storeFilterMapRow, mod_eq_of_lt hshort]
  split
  · cases li with
    | zero => rfl
    | succ li => exact take_append_drop _ _
  · rename_i hle
    cases li with
    | zero => exact (take_of_length_le (not_lt.mp hle)).symm
    | succ li => exact append_nil _

theorem fetchRow_take (li : ℕ) (hshort : (maps mi rowIndex).length < 2 ^ 32) :
    (fetchRow p maps li rowIndex mi).take (p.maxRowLength li) =
      (maps mi rowIndex).take (p.maxRowLength li) := by
  rw [fetchRow_eq hshort]
  split
  · rename_i hzero
    rw [hzero, maxRowLength_zero, take_take, min_self]
  · rfl

theorem fetchRow_length_lt (li : ℕ) (hshort : (maps mi rowIndex).length < 2 ^ 32) :
    (fetchRow p maps li rowIndex mi).length < 2 ^ 32 ∧
      ((fetchRow p maps li rowIndex mi).length < p.maxRowLength li ↔
        (maps mi rowIndex).length < p.maxRowLength li) := by
  rw [fetchRow_eq hshort]
  split
  · rename_i hzero
    rw [hzero, maxRowLength_zero, length_take]
    omega
  · exact ⟨hshort, Iff.rfl⟩

variable {l : ℕ}

theorem rowsRead_getElem? {n : ℕ} {row : FilterRow} :
    (rowsRead p hs maps value mi n)[l]? = some row ↔
      l < n ∧ row = fetchRow p maps l (p.rowIndex hs mi l value) mi := by
  rw [rowsRead, getElem?_map, Option.map_eq_some_iff]
  constructor
  · rintro ⟨i, hi, rfl⟩
    obtain ⟨hlt, rfl⟩ := List.getElem?_eq_some_iff.mp hi
    rw [length_range] at hlt
    exact ⟨hlt, by rw [getElem_range]⟩
  · rintro ⟨hlt, rfl⟩
    exact ⟨l, getElem?_range hlt, rfl⟩

theorem rowsRead_succ (mi n : ℕ) :
    rowsRead p hs maps value mi (n + 1) = rowsRead p hs maps value mi n ++
      [fetchRow p maps n (p.rowIndex hs mi n value) mi] := by
  simp [rowsRead, range_succ]

variable (hshort : ∀ mi row, (maps mi row).length < 2 ^ 32)

include hshort

theorem fetchRow_room (mi l : ℕ) :
    (fetchRow p maps l (p.rowIndex hs mi l value) mi).length < p.maxRowLength l ↔
      ¬ Full p hs maps value mi l := by
  rw [(fetchRow_length_lt l (hshort mi _)).2, Full, RowFull, not_le]

theorem rowsRead_matches {k : ℕ} (h : FirstRoom p hs maps value mi k) :
    ∃ found, p.potentialMatches hs (rowsRead p hs maps value mi (k + 1)) mi
        value = some found ∧ found.Pairwise (· < ·) ∧ ∀ x, x ∈ found ↔ ∃ l ≤ k,
        ∃ column ∈ (maps mi (p.rowIndex hs mi l value)).take (p.maxRowLength l),
          column = p.columnIndex hs x value ∧
            x = (p.mapFirst mi + column >>> p.hashBits) % 2 ^ 64 := by
  have hlen : (rowsRead p hs maps value mi k).length = k := by simp [rowsRead]
  have hfull : ∀ i row, (rowsRead p hs maps value mi k)[i]? = some row →
      p.maxRowLength i ≤ row.length := by
    intro i row hrow
    obtain ⟨hlt, rfl⟩ := rowsRead_getElem?.mp hrow
    by_contra hroom
    exact (fetchRow_room hshort mi i).mp (not_le.mp hroom) (h.before i hlt)
  have hlast := (fetchRow_room (p := p) hshort mi k).mpr h.room
  rw [← hlen] at hlast
  obtain ⟨found, hfound, hsorted, hmem⟩ := mem_potentialMatches hs mi value hfull
    hlast
  rw [hlen, ← rowsRead_succ] at hfound
  refine ⟨found, hfound, hsorted, fun x => ?_⟩
  rw [hmem, hlen, ← rowsRead_succ]
  constructor
  · rintro ⟨l, row, hrow, column, hcolumn, hrest⟩
    obtain ⟨hlt, rfl⟩ := rowsRead_getElem?.mp hrow
    rw [fetchRow_take l (hshort mi _)] at hcolumn
    exact ⟨l, Nat.lt_succ_iff.mp hlt, column, hcolumn, hrest⟩
  · rintro ⟨l, hl, column, hcolumn, hrest⟩
    refine ⟨l, _, rowsRead_getElem?.mpr ⟨lt_succ_of_le hl, rfl⟩, column, ?_, hrest⟩
    rwa [fetchRow_take l (hshort mi _)]

/-- What the matcher finds in a map. -/
def FoundIn (p : Params) (hs : Hashes) (maps : ℕ → FilterMap) (value : Hash) (mapIndex : ℕ)
    (found : List ℕ) : Prop :=
  ∃ k, FirstRoom p hs maps value mapIndex k ∧
    p.potentialMatches hs (rowsRead p hs maps value mapIndex (k + 1)) mapIndex value =
      some found

/-- What one layer does for some maps. -/
structure LayerDone (p : Params) (hs : Hashes) (maps : ℕ → FilterMap) (value : Hash) (l : ℕ)
    (mapIndices : List ℕ) (state state' : LayerState) : Prop where
  others : ∀ m ∉ mapIndices, state'.filterRows m = state.filterRows m
  rows : ∀ m ∈ mapIndices, state'.filterRows m =
    if Full p hs maps value m l then some (rowsRead p hs maps value m (l + 1)) else none
  results : ∃ new, state'.results = state.results ++ new ∧
    new.map Prod.fst = mapIndices.filter (fun m => ¬ Full p hs maps value m l) ∧
    ∀ e ∈ new, FoundIn p hs maps value e.1 e.2

theorem matchMap_spec {m : ℕ} {state : LayerState}
    (hrows : state.filterRows m = some (rowsRead p hs maps value m l))
    (hbefore : ∀ i < l, Full p hs maps value m i) :
    ∃ state', matchMap p hs maps value l (p.rowIndex hs m l value) m state = some state' ∧
      LayerDone p hs maps value l [m] state state' := by
  have hlt := (fetchRow_length_lt (p := p) l (hshort m (p.rowIndex hs m l value))).1
  have hothers : ∀ rows, ∀ m' ∉ [m], update state.filterRows m rows m' =
      state.filterRows m' := by
    intro rows m' hm'
    exact update_of_ne (by simpa using hm') _ _
  rw [matchMap, hrows]
  simp only [mod_eq_of_lt hlt, ← rowsRead_succ]
  by_cases hfull : Full p hs maps value m l
  · rw [if_neg fun hroom => (fetchRow_room hshort m l).mp hroom hfull]
    refine ⟨_, rfl, hothers _, ?_, [], by simp, by simp [hfull], by simp⟩
    intro m' hm'
    obtain rfl := mem_singleton.mp hm'
    rw [if_pos hfull]
    exact update_self _ _ _
  · have hfirst : FirstRoom p hs maps value m l := ⟨hbefore, hfull⟩
    obtain ⟨found, hfound, -⟩ := rowsRead_matches hshort hfirst
    rw [if_pos ((fetchRow_room hshort m l).mpr hfull), hfound]
    refine ⟨_, rfl, hothers _, ?_, [(m, found)], rfl, by simp [hfull], ?_⟩
    · intro m' hm'
      obtain rfl := mem_singleton.mp hm'
      rw [if_neg hfull]
      exact update_self _ _ _
    · intro e he
      obtain rfl := mem_singleton.mp he
      exact ⟨l, hfirst, hfound⟩

variable {mis : List ℕ}

omit hshort in
theorem LayerDone.cons {m : ℕ} {state mid state' : LayerState} (hm : m ∉ mis)
    (hfirst : LayerDone p hs maps value l [m] state mid)
    (hrest : LayerDone p hs maps value l mis mid state') :
    LayerDone p hs maps value l (m :: mis) state state' := by
  obtain ⟨new, hnew, hkeys, hfound⟩ := hfirst.results
  obtain ⟨new', hnew', hkeys', hfound'⟩ := hrest.results
  refine ⟨?_, ?_, new ++ new', ?_, ?_, ?_⟩
  · intro m' hm'
    rw [mem_cons, not_or] at hm'
    rw [hrest.others m' hm'.2, hfirst.others m' (by simpa using hm'.1)]
  · intro m' hm'
    rcases mem_cons.mp hm' with rfl | hm'
    · rw [hrest.others m' hm, hfirst.rows m' (by simp)]
    · exact hrest.rows m' hm'
  · rw [hnew', hnew, append_assoc]
  · rw [map_append, hkeys, hkeys', ← filter_append, singleton_append]
  · intro e he
    rcases mem_append.mp he with he | he
    · exact hfound e he
    · exact hfound' e he

omit hshort in
theorem groupRow_eq {group : Option (ℕ × ℕ)}
    (hgroup : ∀ masked row, group = some (masked, row) → ∀ m, p.maskedMapIndex m l = masked →
      row = p.rowIndex hs m l value)
    (m : ℕ) : groupRow p hs value l group m = p.rowIndex hs m l value := by
  unfold groupRow
  split
  · rfl
  · rename_i masked row
    split
    · rename_i heq
      exact hgroup masked row rfl m heq
    · rfl

theorem matchMaps_spec (group : Option (ℕ × ℕ)) (state : LayerState) (hnodup : mis.Nodup)
    (hgroup : ∀ masked row, group = some (masked, row) → ∀ m, p.maskedMapIndex m l = masked →
      row = p.rowIndex hs m l value)
    (hrows : ∀ m ∈ mis, state.filterRows m = some (rowsRead p hs maps value m l))
    (hbefore : ∀ m ∈ mis, ∀ i < l, Full p hs maps value m i) :
    ∃ state', matchMaps p hs maps value l group mis state = some state' ∧
      LayerDone p hs maps value l mis state state' := by
  induction mis generalizing group state with
  | nil =>
    refine ⟨state, rfl, fun m _ => rfl, ?_, [], by simp, rfl, ?_⟩
    all_goals
      intro m hm
      cases hm
  | cons m mis ih =>
    obtain ⟨hm, hrest⟩ := nodup_cons.mp hnodup
    have hgroup' : ∀ masked row, some (p.maskedMapIndex m l, p.rowIndex hs m l value) =
        some (masked, row) → ∀ m', p.maskedMapIndex m' l = masked →
          row = p.rowIndex hs m' l value := by
      rintro masked row ⟨⟩ m' hm'
      rw [rowIndex, rowIndex, hm']
    obtain ⟨mid, hstep, hfirst⟩ := matchMap_spec hshort (hrows m (by simp)) (hbefore m (by simp))
    have hmid : ∀ m' ∈ mis, mid.filterRows m' = some (rowsRead p hs maps value m' l) := by
      intro m' hm'
      rw [hfirst.others m' (by rintro hmem; exact hm (mem_singleton.mp hmem ▸ hm'))]
      exact hrows m' (mem_cons_of_mem _ hm')
    obtain ⟨state', heq, hdone⟩ := ih _ mid hrest hgroup' hmid
      fun m' hm' => hbefore m' (mem_cons_of_mem _ hm')
    refine ⟨state', ?_, hfirst.cons hm hdone⟩
    rw [matchMaps, groupRow_eq hgroup, hstep]
    exact heq

/-! ## All layers -/

/-- What holds after the first `l` layers. -/
structure Matching (p : Params) (hs : Hashes) (maps : ℕ → FilterMap) (value : Hash)
    (mapIndices : List ℕ) (l : ℕ) (m : SingleMatcherInstance) (results : List (ℕ × List ℕ)) :
    Prop where
  indices : m.mapIndices = mapIndices.filter fun i => ∀ k < l, Full p hs maps value i k
  rows : ∀ i ∈ m.mapIndices, m.filterRows i = some (rowsRead p hs maps value i l)
  sound : ∀ e ∈ results, FoundIn p hs maps value e.1 e.2
  all : (results.map Prod.fst ++ m.mapIndices).Perm mapIndices

variable {m : SingleMatcherInstance} {results : List (ℕ × List ℕ)}

variable (hnodup : mis.Nodup) (h : Matching p hs maps value mis l m results)

include hnodup h in
theorem Matching.layer : ∃ found m', getMatchesForLayer p hs maps value m l = some (found, m') ∧
      Matching p hs maps value mis (l + 1) m' (results ++ found) := by
  have hbefore : ∀ i ∈ m.mapIndices, ∀ k < l, Full p hs maps value i k := by
    intro i hi
    rw [h.indices] at hi
    simpa using (mem_filter.mp hi).2
  have hnodup' : m.mapIndices.Nodup := by
    rw [h.indices]
    exact hnodup.filter _
  obtain ⟨state', heq, hdone⟩ := matchMaps_spec hshort none ⟨m.filterRows, []⟩ hnodup'
    (fun _ _ hnone => by cases hnone) h.rows hbefore
  obtain ⟨new, hnew, hkeys, hfound⟩ := hdone.results
  have hnew : state'.results = new := hnew
  -- the maps whose row is full stay
  have hstay : m.mapIndices.filter (fun i => (state'.filterRows i).isSome) =
      m.mapIndices.filter fun i => Full p hs maps value i l := by
    refine filter_congr fun i hi => ?_
    rw [hdone.rows i hi]
    by_cases hfull : Full p hs maps value i l <;> simp [hfull]
  refine ⟨new, _, by rw [getMatchesForLayer, heq, ← hnew], ?_, ?_, ?_, ?_⟩
  · show m.mapIndices.filter (fun i => (state'.filterRows i).isSome) = _
    rw [hstay, h.indices, filter_filter]
    refine filter_congr fun i _ => ?_
    rw [Bool.eq_iff_iff, Bool.and_eq_true, decide_eq_true_iff, decide_eq_true_iff,
      decide_eq_true_iff, forall_lt_succ_right, and_comm]
  · intro i hi
    obtain ⟨hmem, hsome⟩ := mem_filter.mp hi
    show state'.filterRows i = _
    rw [hdone.rows i hmem] at hsome ⊢
    by_cases hfull : Full p hs maps value i l
    · rw [if_pos hfull]
    · rw [if_neg hfull] at hsome
      cases hsome
  · intro e he
    rcases mem_append.mp he with he | he
    · exact h.sound e he
    · exact hfound e he
  · show ((results ++ new).map Prod.fst ++ m.mapIndices.filter _).Perm mis
    rw [hstay, map_append, hkeys, append_assoc]
    refine List.Perm.trans (List.Perm.append_left _ ?_) h.all
    refine List.Perm.trans perm_append_comm ?_
    have hsplit := filter_append_perm (fun i => Full p hs maps value i l) m.mapIndices
    simpa using hsplit

omit hshort in
include h in
theorem Matching.length : results.length + m.mapIndices.length = mis.length := by
  have hlen := h.all.length_eq
  rwa [length_append, length_map] at hlen

variable (hroom : ∀ i ∈ mis, ∃ k < layers, ¬ Full p hs maps value i k)

include hnodup hroom in
theorem matchLayers_spec (fuel : ℕ) (hl : l ≤ layers) (hfuel : layers < l + fuel)
    (h : Matching p hs maps value mis l m results) :
    ∃ results', matchLayers p hs maps value mis.length fuel (l % layers) m results =
        some results' ∧ (∀ e ∈ results', FoundIn p hs maps value e.1 e.2) ∧
      (results'.map Prod.fst).Perm mis := by
  induction fuel generalizing l m results with
  | zero => omega
  | succ fuel ih =>
    have hlen := h.length
    rw [matchLayers]
    split
    · rename_i hmore
      -- some map is left, so there are layers left
      have hlt : l < layers := by
        refine lt_of_le_of_ne hl ?_
        rintro rfl
        obtain ⟨i, hi⟩ := exists_mem_of_length_pos (l := m.mapIndices) (by omega)
        rw [h.indices] at hi
        obtain ⟨hmem, hfull⟩ := mem_filter.mp hi
        obtain ⟨k, hk, hnot⟩ := hroom i hmem
        exact hnot (of_decide_eq_true hfull k hk)
      rw [mod_eq_of_lt hlt]
      obtain ⟨found, m', hlayer, h'⟩ := h.layer hshort hnodup
      rw [hlayer]
      exact ih hlt (by omega) h'
    · rename_i hdone
      have hnil : m.mapIndices = [] := eq_nil_of_length_eq_zero (by omega)
      have hall := h.all
      rw [hnil, append_nil] at hall
      exact ⟨results, rfl, h.sound, hall⟩

omit hshort in
theorem matching_start (mis : List ℕ) :
    Matching p hs maps value mis 0 (newInstance mis) [] where
  indices := by simp [newInstance]
  rows i hi := by
    have hi : i ∈ mis := hi
    simp [newInstance, rowsRead, hi]
  sound e he := by cases he
  all := List.Perm.refl _

omit hshort in
theorem lookup_of_key {i : ℕ} (h : i ∈ results.map Prod.fst) :
    ∃ found, results.lookup i = some found ∧ (i, found) ∈ results := by
  induction results with
  | nil => cases h
  | cons e results ih =>
    obtain ⟨j, found⟩ := e
    by_cases hij : i = j
    · subst hij
      exact ⟨found, by simp, by simp⟩
    · have hmem : i ∈ results.map Prod.fst := by simpa [hij] using h
      obtain ⟨found', hlookup, hin⟩ := ih hmem
      refine ⟨found', ?_, mem_cons_of_mem _ hin⟩
      rw [lookup_cons, beq_false_of_ne hij]
      exact hlookup

include hnodup hroom in
/-- If the value has a row that is not full in each map, the matcher comes to an end. -/
theorem getAllMatches_spec : ∃ all, getAllMatches p hs maps value mis = some all ∧
      List.Forall₂ (FoundIn p hs maps value) mis all := by
  obtain ⟨results, heq, hsound, hall⟩ := matchLayers_spec hshort hnodup hroom (layers + 1)
    (zero_le _) (by omega) (matching_start mis)
  rw [zero_mod] at heq
  refine ⟨_, by rw [getAllMatches, heq]; rfl, ?_⟩
  rw [forall₂_map_right_iff, forall₂_same]
  intro i hi
  obtain ⟨found, hlookup, hin⟩ := lookup_of_key (hall.mem_iff.mpr hi)
  rw [hlookup]
  exact hsound (i, found) hin

end Layer

/-! ## No false negatives -/

section Completeness

variable {p : Params} {hs : Hashes}

/-- The value was rendered at a position of a map. -/
structure RenderedAt (p : Params) (mapIndex : ℕ) (values : List Hash) (r : MapRenderer)
    (value : Hash) (k : ℕ) : Prop where
  stands : values[k]? = some value
  nonzero : value ≠ FixedBytes.zero 32
  passed : p.mapFirst mapIndex + k < r.lvIndex

/-- The positions that are found in a map for a value. -/
structure Complete (p : Params) (hs : Hashes) (maps : ℕ → FilterMap) (value : Hash)
    (mapIndex : ℕ) (values : List Hash) (r : MapRenderer) (found : List ℕ) : Prop where
  ascending : found.Pairwise (· < ·)
  inside : ∀ x ∈ found, p.mapFirst mapIndex ≤ x ∧ x < p.mapFirst mapIndex + p.valuesPerMap
  all : ∀ k, RenderedAt p mapIndex values r value k → p.mapFirst mapIndex + k ∈ found
  consistent : ∃ n, p.potentialMatches hs (rowsRead p hs maps value mapIndex n) mapIndex
      value = some found ∧
    ∀ x ∈ found, ∃ row ∈ rowsRead p hs maps value mapIndex n, p.columnIndex hs x value ∈ row

variable {mi : ℕ}

variable (hp : p.Valid) (hm : mi < 2 ^ 32)

include hp hm in
theorem Params.Valid.mapLimit_le : mapLimit p mi ≤ p.mapFirst mi + p.valuesPerMap := by
  rw [(hp.mapFirst_eq hm).1, hp.valuesPerMap_eq, mapLimit, Nat.shiftLeft_eq, ← succ_mul]
  exact (mod_le _ _).trans (mul_le_mul_right _ (mod_le _ _))

variable {done values : List Hash} {r : MapRenderer}

variable (h : Rendering p hs mi values r done)

include hp hm h in
theorem Rendering.count_le : done.length ≤ p.valuesPerMap := by
  rcases h.limit with rfl | hlimit
  · exact zero_le _
  · have := hp.mapLimit_le hm
    rw [h.lvIndex] at hlimit
    omega

include h in
theorem Rendering.get {k : ℕ} {value : Hash} (hat : RenderedAt p mi values r value k) :
    k < done.length ∧ done[k]? = some value := by
  have hpassed := hat.passed
  rw [h.lvIndex] at hpassed
  have hk : k < done.length := by omega
  have hvalue := hat.stands
  rw [h.values, getElem?_append_left hk] at hvalue
  exact ⟨hk, hvalue⟩

include hp hm h in
theorem Rendering.position {k : ℕ} (hk : k < done.length) (value : Hash) :
    (p.mapFirst mi + p.columnIndex hs (p.mapFirst mi + k) value >>> p.hashBits) %
      2 ^ 64 = p.mapFirst mi + k := by
  obtain ⟨hfirst, hbound⟩ := hp.mapFirst_eq hm
  have hcount := h.count_le hp hm
  have hrel : (p.mapFirst mi + k) % p.valuesPerMap = k := by
    rw [hfirst, ← hp.valuesPerMap_eq, add_comm, add_mul_mod_self_right,
      mod_eq_of_lt (by omega)]
  rw [hp.columnIndex_shift, hrel, mod_eq_of_lt (by omega)]

theorem mem_take_of_getElem? {xs : List ℕ} {i n x : ℕ} (hi : i < n) (h : xs[i]? = some x) :
    x ∈ xs.take n := by
  obtain ⟨hlt, hget⟩ := List.getElem?_eq_some_iff.mp h
  exact mem_take_iff_getElem.mpr ⟨i, by omega, hget⟩

include hp hm in
theorem foundIn_complete {maps : ℕ → FilterMap} (hshort : ∀ mi row, (maps mi row).length < 2 ^ 32)
    (h : Rendering p hs mi values r done) (hmap : maps mi = r.filterMap)
    {value : Hash} {found : List ℕ} (hfound : FoundIn p hs maps value mi found) :
    Complete p hs maps value mi values r found := by
  obtain ⟨k, hfirst, heq⟩ := hfound
  obtain ⟨found', heq', hsorted, hmem⟩ := rowsRead_matches hshort hfirst
  rw [heq] at heq'
  cases heq'
  refine ⟨hsorted, ?_, ?_, k + 1, heq, ?_⟩
  · intro x hx
    obtain ⟨l, -, column, hcolumn, -, hpos⟩ := (hmem x).mp hx
    rw [hmap] at hcolumn
    obtain ⟨i, hi, w, rfl⟩ := h.rendered.entries _ column (mem_of_mem_take hcolumn)
    rw [h.position hp hm hi] at hpos
    have := h.count_le hp hm
    omega
  · intro i hat
    obtain ⟨hi, hget⟩ := h.get hat
    obtain ⟨l, idx, -, hidx, hentry, hbefore⟩ := h.rendered.marked i value hget hat.nonzero
    -- the matcher does not stop before the layer of the mark
    have hle : l ≤ k := by
      by_contra hlt
      refine hfirst.room ?_
      rw [Full, hmap]
      exact hbefore k (not_le.mp hlt)
    refine (hmem _).mpr ⟨l, hle, _, ?_, rfl, (h.position hp hm hi value).symm⟩
    rw [hmap]
    exact mem_take_of_getElem? hidx hentry
  · intro x hx
    obtain ⟨l, hl, column, hcolumn, hcol, -⟩ := (hmem x).mp hx
    rw [← fetchRow_take l (hshort mi _)] at hcolumn
    refine ⟨_, mem_of_getElem? (rowsRead_getElem?.mpr ⟨lt_succ_of_le hl, rfl⟩), ?_⟩
    rw [← hcol]
    exact mem_of_mem_take hcolumn

include hp in
/-- Whatever the hash functions return: a mark stands in a row that the matcher reads, and if the
value has a row that is not full, in each of the maps, the matcher finds all of its positions, in
order and inside the maps, and only positions that are consistent with the value. Values that are
spread over enough rows can be rendered and have such a row. -/
theorem no_false_negatives (hs : Hashes) {mapIndices : List ℕ}
    (hnodup : mapIndices.Nodup) (hindex : ∀ m ∈ mapIndices, m < 2 ^ 32) (calls : ℕ → List ℕ)
    (values : ℕ → List Hash) :
    (∀ m, (∀ v ∈ values m, v ≠ FixedBytes.zero 32 → Spread p hs m ((values m).length - 1) v) →
      ∃ r, render p hs m (calls m) (values m) = some r) ∧
    ∀ {r : ℕ → MapRenderer}, (∀ m, render p hs m (calls m) (values m) = some (r m)) → ∀ value,
        (∀ m ∈ mapIndices, ∀ k, RenderedAt p m (values m) (r m) value k →
          ∃ l < layers, (∀ i < l, RowFull p hs m (r m).filterMap value i) ∧
            p.columnIndex hs (p.mapFirst m + k) value ∈
              fetchRow p (fun m => (r m).filterMap) l (p.rowIndex hs m l value) m) ∧
        ((∀ m ∈ mapIndices, ∃ l < layers, ¬ RowFull p hs m (r m).filterMap value l) →
          ∃ all, getAllMatches p hs (fun m => (r m).filterMap) value mapIndices = some all ∧
            List.Forall₂ (fun m found => Complete p hs (fun m => (r m).filterMap) value m
              (values m) (r m) found) mapIndices all) ∧
        ∀ m ∈ mapIndices, Spread p hs m (values m).length value →
          ∃ l < layers, ¬ RowFull p hs m (r m).filterMap value l := by
  refine ⟨fun m hspread => renderCalls_ends (rendering_start p hs m (values m)) hspread, ?_⟩
  intro r hrender value
  have hrendering (m : ℕ) : ∃ done, Rendering p hs m (values m) (r m) done :=
    renderCalls_spec (rendering_start p hs m (values m)) (hrender m)
  have hshort : ∀ m row, ((r m).filterMap row).length < 2 ^ 32 := by
    intro m row
    obtain ⟨done, h⟩ := hrendering m
    exact h.rendered.short row
  refine ⟨?_, ?_, ?_⟩
  · intro m _ k hat
    obtain ⟨done, h⟩ := hrendering m
    obtain ⟨-, hget⟩ := h.get hat
    obtain ⟨l, i, hl, hi, hentry, hbefore⟩ := h.rendered.marked k value hget hat.nonzero
    refine ⟨l, hl, hbefore, ?_⟩
    have hread : (fetchRow p (fun m => (r m).filterMap) l (p.rowIndex hs m l value) m).take
        (p.maxRowLength l) = _ := fetchRow_take l (hshort m _)
    refine mem_of_mem_take (i := p.maxRowLength l) ?_
    rw [hread]
    exact mem_take_of_getElem? hi hentry
  · intro hroom
    obtain ⟨all, hall, hfound⟩ := getAllMatches_spec hshort hnodup hroom
    obtain ⟨hlen, hzip⟩ := forall₂_iff_zip.mp hfound
    refine ⟨all, hall, forall₂_iff_zip.mpr ⟨hlen, ?_⟩⟩
    intro m found hmem
    obtain ⟨done, h⟩ := hrendering m
    exact foundIn_complete hp (hindex m (of_mem_zip hmem).1) hshort h rfl (hzip hmem)
  · intro m _ hspread
    obtain ⟨done, h⟩ := hrendering m
    exact h.rendered.room (by rw [h.values]; simp) hspread

end Completeness

/-- A hash function that gives each layer another row. -/
def layeredHashes : Hashes := ⟨fun _ _ layerIndex => UInt32.ofNat layerIndex, fun _ _ => 0⟩

def sampleValue : Hash := FixedBytes.ofBytes 32 [1]

/-- Nine times the same value in each map, looked for in the first two. The row of the first layer
takes eight of them, so the next one is read too. -/
theorem no_false_negatives_two_maps : ∃ r : ℕ → MapRenderer,
      (∀ m, render DefaultParams layeredHashes m [9] (replicate 9 sampleValue) = some (r m)) ∧
      RowFull DefaultParams layeredHashes 0 (r 0).filterMap sampleValue 0 ∧
      ∃ all, getAllMatches DefaultParams layeredHashes (fun m => (r m).filterMap) sampleValue
          [0, 1] = some all ∧
        List.Forall₂ (fun m found => Complete DefaultParams layeredHashes (fun m => (r m).filterMap)
          sampleValue m (replicate 9 sampleValue) (r m) found) [0, 1] all := by
  have hspread (m n : ℕ) (hn : n < 136) (v : Hash) : Spread DefaultParams layeredHashes m n v := by
    refine ⟨{0, 1}, by decide, ?_, lt_of_lt_of_le hn (by decide)⟩
    rw [Finset.coe_pair, Set.injOn_pair]
    exact fun h => absurd (show 0 = 1 from h) (by decide)
  obtain ⟨hends, hmain⟩ := no_false_negatives Params.defaultParams_valid layeredHashes
    (show ([0, 1] : List ℕ).Nodup by decide) (by decide) (fun _ => [9])
    fun _ => replicate 9 sampleValue
  choose r hr using fun m => hends m fun v _ _ => hspread m _ (by decide) v
  obtain ⟨-, hfound, hroom⟩ := hmain hr sampleValue
  have hrow : (render DefaultParams layeredHashes 0 [9] (replicate 9 sampleValue)).map
      (fun r => (r.filterMap 0).length) = some 8 := by decide
  rw [hr 0] at hrow
  refine ⟨r, hr, ?_, hfound fun m hm => hroom m hm (hspread m _ (by decide) _)⟩
  exact le_of_eq (Option.some.inj hrow).symm

/-! ## Rows that are all full -/

section NeverEnds

variable {p : Params} {hs : Hashes} {maps : ℕ → FilterMap} {value : Hash}

/-- If all rows of the value are full in a map, the matcher never ends. -/
theorem matchLayers_none (hshort : ∀ mi row, (maps mi row).length < 2 ^ 32)
    {mis : List ℕ} (hnodup : mis.Nodup) {i : ℕ} (hi : i ∈ mis)
    (hfull : ∀ k < layers, Full p hs maps value i k) (fuel : ℕ) {l : ℕ}
    {m : SingleMatcherInstance} {results : List (ℕ × List ℕ)} (hfuel : l + fuel ≤ layers + 1)
    (h : Matching p hs maps value mis l m results) :
    matchLayers p hs maps value mis.length fuel (l % layers) m results = none := by
  induction fuel generalizing l m results with
  | zero => rfl
  | succ fuel ih =>
    have hmem : i ∈ m.mapIndices := by
      rw [h.indices]
      exact mem_filter.mpr ⟨hi, decide_eq_true fun k hk => hfull k (by omega)⟩
    have hpos := length_pos_of_mem hmem
    have hlen := h.length
    rw [matchLayers, if_pos (by omega)]
    rcases lt_or_ge l layers with hlt | hge
    · rw [mod_eq_of_lt hlt]
      obtain ⟨found, m', hlayer, h'⟩ := h.layer hshort hnodup
      rw [hlayer]
      exact ih (by omega) h'
    · -- all layers have been read
      have hzero : fuel = 0 := by omega
      subst hzero
      split <;> rfl

theorem Rendering.length_row (hp : p.Valid) {mi row : ℕ} (hm : mi < 2 ^ 32)
    {values done : List Hash} {r : MapRenderer} (h : Rendering p hs mi values r done)
    (hrow : ∀ l v, p.rowIndex hs mi l v = row)
    (hvalues : ∀ v ∈ done, v ≠ FixedBytes.zero 32) : done.length ≤ (r.filterMap row).length := by
  have hentry (k : Fin done.length) : ∃ i : Fin (r.filterMap row).length,
      (r.filterMap row)[i] = p.columnIndex hs (p.mapFirst mi + k) done[k] := by
    obtain ⟨l, i, -, -, hget, -⟩ := h.rendered.marked k done[k] (getElem?_eq_getElem k.isLt)
      (hvalues _ (getElem_mem k.isLt))
    rw [hrow] at hget
    obtain ⟨hlt, hget⟩ := List.getElem?_eq_some_iff.mp hget
    exact ⟨⟨i, hlt⟩, hget⟩
  choose place hplace using hentry
  have hinj : Injective place := by
    intro a b hab
    -- an entry tells the position
    have heq : p.columnIndex hs (p.mapFirst mi + a) done[a] =
        p.columnIndex hs (p.mapFirst mi + b) done[b] := by
      rw [← hplace a, ← hplace b, hab]
    have ha := h.position hp hm a.isLt done[a]
    have hb := h.position hp hm b.isLt done[b]
    rw [heq, hb] at ha
    exact Fin.ext (by omega)
  simpa using Fintype.card_le_of_injective place hinj

/-- A hash function that gives all layers of all values the same row. -/
def oneRowHashes : Hashes := ⟨fun _ _ _ => 0, fun _ _ => 0⟩

theorem defaultParams_maxRowLength_le (l : ℕ) : DefaultParams.maxRowLength l ≤ 8192 := by
  have hbase : DefaultParams.baseRowLength = 8 := by decide
  have hgrowth : DefaultParams.layerGrowth l ≤ 10 := Nat.min_le_right _ _
  have hpow : 2 ^ DefaultParams.layerGrowth l ≤ 2 ^ 10 := Nat.pow_le_pow_right (by decide) hgrowth
  rw [maxRowLength, hbase, Nat.shiftLeft_eq]
  exact (mod_le _ _).trans (by omega)

/-- As many values as the row takes on the highest layers: the map can be rendered, but no row that
the matcher reads is not full. -/
theorem matcher_never_ends :
    ∃ r, render DefaultParams oneRowHashes 0 [8192] (List.replicate 8192 sampleValue) = some r ∧
      RenderedAt DefaultParams 0 (List.replicate 8192 sampleValue) r sampleValue 0 ∧
      getAllMatches DefaultParams oneRowHashes (fun _ => r.filterMap) sampleValue [0] = none := by
  have hrow : ∀ l v, DefaultParams.rowIndex oneRowHashes 0 l v = 0 := fun _ _ => rfl
  have hnonzero : sampleValue ≠ FixedBytes.zero 32 := by decide
  have hstart := rendering_start DefaultParams oneRowHashes 0 (List.replicate 8192 sampleValue)
  have hempty : CacheSound DefaultParams oneRowHashes 0 (fun _ => [])
      (Lru.empty cachedRowMappings) := fun v lvp hv => by simp at hv
  have hspread : ∀ v ∈ List.replicate 8192 sampleValue, v ≠ FixedBytes.zero 32 →
      Spread DefaultParams oneRowHashes 0 ((List.replicate 8192 sampleValue).length - 1) v := by
    intro v _ _
    refine ⟨{3}, by decide, by simp, ?_⟩
    rw [Finset.sum_singleton, length_replicate]
    decide
  obtain ⟨r, hloop⟩ := renderLoop_ends 8192 hstart hempty hspread
  obtain ⟨done, h, hprogress⟩ := renderLoop_spec hstart hempty hloop
  have hlen : done.length + r.rest.length = 8192 := by
    rw [← length_append, ← h.values, length_replicate]
  -- the loop is left after the last value
  have hall : done.length = 8192 := by
    rcases hprogress with hcount | hrest | hlimit
    · simpa using hcount
    · rw [hrest] at hlen
      simpa using hlen
    · have hlimit' : 65536 ≤ r.lvIndex := hlimit
      have hfirst : DefaultParams.mapFirst 0 = 0 := by decide
      rw [h.lvIndex, hfirst] at hlimit'
      omega
  have hdone : ∀ v ∈ done, v = sampleValue := by
    intro v hv
    refine eq_of_mem_replicate (n := 8192) ?_
    rw [h.values]
    exact mem_append_left _ hv
  have hrowlen := h.length_row Params.defaultParams_valid (by decide) hrow
    fun v hv => by rw [hdone v hv]; exact hnonzero
  have hfull : ∀ k < layers,
      Full DefaultParams oneRowHashes (fun _ => r.filterMap) sampleValue 0 k := by
    intro k _
    have := defaultParams_maxRowLength_le k
    rw [Full, RowFull, hrow]
    omega
  refine ⟨r, ?_, ⟨by rw [getElem?_replicate, if_pos (by decide)], hnonzero, ?_⟩, ?_⟩
  · rw [render, renderCalls, renderCurrentMap, hloop]
    rfl
  · rw [h.lvIndex, hall]
    decide
  · rw [getAllMatches]
    have hnone := matchLayers_none (fun _ row => h.rendered.short row)
      (show ([0] : List ℕ).Nodup by decide) (by simp) hfull (layers + 1) (l := 0) (by omega)
      (matching_start [0])
    rw [Nat.zero_mod] at hnone
    rw [hnone]
    rfl

end NeverEnds

end ChilizChain.FilterMaps
