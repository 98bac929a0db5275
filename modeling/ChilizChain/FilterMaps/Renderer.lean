import ChilizChain.FilterMaps.Params
import ChilizChain.Lib.Lru

/-! Rendering a filter map.

A value is marked on the first layer whose row is not full. The layers that were full stay so, since
rows only grow; so the layer that a value was found on can be remembered, and every mark stands
behind full rows only (`Rendered.marked`). -/

namespace ChilizChain.FilterMaps

open List Function Nat FixedBytes

/-- The number of layers; the layer index has 32 bits. -/
def layers : ℕ := 2 ^ 32

structure LvPos where
  rowIndex : ℕ
  layerIndex : ℕ
deriving DecidableEq

def cachedRowMappings : ℕ := 10000

/-- The map that is rendered, the position of the iterator and the values it still has to give. The
zero hash stands where there is no value. -/
structure MapRenderer where
  filterMap : FilterMap
  lvIndex : ℕ
  rest : List Hash

section Rendering

variable (p : Params) (hs : Hashes) (mapIndex : ℕ)

/-- The row has reached the maximum of the layer. -/
def RowFull (fm : FilterMap) (logValue : Hash) (layerIndex : ℕ) : Prop :=
  p.maxRowLength layerIndex ≤ (fm (p.rowIndex hs mapIndex layerIndex logValue)).length

/-- Go on to the next layer while the row is full. When all layers have been tried they come again,
and the loop never ends: `none`. -/
def seekRow (fm : FilterMap) (logValue : Hash) : ℕ → LvPos → Option LvPos
  | 0, _ => none
  | fuel + 1, lvp =>
    if p.maxRowLength lvp.layerIndex ≤ (fm lvp.rowIndex).length % 2 ^ 32 then
      let layerIndex := (lvp.layerIndex + 1) % layers
      seekRow fm logValue fuel ⟨p.rowIndex hs mapIndex layerIndex logValue, layerIndex⟩
    else some lvp

/-- Mark a value at a position. -/
def markValue (fm : FilterMap) (cache : Lru Hash LvPos) (lvIndex : ℕ) (logValue : Hash) :
    Option (FilterMap × Lru Hash LvPos) :=
  let (cached, cache) := cache.get logValue
  let start := cached.getD ⟨p.rowIndex hs mapIndex 0 logValue, 0⟩
  match seekRow p hs mapIndex fm logValue layers start with
  | none => none
  | some lvp =>
    let row := fm lvp.rowIndex ++ [p.columnIndex hs lvIndex logValue]
    some (Function.update fm lvp.rowIndex row,
      if cached = some lvp then cache else cache.add logValue lvp)

/-- The position behind the map, as the source computes it. -/
def mapLimit : ℕ := ((mapIndex + 1) % 2 ^ 32) <<< p.logValuesPerMap % 2 ^ 64

/-- The loop of `renderCurrentMap`, which is left after `n` values at the latest. -/
def renderLoop : ℕ → Lru Hash LvPos → MapRenderer → Option MapRenderer
  | 0, _, r => some r
  | n + 1, cache, r =>
    match r.rest with
    | [] => some r
    | logValue :: rest =>
      if r.lvIndex < mapLimit p mapIndex then
        if logValue ≠ FixedBytes.zero 32 then
          match markValue p hs mapIndex r.filterMap cache r.lvIndex logValue with
          | none => none
          | some (fm, cache) => renderLoop n cache ⟨fm, r.lvIndex + 1, rest⟩
        else renderLoop n cache ⟨r.filterMap, r.lvIndex + 1, rest⟩
      else some r

def renderCurrentMap (n : ℕ) (r : MapRenderer) : Option MapRenderer :=
  renderLoop p hs mapIndex n (Lru.empty cachedRowMappings) r

/-- Rendering may be stopped and taken up again, each time with a new cache; the calls go on for the
given numbers of values. -/
def renderCalls : List ℕ → MapRenderer → Option MapRenderer
  | [], r => some r
  | n :: calls, r =>
    match renderCurrentMap p hs mapIndex n r with
    | none => none
    | some r => renderCalls calls r

def render (calls : List ℕ) (values : List Hash) : Option MapRenderer :=
  renderCalls p hs mapIndex calls ⟨fun _ => [], p.mapFirst mapIndex, values⟩

end Rendering

/-! ## What rendering keeps -/

section Invariant

variable {p : Params} {hs : Hashes} {mi : ℕ} {fm fm' : FilterMap}

/-- A position that a value can be looked for from: the layers before it are full. -/
structure OnPath (p : Params) (hs : Hashes) (mapIndex : ℕ) (fm : FilterMap) (logValue : Hash)
    (lvp : LvPos) : Prop where
  row : lvp.rowIndex = p.rowIndex hs mapIndex lvp.layerIndex logValue
  layer : lvp.layerIndex < layers
  before : ∀ l < lvp.layerIndex, RowFull p hs mapIndex fm logValue l

/-- What holds of a map into which these values have been rendered. -/
structure Rendered (p : Params) (hs : Hashes) (mapIndex : ℕ) (fm : FilterMap)
    (values : List Hash) : Prop where
  marked : ∀ k logValue, values[k]? = some logValue → logValue ≠ FixedBytes.zero 32 →
    ∃ layerIndex i, layerIndex < layers ∧ i < p.maxRowLength layerIndex ∧
      (fm (p.rowIndex hs mapIndex layerIndex logValue))[i]? =
        some (p.columnIndex hs (p.mapFirst mapIndex + k) logValue) ∧
      ∀ l < layerIndex, RowFull p hs mapIndex fm logValue l
  entries : ∀ row, ∀ column ∈ fm row, ∃ k < values.length, ∃ logValue,
    column = p.columnIndex hs (p.mapFirst mapIndex + k) logValue
  short : ∀ row, (fm row).length < 2 ^ 32
  total : ∀ rows : Finset ℕ, ∑ row ∈ rows, (fm row).length ≤ values.length

/-- What the cache remembers is on the path of the value. -/
def CacheSound (p : Params) (hs : Hashes) (mapIndex : ℕ) (fm : FilterMap)
    (cache : Lru Hash LvPos) : Prop :=
  ∀ logValue lvp, cache.lookup logValue = some lvp → OnPath p hs mapIndex fm logValue lvp

theorem maxRowLength_lt (p : Params) (li : ℕ) : p.maxRowLength li < 2 ^ 32 :=
  mod_lt _ (by decide)

variable {val : Hash}

theorem RowFull.mono {l : ℕ} (hgrow : ∀ row, fm row <+: fm' row)
    (h : RowFull p hs mi fm val l) : RowFull p hs mi fm' val l :=
  le_trans h (hgrow _).length_le

variable {lvp : LvPos}

theorem OnPath.mono (hgrow : ∀ row, fm row <+: fm' row)
    (h : OnPath p hs mi fm val lvp) : OnPath p hs mi fm' val lvp :=
  ⟨h.row, h.layer, fun l hl => (h.before l hl).mono hgrow⟩

theorem onPath_start (p : Params) (hs : Hashes) (mi : ℕ) (fm : FilterMap)
    (val : Hash) : OnPath p hs mi fm val ⟨p.rowIndex hs mi 0 val, 0⟩ :=
  ⟨rfl, Nat.two_pow_pos 32, fun l hl => absurd hl (Nat.not_lt_zero l)⟩

theorem seekRow_spec {fuel : ℕ} {found : LvPos} (hshort : ∀ row, (fm row).length < 2 ^ 32)
    (h : OnPath p hs mi fm val lvp) (hseek : seekRow p hs mi fm val fuel lvp = some found) :
    OnPath p hs mi fm val found ∧ ¬ RowFull p hs mi fm val found.layerIndex := by
  induction fuel generalizing lvp with
  | zero => cases hseek
  | succ fuel ih =>
    rw [seekRow, mod_eq_of_lt (hshort _)] at hseek
    split at hseek
    · rename_i hfull
      refine ih ?_ hseek
      rcases lt_or_ge (lvp.layerIndex + 1) layers with hlt | hge
      · rw [mod_eq_of_lt hlt]
        refine ⟨rfl, hlt, fun l hl => ?_⟩
        rcases Nat.lt_succ_iff_lt_or_eq.mp hl with hl | rfl
        · exact h.before l hl
        · rwa [RowFull, ← h.row]
      · -- after the last layer the first one comes again
        have hlast : lvp.layerIndex + 1 = layers := le_antisymm h.layer hge
        rw [hlast, mod_self]
        exact onPath_start p hs mi fm val
    · rename_i hroom
      cases hseek
      exact ⟨h, by rwa [RowFull, ← h.row]⟩

theorem seekRow_ends (fuel : ℕ) {li : ℕ} (hshort : ∀ row, (fm row).length < 2 ^ 32)
    (h : OnPath p hs mi fm val lvp) (hlayer : li < layers)
    (hroom : ¬ RowFull p hs mi fm val li) (hfuel : li < lvp.layerIndex + fuel) :
    ∃ found, seekRow p hs mi fm val fuel lvp = some found := by
  have hbefore : lvp.layerIndex ≤ li := by
    by_contra hlt
    exact hroom (h.before li (not_le.mp hlt))
  induction fuel generalizing lvp with
  | zero => omega
  | succ fuel ih =>
    rw [seekRow, mod_eq_of_lt (hshort _)]
    split
    · rename_i hfull
      have hne : lvp.layerIndex ≠ li := by
        rintro rfl
        exact hroom (by rwa [RowFull, ← h.row])
      have hlt : lvp.layerIndex + 1 < layers := by omega
      rw [mod_eq_of_lt hlt]
      refine ih ⟨rfl, hlt, fun l hl => ?_⟩ (by show li < lvp.layerIndex + 1 + fuel; omega)
        (by show lvp.layerIndex + 1 ≤ li; omega)
      rcases Nat.lt_succ_iff_lt_or_eq.mp hl with hl | rfl
      · exact h.before l hl
      · rwa [RowFull, ← h.row]
    · exact ⟨lvp, rfl⟩

theorem getElem?_of_grow {xs ys : List ℕ} (h : xs <+: ys) {i x : ℕ} (hx : xs[i]? = some x) :
    ys[i]? = some x := by
  obtain ⟨rest, rfl⟩ := h
  obtain ⟨hlt, -⟩ := List.getElem?_eq_some_iff.mp hx
  rwa [getElem?_append_left hlt]

theorem grow_update (fm : FilterMap) (i column : ℕ) :
    ∀ row, fm row <+: update fm i (fm i ++ [column]) row := by
  intro row
  by_cases hrow : row = i
  · subst hrow
    rw [update_self]
    exact prefix_append _ _
  · rw [update_of_ne hrow]

variable {values : List Hash}

theorem Rendered.skip (h : Rendered p hs mi fm values) :
    Rendered p hs mi fm (values ++ [zero 32]) where
  marked k val hk hne := by
    refine h.marked k val ?_ hne
    rcases lt_or_ge k values.length with hlt | hge
    · rwa [getElem?_append_left hlt] at hk
    · have hmem := mem_of_getElem? (getElem?_append_right hge ▸ hk)
      exact absurd (mem_singleton.mp hmem) hne
  entries row column hcolumn := by
    obtain ⟨k, hk, hrest⟩ := h.entries row column hcolumn
    exact ⟨k, by rw [length_append]; omega, hrest⟩
  short := h.short
  total rows := (h.total rows).trans (by simp)

theorem Rendered.mark (h : Rendered p hs mi fm values) (hpath : OnPath p hs mi fm val lvp)
    (hroom : ¬ RowFull p hs mi fm val lvp.layerIndex) :
    Rendered p hs mi (update fm lvp.rowIndex (fm lvp.rowIndex ++
      [p.columnIndex hs (p.mapFirst mi + values.length) val])) (values ++ [val]) := by
  set column := p.columnIndex hs (p.mapFirst mi + values.length) val with hcolumn
  have hroom : (fm lvp.rowIndex).length < p.maxRowLength lvp.layerIndex := by
    rw [RowFull, ← hpath.row] at hroom
    exact not_le.mp hroom
  have hgrow := grow_update fm lvp.rowIndex column
  refine ⟨?_, ?_, ?_, ?_⟩
  · intro k v hk hne
    rcases lt_or_ge k values.length with hlt | hge
    · rw [getElem?_append_left hlt] at hk
      obtain ⟨li, i, hlayer, hi, hget, hbefore⟩ := h.marked k v hk hne
      exact ⟨li, i, hlayer, hi, getElem?_of_grow (hgrow _) hget,
        fun l hl => (hbefore l hl).mono hgrow⟩
    · rw [getElem?_append_right hge, getElem?_singleton] at hk
      split at hk
      · rename_i hzero
        cases hk
        have hkeq : k = values.length := by omega
        subst hkeq
        refine ⟨lvp.layerIndex, (fm lvp.rowIndex).length, hpath.layer, hroom, ?_,
          fun l hl => (hpath.before l hl).mono hgrow⟩
        rw [← hpath.row, update_self, getElem?_concat_length]
      · cases hk
  · intro row c hc
    have hold : c ∈ fm row ∨ c = column := by
      by_cases hrow : row = lvp.rowIndex
      · subst hrow
        rw [update_self] at hc
        exact (mem_append.mp hc).imp id mem_singleton.mp
      · rw [update_of_ne hrow] at hc
        exact .inl hc
    rcases hold with hold | rfl
    · obtain ⟨k, hk, hrest⟩ := h.entries row c hold
      exact ⟨k, by rw [length_append]; omega, hrest⟩
    · exact ⟨values.length, by simp, val, rfl⟩
  · intro row
    by_cases hrow : row = lvp.rowIndex
    · subst hrow
      rw [update_self, length_append, length_singleton]
      have := maxRowLength_lt p lvp.layerIndex
      omega
    · rw [update_of_ne hrow]
      exact h.short row
  · intro rows
    have hlen : ∀ row, (update fm lvp.rowIndex (fm lvp.rowIndex ++ [column]) row).length =
        (fm row).length + if row = lvp.rowIndex then 1 else 0 := by
      intro row
      by_cases hrow : row = lvp.rowIndex
      · subst hrow
        simp
      · rw [update_of_ne hrow, if_neg hrow, add_zero]
    have hone : ∑ row ∈ rows, (if row = lvp.rowIndex then 1 else 0) ≤ 1 := by
      rw [Finset.sum_ite_eq' rows lvp.rowIndex fun _ => 1]
      split <;> omega
    rw [Finset.sum_congr rfl fun row _ => hlen row, Finset.sum_add_distrib, length_append,
      length_singleton]
    exact Nat.add_le_add (h.total rows) hone

variable {cache : Lru Hash LvPos}

theorem CacheSound.start (h : CacheSound p hs mi fm cache) (val : Hash) :
    OnPath p hs mi fm val ((cache.get val).1.getD ⟨p.rowIndex hs mi 0 val, 0⟩) := by
  rw [Lru.get_fst]
  cases hcached : cache.lookup val with
  | none => exact onPath_start p hs mi fm val
  | some lvp => exact h val lvp hcached

theorem CacheSound.add (h : CacheSound p hs mi fm cache)
    (hlvp : OnPath p hs mi fm val lvp) : CacheSound p hs mi fm (cache.add val lvp) := by
  intro v found hfound
  by_cases hv : v = val
  · subst hv
    rw [Lru.lookup_add_self] at hfound
    cases hfound
    exact hlvp
  · exact h v found (Lru.lookup_of_lookup_add hv hfound)

theorem markValue_spec {cache' : Lru Hash LvPos} (h : Rendered p hs mi fm values)
    (hc : CacheSound p hs mi fm cache)
    (hmark : markValue p hs mi fm cache (p.mapFirst mi + values.length) val =
      some (fm', cache')) : Rendered p hs mi fm' (values ++ [val]) ∧
      CacheSound p hs mi fm' cache' := by
  rw [markValue] at hmark
  dsimp only at hmark
  split at hmark
  · cases hmark
  · rename_i lvp hseek
    obtain ⟨hpath, hroom⟩ := seekRow_spec h.short (hc.start val) hseek
    obtain ⟨rfl, rfl⟩ := Prod.mk.inj (Option.some.inj hmark)
    have hgrow := grow_update fm lvp.rowIndex
      (p.columnIndex hs (p.mapFirst mi + values.length) val)
    have hgot : CacheSound p hs mi fm (cache.get val).2 := by
      intro v found hfound
      rw [Lru.lookup_get] at hfound
      exact hc v found hfound
    refine ⟨h.mark hpath hroom, fun v found hfound => OnPath.mono hgrow ?_⟩
    split at hfound
    · exact hgot v found hfound
    · exact hgot.add hpath v found hfound

/-- The renderer after some of the values. -/
structure Rendering (p : Params) (hs : Hashes) (mapIndex : ℕ) (values : List Hash)
    (r : MapRenderer) (done : List Hash) : Prop where
  rendered : Rendered p hs mapIndex r.filterMap done
  lvIndex : r.lvIndex = p.mapFirst mapIndex + done.length
  limit : done = [] ∨ r.lvIndex ≤ mapLimit p mapIndex
  values : values = done ++ r.rest

theorem renderLoop_spec {done : List Hash} {n : ℕ} {r r' : MapRenderer}
    (h : Rendering p hs mi values r done) (hc : CacheSound p hs mi r.filterMap cache)
    (hloop : renderLoop p hs mi n cache r = some r') : ∃ done', Rendering p hs mi values r' done' ∧
      (done'.length = done.length + n ∨ r'.rest = [] ∨ mapLimit p mi ≤ r'.lvIndex) := by
  induction n generalizing cache r done with
  | zero =>
    cases hloop
    exact ⟨done, h, .inl rfl⟩
  | succ n ih =>
    rw [renderLoop] at hloop
    split at hloop
    · rename_i hrest
      cases hloop
      exact ⟨done, h, .inr (.inl hrest)⟩
    · rename_i val rest hrest
      have hvalues : values = (done ++ [val]) ++ rest := by
        rw [h.values, hrest]
        simp
      have hnext : r.lvIndex + 1 = p.mapFirst mi + (done ++ [val]).length := by
        rw [h.lvIndex, length_append, length_singleton, add_assoc]
      have hcount : ∀ d : List Hash, d.length = (done ++ [val]).length + n →
          d.length = done.length + (n + 1) := by
        intro d hd
        rw [hd, length_append, length_singleton]
        omega
      split at hloop
      · rename_i hlt
        split at hloop
        · split at hloop
          · cases hloop
          · rename_i fm' cache' hmark
            rw [h.lvIndex] at hmark
            obtain ⟨hr, hc'⟩ := markValue_spec h.rendered hc hmark
            obtain ⟨done', h', hprogress⟩ := ih (r := ⟨fm', r.lvIndex + 1, rest⟩)
              ⟨hr, hnext, .inr hlt, hvalues⟩ hc' hloop
            exact ⟨done', h', hprogress.imp_left (hcount done')⟩
        · rename_i hzero
          have hzero : val = zero 32 := not_not.mp hzero
          subst hzero
          obtain ⟨done', h', hprogress⟩ := ih (r := ⟨r.filterMap, r.lvIndex + 1, rest⟩)
            ⟨h.rendered.skip, hnext, .inr hlt, hvalues⟩ hc hloop
          exact ⟨done', h', hprogress.imp_left (hcount done')⟩
      · rename_i hlimit
        cases hloop
        exact ⟨done, h, .inr (.inr (not_lt.mp hlimit))⟩

theorem renderCalls_spec {calls : List ℕ} {done : List Hash} {r r' : MapRenderer}
    (h : Rendering p hs mi values r done) (hcalls : renderCalls p hs mi calls r = some r') :
    ∃ done', Rendering p hs mi values r' done' := by
  induction calls generalizing r done with
  | nil =>
    cases hcalls
    exact ⟨done, h⟩
  | cons n calls ih =>
    rw [renderCalls] at hcalls
    split at hcalls
    · cases hcalls
    · rename_i r₁ hcall
      obtain ⟨done₁, h₁, -⟩ := renderLoop_spec h (fun v lvp hv => by simp at hv) hcall
      exact ih h₁ hcalls

theorem rendering_start (p : Params) (hs : Hashes) (mi : ℕ) (values : List Hash) :
    Rendering p hs mi values ⟨fun _ => [], p.mapFirst mi, values⟩ [] := by
  refine ⟨⟨?_, ?_, ?_, ?_⟩, rfl, .inl rfl, rfl⟩
  · intro k v hk
    cases hk
  · intro row column hcolumn
    cases hcolumn
  · intro row
    exact Nat.two_pow_pos 32
  · intro rows
    simp

end Invariant

/-! ## When rendering and reading come to an end -/

/-- The value is mapped to different rows on layers that take more than `n` marks together. -/
def Spread (p : Params) (hs : Hashes) (mapIndex n : ℕ) (logValue : Hash) : Prop :=
  ∃ ls : Finset ℕ, (∀ l ∈ ls, l < layers) ∧
    Set.InjOn (fun l => p.rowIndex hs mapIndex l logValue) ls ∧
    n < ∑ l ∈ ls, p.maxRowLength l

section Termination

variable {p : Params} {hs : Hashes} {mi : ℕ} {fm : FilterMap}

variable {values : List Hash}

theorem Rendered.room {val : Hash} (h : Rendered p hs mi fm values) {n : ℕ}
    (hn : values.length ≤ n) (hspread : Spread p hs mi n val) :
    ∃ l < layers, ¬ RowFull p hs mi fm val l := by
  by_contra hall
  have hfull : ∀ l < layers, RowFull p hs mi fm val l := by
    intro l hl
    by_contra hroom
    exact hall ⟨l, hl, hroom⟩
  obtain ⟨ls, hls, hinj, hlt⟩ := hspread
  have hsum : ∑ l ∈ ls, p.maxRowLength l ≤
      ∑ row ∈ ls.image fun l => p.rowIndex hs mi l val, (fm row).length := by
    rw [Finset.sum_image hinj]
    exact Finset.sum_le_sum fun l hl => hfull l (hls l hl)
  have := h.total (ls.image fun l => p.rowIndex hs mi l val)
  omega

theorem renderLoop_ends (n : ℕ) {done : List Hash} {cache : Lru Hash LvPos} {r : MapRenderer}
    (h : Rendering p hs mi values r done) (hc : CacheSound p hs mi r.filterMap cache)
    (hspread : ∀ v ∈ values, v ≠ zero 32 → Spread p hs mi (values.length - 1) v) :
    ∃ r', renderLoop p hs mi n cache r = some r' := by
  induction n generalizing cache r done with
  | zero => exact ⟨r, rfl⟩
  | succ n ih =>
    rw [renderLoop]
    split
    · exact ⟨r, rfl⟩
    · rename_i val rest hrest
      have hvalues : values = (done ++ [val]) ++ rest := by
        rw [h.values, hrest]
        simp
      have hnext : r.lvIndex + 1 = p.mapFirst mi + (done ++ [val]).length := by
        rw [h.lvIndex, length_append, length_singleton, add_assoc]
      split
      · rename_i hlt
        split
        · rename_i hne
          have hmem : val ∈ values := by rw [hvalues]; simp
          have hlen : done.length ≤ values.length - 1 := by
            rw [hvalues, length_append, length_append, length_singleton]
            omega
          obtain ⟨l, hl, hroom⟩ := h.rendered.room hlen (hspread val hmem hne)
          obtain ⟨lvp, hseek⟩ := seekRow_ends layers h.rendered.short (hc.start val) hl hroom
            (by omega)
          have hmark : ∃ result, markValue p hs mi r.filterMap cache r.lvIndex val =
              some result := by
            rw [markValue]
            simp only [hseek]
            exact ⟨_, rfl⟩
          obtain ⟨⟨fm', cache'⟩, hmark⟩ := hmark
          rw [hmark]
          rw [h.lvIndex] at hmark
          obtain ⟨hr, hc'⟩ := markValue_spec h.rendered hc hmark
          exact ih (r := ⟨fm', r.lvIndex + 1, rest⟩) ⟨hr, hnext, .inr hlt, hvalues⟩ hc'
        · rename_i hzero
          have hzero : val = zero 32 := not_not.mp hzero
          subst hzero
          exact ih (r := ⟨r.filterMap, r.lvIndex + 1, rest⟩)
            ⟨h.rendered.skip, hnext, .inr hlt, hvalues⟩ hc
      · exact ⟨r, rfl⟩

theorem renderCalls_ends {calls : List ℕ} {done : List Hash} {r : MapRenderer}
    (h : Rendering p hs mi values r done) (hspread : ∀ v ∈ values, v ≠ zero 32 →
      Spread p hs mi (values.length - 1) v) : ∃ r', renderCalls p hs mi calls r = some r' := by
  induction calls generalizing r done with
  | nil => exact ⟨r, rfl⟩
  | cons n calls ih =>
    have hempty : CacheSound p hs mi r.filterMap (Lru.empty cachedRowMappings) :=
      fun v lvp hv => by simp at hv
    obtain ⟨r₁, hcall⟩ := renderLoop_ends n h hempty hspread
    obtain ⟨done₁, h₁, -⟩ := renderLoop_spec h hempty hcall
    rw [renderCalls, renderCurrentMap, hcall]
    exact ih h₁

end Termination

end ChilizChain.FilterMaps
