import ChilizChain.Parlia.Engine

/-! Branches of the block tree and the lookup of ancestors on them. A branch is the list of its
headers, newest first, without the genesis block, so that going back to the parent is going to
the tail. -/

namespace ChilizChain

open List

/-! ## Branches -/

/-- The last block of a branch above the genesis block `g`. -/
def tip (g : Header) : List Header → Header
  | [] => g
  | h :: _ => h

@[simp] theorem tip_nil (g : Header) : tip g [] = g := rfl

@[simp] theorem tip_cons (g h : Header) (H : List Header) : tip g (h :: H) = h := rfl

/-- `H` is a branch above `g` whose headers are all among `U`. -/
inductive Branch (k : Crypto) (g : Header) (U : Set Header) : List Header → Prop
  | genesis : Branch k g U []
  | block {h : Header} {H : List Header} (below : Branch k g U H) (mem : h ∈ U)
      (number : h.number = H.length + 1) (parent : h.parentHash = k.hash (tip g H)) :
      Branch k g U (h :: H)

/-- The headers that blocks are built on: their hashes do not collide, and a chain of them has
not reached the Snake8 activation time. -/
structure BeforeSnake8 (p : Parlia) (g : Header) (U : Set Header) : Prop where
  genesis_number : g.number = 0
  genesis_mem : g ∈ U
  hash_injOn : Set.InjOn p.k.hash U
  number_lt : ∀ h ∈ U, h.number + 1 < 2 ^ 64
  time_le : ∀ parent ∈ U, ∀ h ∈ U, h.parentHash = p.k.hash parent → parent.time ≤ h.time
  inactive : ∀ h ∈ U, p.c.isSnake8 h.time = false
  /-- No embedded parent time reaches the activation time either. -/
  embedded : ∀ h ∈ U, ∀ ts, extractSnake8ParentTimestamp h p.c = some ts → p.c.isSnake8 ts = false
  turnLength_ne_zero : ∀ h ∈ U, ∀ e, parseTurnLength h p.c e ≠ .ok (some 0)

/-- A chain store over the genesis block `g` that may hold headers outside `U`, but none that a
lookup by the hash or the parent hash of a header of `U` could find. -/
structure ChainStore.Within (chain : ChainStore) (k : Crypto) (g : Header) (U : Set Header) :
    Prop where
  genesis_eq : chain.genesis = g
  mem : ∀ h ∈ chain.headers, ∀ x ∈ U, k.hash h = k.hash x ∨ k.hash h = x.parentHash → h ∈ U

theorem ChainStore.Within.of_subset {chain : ChainStore} {k : Crypto} {g : Header}
    {U : Set Header} (hgenesis : chain.genesis = g) (hmem : ∀ h ∈ chain.headers, h ∈ U) :
    chain.Within k g U :=
  ⟨hgenesis, fun h hh _ _ _ => hmem h hh⟩

namespace Branch

variable {k : Crypto} {g : Header} {U : Set Header} {H : List Header}

theorem mem_of_mem (hH : Branch k g U H) : ∀ h ∈ H, h ∈ U := by
  induction hH with
  | genesis => simp
  | block below mem number parent ih =>
    intro x hx
    rcases mem_cons.mp hx with rfl | hx
    · exact mem
    · exact ih x hx

theorem tip_mem (hg : g ∈ U) (hH : Branch k g U H) : tip g H ∈ U := by
  cases hH with
  | genesis => exact hg
  | block below mem number parent => exact mem

theorem tip_number (hg : g.number = 0) (hH : Branch k g U H) : (tip g H).number = H.length := by
  cases hH with
  | genesis => exact hg
  | block below mem number parent => exact number

variable {h : Header}

theorem tail (hH : Branch k g U (h :: H)) : Branch k g U H := by
  cases hH with
  | block below mem number parent => exact below

theorem parentHash_eq (hH : Branch k g U (h :: H)) : h.parentHash = k.hash (tip g H) := by
  cases hH with
  | block below mem number parent => exact parent

theorem number_eq (hH : Branch k g U (h :: H)) : h.number = H.length + 1 := by
  cases hH with
  | block below mem number parent => exact number

theorem of_append {N : List Header} (hH : Branch k g U (N ++ H)) : Branch k g U H := by
  induction N with
  | nil => exact hH
  | cons h N ih => exact ih hH.tail

theorem unique (hg : g.number = 0) (hgU : g ∈ U) (hinj : Set.InjOn k.hash U)
    (hH : Branch k g U H) : ∀ {H' : List Header}, Branch k g U H' →
      k.hash (tip g H) = k.hash (tip g H') → H = H' := by
  induction hH with
  | genesis =>
    intro H' hH' hash
    have htip := hinj hgU (hH'.tip_mem hgU) hash
    have hlen : H'.length = 0 := by rw [← hH'.tip_number hg, ← htip]; exact hg
    exact (eq_nil_of_length_eq_zero hlen).symm
  | @block h H below mem number parent ih =>
    intro H' hH' hash
    have htip := hinj mem (hH'.tip_mem hgU) hash
    cases hH' with
    | genesis =>
      have hzero : h.number = 0 := by rw [show h = g from htip]; exact hg
      omega
    | @block h' H' below' mem' number' parent' =>
      obtain rfl : h = h' := htip
      rw [ih below' (parent.symm.trans parent')]

end Branch

theorem BeforeSnake8.time_le_tip {p : Parlia} {g : Header} {U : Set Header}
    (hU : BeforeSnake8 p g U) {H : List Header} :
    ∀ {N : List Header}, Branch p.k g U (N ++ H) → (tip g H).time ≤ (tip g (N ++ H)).time
  | [], _ => Nat.le_refl _
  | h :: _, hH =>
    (hU.time_le_tip hH.tail).trans
      (hU.time_le _ (hH.tail.tip_mem hU.genesis_mem) h (hH.mem_of_mem h mem_cons_self)
        hH.parentHash_eq)

/-! ## Ancestors of a block on a branch -/

section Ancestors

variable {p : Parlia} {g : Header} {U : Set Header} {chain : ChainStore}

theorem ChainStore.Within.mem_all {k : Crypto} (hg : g ∈ U) (hW : chain.Within k g U)
    {x y : Header} (hx : x ∈ chain.genesis :: chain.headers) (hy : y ∈ U)
    (hhash : k.hash x = k.hash y ∨ k.hash x = y.parentHash) : x ∈ U := by
  rcases mem_cons.mp hx with rfl | hx
  · rw [hW.genesis_eq]
    exact hg
  · exact hW.mem x hx y hy hhash

theorem BeforeSnake8.getHeader_eq (hU : BeforeSnake8 p g U) (hW : chain.Within p.k g U)
    {x : Header} (hmem : x ∈ U) (hx : x ∈ chain.genesis :: chain.headers) :
    chain.getHeader p.k (p.k.hash x) x.number = some x := by
  unfold ChainStore.getHeader
  have hfound : ∃ y, (chain.genesis :: chain.headers).find? (fun h =>
      decide (p.k.hash h = p.k.hash x ∧ h.number = x.number)) = some y := by
    rw [← Option.isSome_iff_exists, find?_isSome]
    exact ⟨x, hx, by simp⟩
  obtain ⟨y, hy⟩ := hfound
  have hsome := find?_some hy
  simp only [decide_eq_true_eq] at hsome
  have hyx : y = x := hU.hash_injOn
    (hW.mem_all hU.genesis_mem (mem_of_find?_eq_some hy) hmem (.inl hsome.1)) hmem hsome.1
  rw [hy, hyx]

theorem sub64_of_le {a b : ℕ} (hb : b ≤ a) : sub64 a b = a - b := if_pos hb

variable {H cs : List Header}

theorem BeforeSnake8.findParent_eq (hU : BeforeSnake8 p g U) (hW : chain.Within p.k g U)
    (hc : ∀ x ∈ cs, x ∈ U) {h : Header} (hH : Branch p.k g U (h :: H))
    (hstored : tip g H ∈ chain.genesis :: chain.headers) :
    findParent p.k chain cs h = some (tip g H) := by
  have hnumber : sub64 h.number 1 = (tip g H).number := by
    rw [sub64_of_le (by rw [hH.number_eq]; exact Nat.le_add_left 1 _), hH.number_eq,
      hH.tail.tip_number hU.genesis_number, Nat.add_sub_cancel]
  have hget : chain.getHeader p.k h.parentHash (sub64 h.number 1) = some (tip g H) := by
    rw [hnumber, hH.parentHash_eq]
    exact hU.getHeader_eq hW (hH.tail.tip_mem hU.genesis_mem) hstored
  unfold findParent
  simp only
  split
  · rename_i candidate hcandidate
    split
    · rename_i hmatch
      have hmem := hc candidate (mem_of_getElem? hcandidate)
      rw [hH.parentHash_eq] at hmatch
      rw [hU.hash_injOn hmem (hH.tail.tip_mem hU.genesis_mem) hmatch.2]
    · exact hget
  · exact hget

theorem BeforeSnake8.findAncientHeader_eq (hU : BeforeSnake8 p g U) (hW : chain.Within p.k g U)
    (hc : ∀ x ∈ cs, x ∈ U) :
    ∀ (i : ℕ) {H : List Header}, Branch p.k g U H → (∀ x ∈ H.tail, x ∈ chain.headers) →
      i ≤ H.length → findAncientHeader p.k chain cs i (tip g H) = some (tip g (H.drop i))
  | 0, H, _, _, _ => rfl
  | i + 1, [], _, _, hi => by simp at hi
  | i + 1, h :: H, hH, hstored, hi => by
    have htip : tip g H ∈ chain.genesis :: chain.headers := by
      cases H with
      | nil => rw [hW.genesis_eq]; exact mem_cons_self
      | cons h' H => exact mem_cons_of_mem _ (hstored h' mem_cons_self)
    have hrest := BeforeSnake8.findAncientHeader_eq hU hW hc i hH.tail
      (fun x hx => hstored x (mem_of_mem_tail hx)) (by simpa using hi)
    rw [tip_cons, findAncientHeader, hU.findParent_eq hW hc hH htip, drop_succ_cons]
    exact hrest

variable {parent : Header}

theorem findParent_sound {k : Crypto} (hg : g ∈ U) (hinj : Set.InjOn k.hash U)
    (hW : chain.Within k g U) (hc : ∀ x ∈ cs, x ∈ U) {h : Header} (hH : Branch k g U (h :: H))
    (hfound : findParent k chain cs h = some parent) : parent = tip g H := by
  have hsame : parent ∈ U → k.hash parent = h.parentHash → parent = tip g H := fun hmem hash =>
    hinj hmem (hH.tail.tip_mem hg) (hash.trans hH.parentHash_eq)
  have hget : ∀ number, chain.getHeader k h.parentHash number = some parent → parent = tip g H := by
    intro number hstored
    have hmatch := find?_some hstored
    simp only [decide_eq_true_eq] at hmatch
    exact hsame (hW.mem_all hg (mem_of_find?_eq_some hstored) (hH.tail.tip_mem hg)
      (.inl (hmatch.1.trans hH.parentHash_eq))) hmatch.1
  unfold findParent at hfound
  simp only at hfound
  split at hfound
  · rename_i candidate hcandidate
    split at hfound
    · rename_i hmatch
      obtain rfl := Option.some.inj hfound
      exact hsame (hc candidate (mem_of_getElem? hcandidate)) hmatch.2
    · exact hget _ hfound
  · exact hget _ hfound

theorem findAncientHeader_sound {k : Crypto} (hg : g ∈ U) (hinj : Set.InjOn k.hash U)
    (hW : chain.Within k g U) (hc : ∀ x ∈ cs, x ∈ U) {ancestor : Header} :
    ∀ (i : ℕ) {H : List Header}, Branch k g U H → i ≤ H.length →
      findAncientHeader k chain cs i (tip g H) = some ancestor → ancestor = tip g (H.drop i)
  | 0, H, _, _, hfound => (Option.some.inj hfound).symm
  | i + 1, [], _, hi, _ => by simp at hi
  | i + 1, h :: H, hH, hi, hfound => by
    obtain ⟨parent, hparent, hrest⟩ := Option.bind_eq_some_iff.mp hfound
    rw [findParent_sound hg hinj hW hc hH hparent] at hrest
    exact findAncientHeader_sound hg hinj hW hc i hH.tail (by simpa using hi) hrest

variable {hd : Header} {ps : List Header}

theorem getParent_ok (h : p.getParent chain hd ps = .ok parent) :
    (parent ∈ ps ∨ parent ∈ chain.genesis :: chain.headers) ∧
      parent.number = sub64 hd.number 1 ∧ p.k.hash parent = hd.parentHash := by
  unfold Parlia.getParent at h
  dsimp only at h
  split at h
  · cases h
  · rename_i found hfound
    split_ifs at h with hmatch
    obtain rfl := Except.ok.inj h
    rw [not_or, not_not, not_not] at hmatch
    refine ⟨?_, hmatch⟩
    split at hfound
    · rename_i last hlast
      exact .inl (Option.some.inj hfound ▸ mem_of_getLast? hlast)
    · exact .inr (mem_of_find?_eq_some hfound)

theorem getParent_mem (hgU : g ∈ U) (hW : chain.Within p.k g U) (hparents : ∀ x ∈ ps, x ∈ U)
    {x : Header} (hx : x ∈ U) (hparent : hd.parentHash = p.k.hash x ∨ hd.parentHash = x.parentHash)
    (h : p.getParent chain hd ps = .ok parent) : parent ∈ U := by
  obtain ⟨hmem, -, hhash⟩ := getParent_ok h
  rcases hmem with hmem | hmem
  · exact hparents parent hmem
  · exact hW.mem_all hgU hmem hx (by rwa [hhash])

theorem getParent_eq_tip (hgU : g ∈ U) (hinj : Set.InjOn p.k.hash U) (hW : chain.Within p.k g U)
    (hH : Branch p.k g U H) (hparent : hd.parentHash = p.k.hash (tip g H))
    (hparents : ∀ x ∈ ps, x ∈ U) (h : p.getParent chain hd ps = .ok parent) : parent = tip g H :=
  hinj (getParent_mem hgU hW hparents (hH.tip_mem hgU) (.inl hparent) h) (hH.tip_mem hgU)
    ((getParent_ok h).2.2.trans hparent)

/-- The genesis block has no parent: it would have the largest number of all. -/
theorem getParent_genesis (hg : g.number = 0) (hgU : g ∈ U) (hlt : ∀ x ∈ U, x.number + 1 < 2 ^ 64)
    (hW : chain.Within p.k g U) (hparents : ∀ x ∈ ps, x ∈ U) :
    p.getParent chain g ps ≠ .ok parent := by
  intro h
  have hnumber := (getParent_ok h).2.1
  have hlt := hlt parent (getParent_mem hgU hW hparents hgU (.inr rfl) h)
  rw [hnumber, hg] at hlt
  exact absurd hlt (by decide)

end Ancestors

end ChilizChain
