import ChilizChain.Parlia.PathIndependence

/-! Applying headers in one call or in two. The loop of `apply` leaves the block number of the
snapshot at the number it started from, and the recency check measures its window from there. On
a chain whose times do not decrease every recorded signer is inside the window at every step
(`Windowed`), so the block number makes no difference and the calls compose. -/

namespace ChilizChain

open List Except Snapshot

/-! ## Chains and reachable snapshots -/

/-- A chain of consecutive headers above `g`, newest first, whose times do not decrease. -/
structure Chronological (k : Crypto) (g : Header) (H : List Header) : Prop where
  genesis_number : g.number = 0
  branch : Branch k g Set.univ H
  times : (H ++ [g]).Pairwise fun later earlier => earlier.time ≤ later.time
  length_lt : H.length + 1 < 2 ^ 64

/-- The ancestors of every block of the chain are found. -/
def Resolves (k : Crypto) (g : Header) (chain : ChainStore) (parents H : List Header) : Prop :=
  ∀ h T, (h :: T) <:+ H → ∀ i ≤ h.number,
    findAncientHeader k chain parents i h = some (tip g ((h :: T).drop i))

/-- The snapshots that `apply` makes from the snapshot of the genesis block, with the headers
applied so far. -/
inductive Reachable (p : Parlia) (g : Header) : List Header → Snapshot → Prop
  | genesis {isSnake8Fork : Bool} {s : Snapshot}
      (h : p.checkpointSnapshot 0 isSnake8Fork g (p.k.hash g) defaultBlockInterval p.c.epoch =
        .ok s) : Reachable p g [] s
  | apply {N H parents : List Header} {chain : ChainStore} {isSnake8Fork : Bool}
      {s s' : Snapshot} (before : Reachable p g H s) (chronological : Chronological p.k g (N ++ H))
      (resolves : Resolves p.k g chain parents (N ++ H))
      (h : s.apply p.k p.c chain parents N.reverse isSnake8Fork = .ok s') :
      Reachable p g (N ++ H) s'

section Composition

variable {p : Parlia} {k : Crypto} {c : ChainConfig} {g : Header} {chain : ChainStore}
  {parents ps : List Header}

namespace Chronological

variable {N H : List Header} {h : Header}

theorem of_append (hH : Chronological k g (N ++ H)) : Chronological k g H where
  genesis_number := hH.genesis_number
  branch := hH.branch.of_append
  times := by
    have htimes := hH.times
    rw [append_assoc] at htimes
    exact (pairwise_append.mp htimes).2.1
  length_lt := by
    have := hH.length_lt
    rw [length_append] at this
    omega

section

variable (hH : Chronological k g (h :: H))
include hH

theorem tail : Chronological k g H :=
  of_append (N := [h]) hH

theorem time_le (i : ℕ) : (tip g ((h :: H).drop i)).time ≤ h.time := by
  cases i with
  | zero => exact Nat.le_refl _
  | succ i =>
    have hmem : tip g (H.drop i) ∈ H ++ [g] := by
      cases hdrop : H.drop i with
      | nil => simp
      | cons x rest =>
        have hx : x ∈ H := mem_of_mem_drop (hdrop ▸ mem_cons_self)
        exact mem_append_left _ hx
    exact (pairwise_cons.mp hH.times).1 _ hmem

theorem isBohr_ancestor (i : ℕ) (hbohr : c.isBohr h.number h.time = false) :
    c.isBohr (tip g ((h :: H).drop i)).number (tip g ((h :: H).drop i)).time = false := by
  rw [Bool.eq_false_iff] at hbohr ⊢
  intro hancestor
  apply hbohr
  unfold ChainConfig.isBohr ChainConfig.isLondon at hancestor ⊢
  rw [Bool.and_eq_true] at hancestor ⊢
  have hdrop : Branch k g Set.univ ((h :: H).drop i) := by
    apply Branch.of_append (N := (h :: H).take i)
    rw [take_append_drop]
    exact hH.branch
  refine ⟨isForked_mono ?_ hancestor.1, isForked_mono (hH.time_le i) hancestor.2⟩
  rw [hdrop.tip_number hH.genesis_number, hH.branch.number_eq, length_drop, length_cons]
  omega

end

end Chronological

theorem Resolves.of_append {N H : List Header} (hH : Resolves k g chain ps (N ++ H)) :
    Resolves k g chain ps H :=
  fun h T hsuffix => hH h T (hsuffix.trans (suffix_append N H))

/-! ## What every step keeps -/

/-- The recorded signers are in the window of the last block, and before Bohr the turn length is
one. -/
structure Windowed (c : ChainConfig) (g : Header) (H : List Header) (s : Snapshot) : Prop where
  inWindow : s.InWindow H.length
  turnLength_eq_one : c.isBohr (tip g H).number (tip g H).time = false → s.turnLength = 1

namespace Windowed

variable {H : List Header} {h : Header} {s s' : Snapshot}

theorem applyHeader (hs : Windowed c g H s) (hH : Chronological k g (h :: H))
    (hfind : Resolves k g chain ps (h :: H))
    (happly : s.applyHeader k c chain ps h = .ok s') : Windowed c g (h :: H) s' := by
  have hlt : H.length + 1 < 2 ^ 64 := by
    have := hH.length_lt
    rw [length_cons] at this
    omega
  obtain ⟨hwindow, hone⟩ := hs.inWindow.applyHeader hH.branch.number_eq hlt
    (fun hbohr => hs.turnLength_eq_one (hH.isBohr_ancestor 1 hbohr))
    (fun hbohr checkpoint hle hfound => by
      rw [hfind h H (suffix_refl _) _ hle] at hfound
      rw [← Option.some.inj hfound]
      exact hH.isBohr_ancestor _ hbohr)
    happly
  exact ⟨hwindow, hone⟩

theorem foldlM (hs : Windowed c g H s) : ∀ {N : List Header} {s' : Snapshot},
    Chronological k g (N ++ H) → Resolves k g chain ps (N ++ H) →
    N.reverse.foldlM (Snapshot.applyHeader k c chain ps) s = .ok s' →
    Windowed c g (N ++ H) s' ∧ s'.number = s.number ∧ s'.isSnake8Fork = s.isSnake8Fork ∧
      s'.frequencyRLP = s.frequencyRLP
  | [], s', _, _, happly => by
    obtain rfl : s = s' := Except.ok.inj happly
    exact ⟨hs, rfl, rfl, rfl⟩
  | h :: N, s', hH, hfind, happly => by
    rw [reverse_cons, foldlM_append] at happly
    obtain ⟨t, hbelow, happly⟩ := bind_eq_ok.mp happly
    simp only [foldlM_cons, foldlM_nil, bind_pure] at happly
    obtain ⟨ht, hnumber, hflag, hfreq⟩ :=
      foldlM hs hH.tail (Resolves.of_append (N := [h]) hfind) hbelow
    obtain ⟨hnumber', hflag', hfreq'⟩ := applyHeader_frame happly
    exact ⟨ht.applyHeader hH hfind happly, hnumber'.trans hnumber, hflag'.trans hflag,
      hfreq'.trans hfreq⟩

theorem foldlM_relocate (hs : Windowed c g H s) (hnumber : s.number ≤ H.length) {m : ℕ}
    (hm : m ≤ H.length) (hash : Hash) : ∀ {N : List Header},
    Chronological k g (N ++ H) → Resolves k g chain ps (N ++ H) →
    N.reverse.foldlM (Snapshot.applyHeader k c chain ps) (s.relocate m hash) =
      (·.relocate m hash) <$> N.reverse.foldlM (Snapshot.applyHeader k c chain ps) s
  | [], _, _ => rfl
  | h :: N, hH, hfind => by
    have hbelow := Resolves.of_append (N := [h]) hfind
    rw [reverse_cons, foldlM_append, foldlM_append,
      foldlM_relocate hs hnumber hm hash hH.tail hbelow]
    cases hprev : N.reverse.foldlM (Snapshot.applyHeader k c chain ps) s with
    | error e => rfl
    | ok t =>
      obtain ⟨ht, htnumber, -⟩ := hs.foldlM hH.tail hbelow hprev
      have hhnumber : h.number = (N ++ H).length + 1 := hH.branch.number_eq
      have hle : H.length ≤ (N ++ H).length := by
        rw [length_append]
        omega
      have hwindow : (t.expire h.number).InWindow h.number := by
        have hlt := hH.length_lt
        rw [cons_append, length_cons] at hlt
        rw [hhnumber]
        exact ht.inWindow.expire (by omega)
      simp only [map_eq_ok, ok_bind, foldlM_cons, foldlM_nil, bind_pure]
      exact applyHeader_relocate hwindow (by omega) (by omega) hash

end Windowed

theorem Resolves.foldlM_eq {chain' : ChainStore} {parents' H : List Header} (s : Snapshot) :
    ∀ {N : List Header}, Resolves k g chain ps (N ++ H) → Resolves k g chain' parents' (N ++ H) →
      N.reverse.foldlM (Snapshot.applyHeader k c chain ps) s =
        N.reverse.foldlM (Snapshot.applyHeader k c chain' parents') s
  | [], _, _ => rfl
  | h :: N, hfind, hfind' => by
    rw [reverse_cons, foldlM_append, foldlM_append,
      foldlM_eq s (of_append (N := [h]) hfind) (of_append (N := [h]) hfind')]
    refine bind_congr fun t => ?_
    simp only [foldlM_cons, foldlM_nil, bind_pure]
    refine applyHeader_congr fun hswitch => ?_
    have hle : t.minerHistoryCheckLen ≤ h.number := hswitch ▸ Nat.mod_le _ _
    rw [hfind h _ (suffix_refl _) _ hle, hfind' h _ (suffix_refl _) _ hle]

/-! ## Calls of `apply` -/

namespace Reachable

variable {H : List Header} {s : Snapshot}

theorem filed (hs : Reachable p g H s) :
    s.number = H.length ∧ s.hash = p.k.hash (tip g H) ∧ Windowed p.c g H s := by
  induction hs with
  | genesis h =>
    obtain ⟨⟨validators, voteAddrs⟩, -, h⟩ := bind_eq_ok.mp h
    obtain ⟨turnLength, hturn, h⟩ := bind_eq_ok.mp h
    obtain rfl := Except.ok.inj h
    refine ⟨rfl, rfl, fun block signer hentry => ?_, fun hbohr => ?_⟩
    · simp [newSnapshot] at hentry
    · rw [parseTurnLength_of_not_isBohr (h := g) hbohr] at hturn
      obtain rfl := Except.ok.inj hturn
      rfl
  | @apply N H ps chain fork s s' before chronological resolves h ih =>
    obtain ⟨hnumber, hhash, hs⟩ := ih
    by_cases hN : N = []
    · subst hN
      obtain rfl := Except.ok.inj h
      exact ⟨hnumber, hhash, hs.inWindow, hs.turnLength_eq_one⟩
    · rw [chronological.branch.apply_eq chronological.genesis_number hN hnumber hhash] at h
      obtain ⟨t, hloop, rfl⟩ := map_eq_ok_iff.mp h
      have hstart : Windowed p.c g H { s with isSnake8Fork := fork }.copy :=
        ⟨hs.inWindow, hs.turnLength_eq_one⟩
      obtain ⟨ht, -⟩ := hstart.foldlM chronological resolves hloop
      exact ⟨rfl, rfl, ht.inWindow, ht.turnLength_eq_one⟩

variable {N : List Header}

section

variable (hs : Reachable p g H s)
include hs

theorem apply_lookup (hH : Chronological p.k g (N ++ H))
    {chain' : ChainStore} {parents' : List Header} (hfind : Resolves p.k g chain ps (N ++ H))
    (hfind' : Resolves p.k g chain' parents' (N ++ H)) (fork : Bool) :
    s.apply p.k p.c chain ps N.reverse fork = s.apply p.k p.c chain' parents' N.reverse fork := by
  obtain ⟨hnumber, hhash, -⟩ := hs.filed
  by_cases hN : N = []
  · subst hN
    rfl
  · rw [hH.branch.apply_eq hH.genesis_number hN hnumber hhash,
      hH.branch.apply_eq hH.genesis_number hN hnumber hhash, hfind.foldlM_eq _ hfind']

theorem apply_isSnake8Fork (hH : Chronological p.k g (N ++ H))
    (hfind : Resolves p.k g chain ps (N ++ H)) {fork : Bool} {t : Snapshot}
    (h : s.apply p.k p.c chain ps N.reverse fork = .ok t) : t.isSnake8Fork = fork := by
  obtain ⟨hnumber, hhash, hwindow⟩ := hs.filed
  by_cases hN : N = []
  · subst hN
    obtain rfl := Except.ok.inj h
    rfl
  · rw [hH.branch.apply_eq hH.genesis_number hN hnumber hhash] at h
    obtain ⟨x, hloop, rfl⟩ := map_eq_ok_iff.mp h
    have hstart : Windowed p.c g H { s with isSnake8Fork := fork }.copy :=
      ⟨hwindow.inWindow, hwindow.turnLength_eq_one⟩
    obtain ⟨-, -, hflag, -⟩ := hstart.foldlM hH hfind hloop
    exact hflag

/-- Two calls on neighbouring runs of headers, neither of them empty, and one call on both. -/
theorem apply_append {M : List Header} (hM : M ≠ []) (hN : N ≠ [])
    (hH : Chronological p.k g (N ++ (M ++ H)))
    (hfind : Resolves p.k g chain ps (N ++ (M ++ H))) (fork : Bool) :
    s.apply p.k p.c chain ps (M.reverse ++ N.reverse) fork = (do
      let t ← s.apply p.k p.c chain ps M.reverse fork
      t.apply p.k p.c chain ps N.reverse fork) := by
  obtain ⟨hnumber, hhash, hwindow⟩ := hs.filed
  have hstart : Windowed p.c g H { s with isSnake8Fork := fork }.copy :=
    ⟨hwindow.inWindow, hwindow.turnLength_eq_one⟩
  have hboth : Branch p.k g Set.univ ((N ++ M) ++ H) := by
    rw [append_assoc]
    exact hH.branch
  rw [← reverse_append,
    hboth.apply_eq hH.genesis_number (by simp [hM]) hnumber hhash,
    hH.of_append.branch.apply_eq hH.genesis_number hM hnumber hhash, reverse_append,
    foldlM_append]
  cases hfirst : M.reverse.foldlM (Snapshot.applyHeader p.k p.c chain ps)
      { s with isSnake8Fork := fork }.copy with
  | error e => rfl
  | ok t =>
    obtain ⟨ht, htnumber, hflag, hfreq⟩ := hstart.foldlM hH.of_append hfind.of_append hfirst
    have hle : t.number ≤ (M ++ H).length := by
      rw [htnumber, length_append]
      exact hnumber.le.trans (Nat.le_add_left _ _)
    -- the first call leaves nothing for `copy` and the flag to change
    have hcopy : { t.relocate (M ++ H).length (p.k.hash (tip g (M ++ H))) with
        isSnake8Fork := fork }.copy =
          t.relocate (M ++ H).length (p.k.hash (tip g (M ++ H))) := by
      cases t
      cases hflag
      cases hfreq
      rfl
    simp only [map_eq_ok, ok_bind]
    rw [hH.branch.apply_eq hH.genesis_number hN rfl rfl, hcopy,
      ht.foldlM_relocate hle (Nat.le_refl _) _ hH hfind, Functor.map_map, append_assoc]
    rfl

theorem apply_append_ok_iff {headers₁ headers₂ : List Header}
    (hH : Chronological p.k g (headers₂.reverse ++ (headers₁.reverse ++ H)))
    (hfind : Resolves p.k g chain ps (headers₂.reverse ++ (headers₁.reverse ++ H)))
    (fork : Bool) (t : Snapshot) : s.apply p.k p.c chain ps (headers₁ ++ headers₂) fork = .ok t ↔
      ∃ t₁, s.apply p.k p.c chain ps headers₁ fork = .ok t₁ ∧
        t₁.apply p.k p.c chain ps headers₂ fork = .ok t := by
  by_cases h₁ : headers₁ = []
  · -- an empty first call only sets the flag
    subst h₁
    have hempty : s.apply p.k p.c chain ps [] fork =
        .ok { s with isSnake8Fork := fork } := rfl
    simp only [nil_append, hempty, Except.ok.injEq, exists_eq_left']
    rfl
  by_cases h₂ : headers₂ = []
  · -- an empty second call changes nothing, the flag is already set
    subst h₂
    have hflag : ∀ t₁, s.apply p.k p.c chain ps headers₁ fork = .ok t₁ →
        t₁.apply p.k p.c chain ps [] fork = .ok t₁ := by
      intro t₁ ht₁
      have h := hs.apply_isSnake8Fork hH.of_append hfind.of_append
        (by rw [reverse_reverse]; exact ht₁)
      rw [Snapshot.apply, ← h]
      rfl
    rw [append_nil]
    constructor
    · exact fun ht => ⟨t, ht, hflag t ht⟩
    · rintro ⟨t₁, ht₁, ht⟩
      rwa [← Except.ok.inj ((hflag t₁ ht₁).symm.trans ht)]
  · have h := hs.apply_append (M := headers₁.reverse) (N := headers₂.reverse) (by simpa)
      (by simpa) hH hfind fork
    rw [reverse_reverse, reverse_reverse] at h
    rw [h, bind_eq_ok]

end

/-- **`apply` composes.** On a chain whose times do not decrease, applying two neighbouring runs
of headers in one call succeeds exactly when applying them one after the other does, and the
snapshots are equal. -/
theorem apply_append_iff (hs : Reachable p g H s) {headers₁ headers₂ : List Header}
    (hH : Chronological p.k g (headers₂.reverse ++ (headers₁.reverse ++ H)))
    {chain₁ chain₂ : ChainStore} {parents₁ parents₂ : List Header}
    (hfind : Resolves p.k g chain parents (headers₂.reverse ++ (headers₁.reverse ++ H)))
    (hfind₁ : Resolves p.k g chain₁ parents₁ (headers₁.reverse ++ H))
    (hfind₂ : Resolves p.k g chain₂ parents₂ (headers₂.reverse ++ (headers₁.reverse ++ H)))
    (isSnake8Fork : Bool) (t : Snapshot) :
    s.apply p.k p.c chain parents (headers₁ ++ headers₂) isSnake8Fork = .ok t ↔
      ∃ t₁, s.apply p.k p.c chain₁ parents₁ headers₁ isSnake8Fork = .ok t₁ ∧
        t₁.apply p.k p.c chain₂ parents₂ headers₂ isSnake8Fork = .ok t := by
  have hfirst : ∀ r, s.apply p.k p.c chain₁ parents₁ headers₁ isSnake8Fork = r ↔
      s.apply p.k p.c chain parents headers₁ isSnake8Fork = r := by
    intro r
    have h := hs.apply_lookup hH.of_append hfind₁ hfind.of_append isSnake8Fork
    rw [reverse_reverse] at h
    rw [h]
  have hsecond : ∀ t₁, s.apply p.k p.c chain parents headers₁ isSnake8Fork = .ok t₁ →
      t₁.apply p.k p.c chain₂ parents₂ headers₂ isSnake8Fork =
        t₁.apply p.k p.c chain parents headers₂ isSnake8Fork := by
    intro t₁ ht₁
    have hreach : Reachable p g (headers₁.reverse ++ H) t₁ :=
      .apply hs hH.of_append hfind.of_append (by rw [reverse_reverse]; exact ht₁)
    have h := hreach.apply_lookup hH hfind₂ hfind isSnake8Fork
    rwa [reverse_reverse] at h
  rw [hs.apply_append_ok_iff hH hfind]
  constructor
  · rintro ⟨t₁, ht₁, ht⟩
    exact ⟨t₁, (hfirst _).mpr ht₁, (hsecond t₁ ht₁).trans ht⟩
  · rintro ⟨t₁, ht₁, ht⟩
    have ht₁ := (hfirst _).mp ht₁
    exact ⟨t₁, ht₁, (hsecond t₁ ht₁).symm.trans ht⟩

end Reachable

end Composition

/-! ## A chain whose times decrease -/

namespace Sample

theorem early_chronological : Chronological crypto genesis [block2, block1] where
  genesis_number := rfl
  branch := .block (.block .genesis trivial rfl rfl) trivial rfl rfl
  times := by decide
  length_lt := by decide

theorem early_resolves : Resolves crypto genesis (chain [block1, block2]) [] [block2, block1] := by
  intro h T hsuffix i hi
  have hbranch : Branch crypto genesis early (h :: T) := by
    obtain ⟨N, hN⟩ := hsuffix
    exact Branch.of_append (hN ▸ early_branch)
  have hwithin : (chain [block1, block2]).Within crypto genesis early :=
    .of_subset rfl fun _ hmem => mem_cons_of_mem genesis hmem
  refine early_beforeSnake8.findAncientHeader_eq hwithin (by simp) i hbranch ?_ ?_
  · intro x hx
    have hmem := hsuffix.subset (mem_of_mem_tail hx)
    simpa [chain, or_comm] using hmem
  · rw [length_cons, ← hbranch.number_eq]
    exact hi

/-- Bohr activates at time 10; epochs of four blocks. -/
def bohrConfig : ChainConfig :=
  { (default : ChainConfig) with
    epoch := 4, epoch_pos := by decide, londonBlock := some 0, lubanBlock := some 0,
    bohrTime := some 10 }

/-- The validators section of an epoch block after Bohr, with three validators. -/
def epochSection (turnLength : UInt8) : Bytes :=
  let key := List.replicate 48 0
  3 :: ((addr 1).bytes ++ key ++ (addr 2).bytes ++ key ++ (addr 3).bytes ++ key ++ [turnLength])

def timed (time : ℕ) (header : Header) : Header := { header with time := time }

def turn0 : Header := { genesis with
  time := 10
  extra := vanity ++ (epochSection 2 ++ sealOf (addr 0)) }
def turn1 : Header := timed 11 (child turn0 (addr 1) [])
def turn2 : Header := timed 12 (child turn1 (addr 1) [])
def turn3 : Header := timed 13 (child turn2 (addr 2) [])
def turn4 : Header := timed 14 (child turn3 (addr 1) (epochSection 1))
def turn5 : Header := timed 15 (child turn4 (addr 1) [])
def turn6 : Header := timed 16 (child turn5 (addr 2) [])
def turn7 : Header := timed 9 (child turn6 (addr 3) [])
def turn8 : Header := timed 18 (child turn7 (addr 1) [])

def bohrApply (headers : List Header) (s : Snapshot) : Except Err Snapshot :=
  s.apply crypto bohrConfig
    ⟨turn0, rfl, [turn1, turn2, turn3, turn4, turn5, turn6, turn7, turn8], fun _ => none⟩
    [] headers false

/-- The snapshot of the fifth block. -/
def turnSnap : Except Err Snapshot := do
  let s ← Parlia.checkpointSnapshot ⟨crypto, bohrConfig, 90000, false⟩ 0 false turn0
    (crypto.hash turn0) defaultBlockInterval bohrConfig.epoch
  bohrApply [turn1, turn2, turn3, turn4, turn5] s

end Sample

open Sample in
/-- Blocks 1 and 2 on top of the genesis block. -/
theorem apply_append_iff_early : Chronological crypto genesis [block2, block1] ∧ ∀ t,
    genesisSnap.apply crypto engine.c (chain [block1, block2]) [] ([block1] ++ [block2]) false =
      .ok t ↔
    ∃ t₁, genesisSnap.apply crypto engine.c (chain [block1, block2]) [] [block1] false = .ok t₁ ∧
      t₁.apply crypto engine.c (chain [block1, block2]) [] [block2] false = .ok t := by
  have hgenesis : engine.checkpointSnapshot 0 false genesis (crypto.hash genesis)
      defaultBlockInterval engine.c.epoch = .ok genesisSnap := by decide +kernel
  refine ⟨early_chronological, fun t => ?_⟩
  refine Reachable.apply_append_iff (p := engine) (.genesis hgenesis) ?_ ?_ ?_ ?_ false t
  · exact early_chronological
  · exact early_resolves
  · exact Resolves.of_append (N := [block2]) early_resolves
  · exact early_resolves

open Sample in
/-- Block 7 is dated before Bohr although its checkpoint header is not: the turn length drops to
one and the recent signers stay. Block 8 is then refused inside a batch, where the window is
measured from block 5, and accepted on its own. -/
theorem apply_append_decreasing_times :
    (turnSnap >>= bohrApply [turn6, turn7] >>= bohrApply [turn8]).isOk = true ∧
    (turnSnap >>= bohrApply ([turn6, turn7] ++ [turn8])).map (·.number) =
      .error .errRecentlySigned := by
  decide +kernel

end ChilizChain
