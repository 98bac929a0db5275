import ChilizChain.Parlia.Window

/-! Spam protection. `verifySeal` refuses a signer that has `turnLength` blocks in the window, so
none can sign more than `turnLength` of any `(N / 2 + 1) * turnLength` consecutive blocks, unless
a validator-set switch after Bohr clears the recent signers in between. The counters cannot
overflow in any case. -/

namespace ChilizChain

open Snapshot List FixedBytes

/-- A block accepted by `verifySeal` that leaves the number of validators and the turn length as
they are. The number of its successor is a `uint64`. -/
structure SteadySealed (p : Parlia) (_ : List (Header × Snapshot)) (s : Snapshot)
    (header : Header) (s' : Snapshot) : Prop where
  sealed : p.checkSeal header s = .ok ()
  advances : ∃ chain parents isSnake8Fork extraHeader,
    p.advance chain parents isSnake8Fork extraHeader s header = .ok s'
  nothing_finalized : s.NothingFinalized p.c header
  turnLength_eq : s'.turnLength = s.turnLength
  size_eq : s'.validators.size = s.validators.size
  number_lt : header.number + 1 < 2 ^ 64

/-- No signer counts more blocks than its turn length. -/
def SpamSafe (s : Snapshot) : Prop :=
  ∀ validator ≠ FixedBytes.zero 20, (s.recentBlocks validator).length ≤ s.turnLength

section Step

variable {p : Parlia} {H : List (Header × Snapshot)} {s s' : Snapshot} {hd : Header}

theorem SteadySealed.regular (h : SteadySealed p H s hd s') : Regular p s hd s' where
  advances := h.advances
  nothing_finalized := h.nothing_finalized
  turnLength_eq := h.turnLength_eq
  size_le := h.size_eq.le
  half_eq := .inr (by rw [h.size_eq])
  number_lt := h.number_lt

theorem SteadySealed.minerHistoryCheckLen_eq (h : SteadySealed p H s hd s') :
    s'.minerHistoryCheckLen = s.minerHistoryCheckLen :=
  minerHistoryCheckLen_congr h.turnLength_eq (by rw [h.size_eq])

variable {val : Address}

theorem SteadySealed.free (h : SteadySealed p H s hd s')
    (hsigner : ecrecover p.k hd = .ok val) : s.signRecently val = false := by
  have hsealed := h.sealed
  unfold Parlia.checkSeal at hsealed
  rw [hsigner] at hsealed
  simp only [Except.ok_bind, Except.throw_eq_error, Except.error_bind] at hsealed
  split_ifs at hsealed with hcoinbase hmem hrecent <;> exact Bool.eq_false_iff.mpr hrecent

theorem recentBlocks_lt_of_free (hpos : 0 < s.turnLength) (hbyte : s.turnLength < 256)
    (hle : (s.recentBlocks val).length ≤ s.turnLength) (hfree : s.signRecently val = false) :
    (s.recentBlocks val).length < s.turnLength := by
  unfold signRecently at hfree
  dsimp only at hfree
  rw [Nat.mod_eq_of_lt (by omega)] at hfree
  by_contra hge
  simp only [Bool.and_eq_false_iff, Bool.not_eq_false', List.isEmpty_iff, decide_eq_false_iff_not]
    at hfree
  rcases hfree with hnil | hlt
  · rw [hnil, List.length_nil] at hge
    omega
  · omega

theorem SteadySealed.mem_recentBlocks_or (h : SteadySealed p H s hd s') {signer : Address}
    (hstep : RecentsStep s hd signer (ClearsRecents p.c (hd, s)) s')
    (hne : val ≠ zero 20) {block : ℕ} (hblock : block ∈ s'.recentBlocks val) :
    (block = s.number + 1 ∧ val = signer) ∨ block ∈ s.recentBlocks val := by
  obtain ⟨hentry, hpos, hwindow⟩ := (mem_recentBlocks hne).mp hblock
  rw [hstep.number, h.minerHistoryCheckLen_eq] at hwindow
  rcases hstep.sound block val hentry hne with hnew | hold
  · exact .inl hnew
  · exact .inr ((mem_recentBlocks hne).mpr ⟨hold, hpos, by omega⟩)

theorem SpamSafe.next (hs : SpamSafe s) (h : SteadySealed p H s hd s')
    (hpos : 0 < s.turnLength) (hbyte : s.turnLength < 256)
    (hlimit : (s.validators.size / 2 + 1) * s.turnLength < 2 ^ 64) : SpamSafe s' := by
  obtain ⟨signer, hsigner, hstep⟩ := h.regular.step hpos hlimit
  intro val hne
  rw [h.turnLength_eq]
  by_cases hsame : val = signer
  · subst hsame
    have hlt := recentBlocks_lt_of_free hpos hbyte (hs val hne) (h.free hsigner)
    have hsubset : s'.recentBlocks val ⊆ (s.number + 1) :: s.recentBlocks val := by
      intro block hblock
      rcases h.mem_recentBlocks_or hstep hne hblock with ⟨rfl, -⟩ | hold
      · exact mem_cons_self
      · exact mem_cons_of_mem _ hold
    have hle := (subperm_of_subset (s'.nodup_recentBlocks val) hsubset).length_le
    rw [length_cons] at hle
    omega
  · have hsubset : s'.recentBlocks val ⊆ s.recentBlocks val := by
      intro block hblock
      rcases h.mem_recentBlocks_or hstep hne hblock with ⟨-, heq⟩ | hold
      · exact absurd heq hsame
      · exact hold
    exact (subperm_of_subset (s'.nodup_recentBlocks val) hsubset).length_le.trans
      (hs val hne)

end Step

/-! ## Whole runs -/

section Runs

variable {p : Parlia} {s₀ s : Snapshot} {H : List (Header × Snapshot)}

/-- What a run of accepted blocks starts from. -/
structure SteadyStart (s₀ : Snapshot) : Prop where
  turnLength_pos : 0 < s₀.turnLength
  turnLength_lt : s₀.turnLength < 256
  window_lt : (s₀.validators.size / 2 + 1) * s₀.turnLength < 2 ^ 64
  safe : SpamSafe s₀

/-- What every block of the run finds. -/
structure SteadyState (s₀ s : Snapshot) : Prop where
  turnLength_eq : s.turnLength = s₀.turnLength
  size_eq : s.validators.size = s₀.validators.size
  safe : SpamSafe s

theorem SteadyState.of_run (hstart : SteadyStart s₀) (hrun : Run (SteadySealed p) s₀ H s) :
    SteadyState s₀ s := by
  induction hrun with
  | start => exact ⟨rfl, rfl, hstart.safe⟩
  | next before h ih =>
    refine ⟨h.turnLength_eq.trans ih.turnLength_eq, h.size_eq.trans ih.size_eq,
      ih.safe.next h ?_ ?_ ?_⟩
    · exact ih.turnLength_eq ▸ hstart.turnLength_pos
    · exact ih.turnLength_eq ▸ hstart.turnLength_lt
    · rw [ih.turnLength_eq, ih.size_eq]
      exact hstart.window_lt

theorem SteadyState.minerHistoryCheckLen_eq (h : SteadyState s₀ s) :
    s.minerHistoryCheckLen = s₀.minerHistoryCheckLen :=
  minerHistoryCheckLen_congr h.turnLength_eq (by rw [h.size_eq])

theorem signedCount_le_recentBlocks {w earlier : List (Header × Snapshot)}
    (htracks : Tracks p s₀ (w ++ earlier) s) (hw : w.length ≤ s.minerHistoryCheckLen)
    (hclears : ∀ b ∈ w, ¬ClearsRecents p.c b) {val : Address} (hne : val ≠ zero 20) :
    signedCount p.k val (w.map Prod.fst) ≤ (s.recentBlocks val).length := by
  have hnodup : (((w.map Prod.fst).filter fun hd =>
      ecrecover p.k hd = .ok val).map Header.number).Nodup := by
    have hall : ((w.map Prod.fst).map Header.number).Nodup := by
      rw [map_map]
      exact htracks.nodup_numbers.sublist ((sublist_append_left w earlier).map _)
    exact hall.sublist (filter_sublist.map _)
  have hsubset : ((w.map Prod.fst).filter fun hd =>
      ecrecover p.k hd = .ok val).map Header.number ⊆ s.recentBlocks val := by
    intro block hblock
    simp only [mem_map, mem_filter, decide_eq_true_eq] at hblock
    obtain ⟨hd, ⟨⟨b, hb, rfl⟩, hsigned⟩, rfl⟩ := hblock
    obtain ⟨i, hi, rfl⟩ := getElem_of_mem hb
    have hget : (w ++ earlier)[i]? = some w[i] := by
      rw [getElem?_append_left hi, getElem?_eq_getElem hi]
    have hnumber := htracks.numbers i _ hget
    have hpositive : 0 < w[i].1.number := by
      have hlength := htracks.number
      rw [length_append] at hlength
      omega
    refine (mem_recentBlocks hne).mpr ⟨?_, hpositive, by omega⟩
    refine htracks.complete i _ hget (by omega) (fun x hx => hclears x ?_) val hsigned
    rw [take_append_of_le_length (by omega)] at hx
    exact mem_of_mem_take hx
  have hle := (subperm_of_subset hnodup hsubset).length_le
  rwa [length_map, ← countP_eq_length_filter] at hle

/-- The signers of a list of headers. -/
def signersOf (k : Crypto) (headers : List Header) : Finset Address :=
  (headers.filterMap fun h => (ecrecover k h).toOption).toFinset

theorem length_le_card_signersOf {k : Crypto} {headers : List Header} {bound : ℕ}
    (hsigned : ∀ h ∈ headers, ∃ signer, ecrecover k h = .ok signer)
    (hbound : ∀ signer, signedCount k signer headers ≤ bound) :
    headers.length ≤ (signersOf k headers).card * bound := by
  have hlength : (headers.filterMap fun h => (ecrecover k h).toOption).length =
      headers.length := by
    rw [length_filterMap_eq_countP, countP_eq_length]
    intro h hh
    obtain ⟨signer, hsigner⟩ := hsigned h hh
    simp [hsigner, Except.toOption]
  have hcount : ∀ signer, (headers.filterMap fun h => (ecrecover k h).toOption).count signer =
      signedCount k signer headers := by
    intro signer
    rw [count_filterMap, signedCount]
    refine countP_congr fun h _ => ?_
    cases ecrecover k h <;> simp [Except.toOption]
  rw [← hlength, ← sum_toFinset_count_eq_length, ← smul_eq_mul]
  exact Finset.sum_le_card_nsmul _ _ _ fun signer _ => (hcount signer).trans_le (hbound signer)

theorem signedCount_zero {k : Crypto}
    (hzero : ∀ digest signature, k.recover digest signature ≠ some (zero 20))
    (headers : List Header) : signedCount k (zero 20) headers = 0 := by
  refine countP_eq_zero.mpr fun h _ => ?_
  rw [decide_eq_true_eq]
  intro hsigner
  unfold ecrecover at hsigner
  dsimp only at hsigner
  split_ifs at hsigner
  split at hsigner
  · rename_i signer hrecover
    rw [Except.ok.inj hsigner] at hrecover
    exact hzero _ _ hrecover
  · cases hsigner

theorem signed_of_run (hstart : SteadyStart s₀) (hrun : Run (SteadySealed p) s₀ H s) :
    ∀ b ∈ H, ∃ signer, ecrecover p.k b.1 = .ok signer := by
  induction hrun with
  | start => simp
  | next before h ih =>
    have hstate := SteadyState.of_run hstart before
    obtain ⟨signer, hsigner, -⟩ := h.regular.step (hstate.turnLength_eq ▸ hstart.turnLength_pos)
      (by rw [hstate.turnLength_eq, hstate.size_eq]; exact hstart.window_lt)
    intro b hb
    rcases mem_cons.mp hb with rfl | hb
    · exact ⟨signer, hsigner⟩
    · exact ih b hb

theorem signedCount_le_turnLength (hstart : SteadyStart s₀)
    {b : Header × Snapshot} {w earlier : List (Header × Snapshot)}
    (hrun : Run (SteadySealed p) s₀ (b :: (w ++ earlier)) s)
    (hw : w.length = s₀.minerHistoryCheckLen) (hclears : ∀ x ∈ w, ¬ClearsRecents p.c x)
    {val : Address} (hne : val ≠ zero 20) :
    signedCount p.k val ((b :: w).map Prod.fst) ≤ s₀.turnLength := by
  have hbefore := hrun.before
  have hstate := SteadyState.of_run hstart hbefore
  have htracks : Tracks p s₀ (w ++ earlier) b.2 :=
    .of_run (fun _ _ _ _ h => h.regular) hstart.turnLength_pos hstart.window_lt hbefore
  have hcounted := signedCount_le_recentBlocks htracks
    (by rw [hw, hstate.minerHistoryCheckLen_eq]) hclears hne
  have hbound := hstate.safe val hne
  rw [hstate.turnLength_eq] at hbound
  rw [map_cons, signedCount, countP_cons]
  rw [signedCount] at hcounted
  split_ifs with hsigned
  · -- the signer of the last block had a free turn
    have hlt := recentBlocks_lt_of_free (hstate.turnLength_eq ▸ hstart.turnLength_pos)
      (hstate.turnLength_eq ▸ hstart.turnLength_lt) (hstate.safe val hne)
      (hrun.last.free (of_decide_eq_true hsigned))
    rw [hstate.turnLength_eq] at hlt
    omega
  · omega

/-- **Spam protection.** In every run of blocks accepted by `verifySeal` with a constant number of
validators and a constant turn length, a validator signs at most `turnLength` of any
`(N / 2 + 1) * turnLength` consecutive blocks, which hence have at least `N / 2 + 1` signers,
unless a switch after Bohr clears the recent signers inside the window. The byte that counts the
blocks of a validator never wraps. -/
theorem spam_protection (hstart : SteadyStart s₀)
    (hzero : ∀ digest signature, p.k.recover digest signature ≠ some (FixedBytes.zero 20))
    (hrun : Run (SteadySealed p) s₀ H s) :
    (∀ later window earlier, H = later ++ (window ++ earlier) →
      window.length = (s₀.validators.size / 2 + 1) * s₀.turnLength →
      (∀ b ∈ window.tail, ¬ClearsRecents p.c b) →
      (∀ validator, signedCount p.k validator (window.map Prod.fst) ≤ s₀.turnLength) ∧
        s₀.validators.size / 2 + 1 ≤ (signersOf p.k (window.map Prod.fst)).card) ∧
    ∀ validator ≠ FixedBytes.zero 20, (s.recentBlocks validator).length ≤ s.turnLength ∧
      (s.recentBlocks validator).length % 256 = (s.recentBlocks validator).length := by
  constructor
  · intro later window earlier hH hlength hclears
    have hlen := minerHistoryCheckLen_succ hstart.turnLength_pos
    cases window with
    | nil => simp only [List.length_nil] at hlength; omega
    | cons b w =>
      rw [hH, cons_append] at hrun
      obtain ⟨s₁, hrun₁⟩ := Run.of_append (a := b.1) (s := b.2) hrun
      rw [length_cons] at hlength
      have hcount : ∀ validator,
          signedCount p.k validator ((b :: w).map Prod.fst) ≤ s₀.turnLength := by
        intro validator
        by_cases hne : validator = zero 20
        · rw [hne, signedCount_zero hzero]
          exact Nat.zero_le _
        · exact signedCount_le_turnLength hstart hrun₁ (by omega) hclears hne
      refine ⟨hcount, ?_⟩
      have hsigned := signed_of_run hstart hrun₁
      have hcard : ((b :: w).map Prod.fst).length ≤
          (signersOf p.k ((b :: w).map Prod.fst)).card * s₀.turnLength := by
        refine length_le_card_signersOf (fun h hh => ?_) hcount
        obtain ⟨x, hx, rfl⟩ := mem_map.mp hh
        exact hsigned x (mem_append_left earlier hx)
      rw [length_map, length_cons, hlength] at hcard
      exact Nat.le_of_mul_le_mul_right hcard hstart.turnLength_pos
  · intro validator hne
    have hstate := SteadyState.of_run hstart hrun
    have hle := hstate.safe validator hne
    have hlt := hstart.turnLength_lt
    rw [← hstate.turnLength_eq] at hlt
    exact ⟨hle, Nat.mod_eq_of_lt (by omega)⟩

end Runs

theorem SpamSafe.of_empty {s : Snapshot} (h : s.recents = ∅) : SpamSafe s := by
  intro val hne
  have hnil : s.recentBlocks val = [] := by
    refine eq_nil_iff_forall_not_mem.mpr fun block hblock => ?_
    obtain ⟨hentry, -⟩ := (mem_recentBlocks hne).mp hblock
    simp [h] at hentry
  rw [hnil]
  exact Nat.zero_le _

/-! ## A switch after Bohr -/

namespace Sample

/-- The sample engine with a recovery that does not return the zero address. -/
def strictEngine : Parlia := { engine with
  k := { crypto with
    recover := fun digest signature =>
      (crypto.recover digest signature).filter (· ≠ FixedBytes.zero 20) } }

def strictAfter (s : Snapshot) (h : Header) : Snapshot :=
  match strictEngine.advance (chain []) [] false none s h with
  | .ok s' => s'
  | .error _ => s

theorem strict_block1 :
    SteadySealed strictEngine [] genesisSnap block1 (strictAfter genesisSnap block1) := by
  refine ⟨?_, ⟨chain [], [], false, none, ?_⟩, .inl ?_, ?_, ?_, ?_⟩ <;> decide +kernel

theorem strict_block2 : SteadySealed strictEngine [(block1, genesisSnap)]
    (strictAfter genesisSnap block1) block2
    (strictAfter (strictAfter genesisSnap block1) block2) := by
  refine ⟨?_, ⟨chain [], [], false, none, ?_⟩, .inl ?_, ?_, ?_, ?_⟩ <;> decide +kernel

theorem strict_run : Run (SteadySealed strictEngine) genesisSnap
    [(block2, strictAfter genesisSnap block1), (block1, genesisSnap)]
    (strictAfter (strictAfter genesisSnap block1) block2) :=
  .next (.next .start strict_block1) strict_block2

/-- Bohr from the genesis block on, two validators and epochs of four blocks. -/
def pairEngine : Parlia where
  k := crypto
  c := { (default : ChainConfig) with
    epoch := 4, epoch_pos := Nat.succ_pos _, londonBlock := some 0, lubanBlock := some 0,
    bohrTime := some 0 }
  fullImmutabilityThreshold := 90000
  fakeDiff := false

def pairGenesis : Header := { genesis with
  extra := vanity ++ (2 :: ((addr 1).bytes ++ List.replicate 48 0 ++ (addr 2).bytes ++
    List.replicate 48 0 ++ [1]) ++ sealOf (addr 0)) }

def pairSnap : Snapshot := .newSnapshot pairEngine.c 0 (crypto.hash pairGenesis) [addr 1, addr 2]
  [FixedBytes.zero 48, FixedBytes.zero 48] false

def pairBlock1 : Header := child pairGenesis (addr 2) []
def pairBlock2 : Header := { child pairBlock1 (addr 2) [] with difficulty := some 1 }

def pairAfter (s : Snapshot) (h : Header) : Snapshot :=
  match pairEngine.advance ⟨pairGenesis, rfl, [pairBlock1], fun _ => none⟩ [] false none s h with
  | .ok s' => s'
  | .error _ => s

end Sample

open Sample in
/-- Two blocks above the genesis block are a window: no validator signs both of them. -/
theorem spam_protection_sample :
    [block2, block1].length = (genesisSnap.validators.size / 2 + 1) * genesisSnap.turnLength ∧
    (∀ validator, signedCount strictEngine.k validator [block2, block1] ≤
      genesisSnap.turnLength) ∧
    genesisSnap.validators.size / 2 + 1 ≤ (signersOf strictEngine.k [block2, block1]).card ∧
    ∀ validator ≠ FixedBytes.zero 20,
      ((strictAfter (strictAfter genesisSnap block1) block2).recentBlocks validator).length ≤
        (strictAfter (strictAfter genesisSnap block1) block2).turnLength := by
  have hzero : ∀ digest signature, strictEngine.k.recover digest signature ≠ some (zero 20) := by
    intro digest signature hrecover
    have hfilter : (crypto.recover digest signature).filter (· ≠ zero 20) = some (zero 20) :=
      hrecover
    simpa using (Option.filter_eq_some_iff.mp hfilter).2
  have hwindow : [block2, block1].length =
      (genesisSnap.validators.size / 2 + 1) * genesisSnap.turnLength := by decide
  have hclears : ∀ b ∈ [(block1, genesisSnap)], ¬ClearsRecents strictEngine.c b := by
    simpa using fun h : ClearsRecents strictEngine.c (block1, genesisSnap) =>
      absurd h.1 (by decide)
  obtain ⟨hwindows, hcounts⟩ := spam_protection ⟨by decide, by decide, by decide,
    .of_empty rfl⟩ hzero strict_run
  obtain ⟨hsigned, hsigners⟩ := hwindows []
    [(block2, strictAfter genesisSnap block1), (block1, genesisSnap)] [] rfl hwindow hclears
  exact ⟨hwindow, hsigned, hsigners, fun validator hne => (hcounts validator hne).1⟩

open Sample in
/-- Two validators with a turn length of one: the first block of the chain switches to the same
validators and clears the recent signers, and its signer signs the second block as well. -/
theorem spam_after_switch : Run (SteadySealed pairEngine) pairSnap
      [(pairBlock2, pairAfter pairSnap pairBlock1), (pairBlock1, pairSnap)]
      (pairAfter (pairAfter pairSnap pairBlock1) pairBlock2) ∧
    [pairBlock2, pairBlock1].length = (pairSnap.validators.size / 2 + 1) * pairSnap.turnLength ∧
    pairSnap.turnLength < signedCount crypto (addr 2) [pairBlock2, pairBlock1] ∧
    (signersOf crypto [pairBlock2, pairBlock1]).card < pairSnap.validators.size / 2 + 1 := by
  refine ⟨.next (.next .start ?_) ?_, by decide, by decide, by decide⟩
  · refine ⟨?_, ⟨⟨pairGenesis, rfl, [pairBlock1], fun _ => none⟩, [], false, none, ?_⟩, .inl ?_, ?_,
      ?_, ?_⟩ <;> decide +kernel
  · refine ⟨?_, ⟨⟨pairGenesis, rfl, [pairBlock1], fun _ => none⟩, [], false, none, ?_⟩, .inl ?_, ?_,
      ?_, ?_⟩ <;> decide +kernel

end ChilizChain
