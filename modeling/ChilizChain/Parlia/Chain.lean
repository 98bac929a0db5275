import ChilizChain.Lib.Run
import ChilizChain.Parlia.Retrieval

/-! One block at a time. A node that follows the chain asks for the snapshot of each new block
while the snapshot of its parent is in memory; what it gets then is `advance`. The results about
whole chains are about runs of such steps. -/

namespace ChilizChain

open Stateful Parlia Except

/-- The snapshot of `header` from the snapshot of its parent, with the Snake8 data that the call
imposes on it. -/
def Parlia.advance (p : Parlia) (chain : ChainStore) (parents : List Header) (isSnake8Fork : Bool)
    (extraHeader : Option Header) (s : Snapshot) (header : Header) : Except Err Snapshot :=
  p.imposeSnake8 isSnake8Fork extraHeader <$> s.apply p.k p.c chain parents [header] isSnake8Fork

section Retrieval

variable {p : Parlia} {chain : ChainStore} {ps rest : List Header} {e : Engine}
  {number : ℕ} {hash : Hash} {hd : Header} {s : Snapshot}

theorem exec_findBase_none (collected : ℕ) (fork : Bool) (hpos : number ≠ 0)
    (hle : collected ≤ p.fullImmutabilityThreshold)
    (hrecent : e.recentSnaps.lookup hash = none)
    (hstored : number % checkpointInterval = 0 → e.db[hash]? = none) :
    exec (p.findBase chain number hash collected fork) e =
      (.ok none, { e with recentSnaps := (e.recentSnaps.get hash).2 }) := by
  have hbase : (if number % checkpointInterval = 0 then
      (e.db[hash]?).map (·.loaded p.c fork) else none) = none := by
    split_ifs with hinterval
    · rw [hstored hinterval]
      rfl
    · rfl
  unfold findBase
  rw [exec_bind_ok (exec_getRecent _), hrecent]
  dsimp only
  rw [exec_bind_ok (exec_storedBase _ _ _)]
  dsimp only
  rw [hbase]
  dsimp only
  rw [exec_bind_ok (exec_trustedBase_of_pos hpos hle _)]
  rfl

theorem exec_findBase_recent (collected : ℕ) (fork : Bool)
    (hrecent : e.recentSnaps.lookup hash = some s) :
    exec (p.findBase chain number hash collected fork) e =
      (.ok (some (s, some hash)), { e with recentSnaps := (e.recentSnaps.get hash).2 }) := by
  unfold findBase
  rw [exec_bind_ok (exec_getRecent _), hrecent]
  rfl

theorem exec_walk_of_parent (fork : Bool) (hrecent : e.recentSnaps.lookup hash = none)
    (hstored : (number + 1) % checkpointInterval = 0 → e.db[hash]? = none)
    (hgather : p.gatherHeader chain (number + 1) hash ps = .ok (hd, rest))
    (hparent : e.recentSnaps.lookup hd.parentHash = some s) :
    ∃ e', exec (p.walk chain fork (number + 1) hash ps []) e =
      (.ok ⟨s, some hd.parentHash, [hd], rest⟩, e') := by
  have hfound : ((e.recentSnaps.get hash).2).lookup hd.parentHash = some s := by
    rw [Lru.lookup_get]
    exact hparent
  have hnone : exec (p.findBase chain (number + 1) hash ([] : List Header).length fork) e =
      (.ok none, { e with recentSnaps := (e.recentSnaps.get hash).2 }) :=
    exec_findBase_none _ _ (Nat.succ_ne_zero number) (Nat.zero_le _) hrecent hstored
  unfold walk
  rw [exec_bind_ok hnone]
  dsimp only
  rw [hgather, exec_bind_ok (exec_ofExcept _ _)]
  dsimp only
  unfold walk
  rw [exec_bind_ok (exec_findBase_recent _ _ hfound)]
  exact ⟨_, rfl⟩

/-- **Following the chain.** With the snapshot of the parent in memory and none of the block
itself, `snapshot` advances the snapshot of the parent by the block. -/
theorem exec_snapshot_of_parent (fork : Bool) (extraHeader : Option Header)
    (hrecent : e.recentSnaps.lookup hash = none)
    (hstored : (number + 1) % checkpointInterval = 0 → e.db[hash]? = none)
    (hgather : p.gatherHeader chain (number + 1) hash ps = .ok (hd, rest))
    (hparent : e.recentSnaps.lookup hd.parentHash = some s) :
    (exec (p.snapshot chain (number + 1) hash ps fork extraHeader) e).1 =
      p.advance chain rest fork extraHeader s hd := by
  obtain ⟨e', hwalk⟩ := exec_walk_of_parent fork hrecent hstored hgather hparent
  unfold snapshot appliedSnapshot advance
  simp only [bind_assoc]
  rw [exec_bind_ok hwalk]
  dsimp only [touchBase]
  rw [exec_bind_ok (exec_addRecent _ _), exec_bind_ofExcept]
  cases s.apply p.k p.c chain rest [hd] fork with
  | error err => rfl
  | ok t =>
    dsimp only
    rw [pure_bind]
    unfold keepSnapshot
    split_ifs <;> rfl

end Retrieval

/-! ## What one block does -/

section Steps

variable {p : Parlia} {chain : ChainStore} {ps : List Header} {hd : Header}
  {fork : Bool} {extraHeader : Option Header} {s s' : Snapshot}

/-- One iteration of the loop of `apply`, filed under the new block; after Snake8 the turn length
is imposed. -/
theorem Parlia.advance_ok
    (h : p.advance chain ps fork extraHeader s hd = .ok s') :
    hd.number = s.number + 1 ∧ hd.parentHash = s.hash ∧
    ∃ y frequencyRLP,
      { s with isSnake8Fork := fork }.copy.applyHeader p.k p.c chain ps hd =
        .ok y ∧
      s' = { y with
        number := s.number + 1
        hash := p.k.hash hd
        frequencyRLP := frequencyRLP
        turnLength := if fork then snake8TurnLength else y.turnLength } := by
  obtain ⟨t, happly, rfl⟩ := map_eq_ok_iff.mp h
  unfold Snapshot.apply at happly
  simp only [Snapshot.checkLinks, pure_eq_ok, ok_bind, throw_eq_error,
    error_bind, List.foldlM_cons, List.foldlM_nil] at happly
  split_ifs at happly with hnumber hparent
  obtain ⟨y, hloop, hfiled⟩ := bind_eq_ok.mp happly
  obtain ⟨x, hy, hlast⟩ := bind_eq_ok.mp hloop
  obtain rfl : y = x := (Except.ok.inj hlast).symm
  obtain rfl := Except.ok.inj hfiled
  refine ⟨not_not.mp hnumber, not_not.mp hparent, _, ?_, hy, ?_⟩
  · exact (p.imposeSnake8 fork extraHeader
      { y with number := s.number + 1, hash := p.k.hash hd }).frequencyRLP
  · unfold imposeSnake8
    split_ifs <;> rfl

end Steps

end ChilizChain
