import ChilizChain.Parlia.Walk

/-! Snapshot retrieval before the Snake8 activation time. An engine is consistent when each
snapshot it has in memory or on disk is the snapshot of its branch. From every consistent engine
`Parlia.snapshot` answers with the snapshot of the branch, and the engine stays consistent: what
is cached, evicted or stored cannot be seen in the answer. -/

namespace ChilizChain

open Stateful List Parlia

/-! ## Consistent engines -/

section Definitions

variable (p : Parlia) (g : Header) (hg : g.number = 0) (U : Set Header)

/-- All snapshots of the engine are those of their blocks, and those of the anchors are on
disk. -/
abbrev Consistent (anchors : Set Hash) (e : Engine) : Prop :=
  Carries p g U (fun H s => canonical p g hg H = .ok s) anchors e

/-- The explicit parents are the last blocks of the branch, and the store holds the others. -/
def Supplied (chain : ChainStore) (H parents : List Header) : Prop :=
  ∃ F S, H = F ++ S ∧ parents = F.reverse ∧ ∀ x ∈ S, x ∈ chain.headers

end Definitions

theorem checkAttestation_ok {attestation : VoteAttestation} {u : Unit}
    (h : checkAttestation attestation = .ok u) :
    attestation.data.sourceNumber < attestation.data.targetNumber := by
  unfold checkAttestation at h
  simp only [Except.throw_eq_error, Except.error_bind] at h
  split_ifs at h with hextra hle
  exact UInt64.not_le.mp hle

variable {p : Parlia} {g : Header} {hg : g.number = 0} {U : Set Header} {anchors A : Set Hash}
  {chain : ChainStore} {e : Engine}

variable {H ps : List Header}

theorem Supplied.gatherHeader (hU : BeforeSnake8 p g U) (hW : chain.Within p.k g U) {h : Header}
    (hH : Branch p.k g U (h :: H)) (hsupplied : Supplied chain (h :: H) ps) :
    ∃ rest, p.gatherHeader chain (h :: H).length (p.k.hash h) ps = .ok (h, rest) ∧
      Supplied chain H rest ∧ ∀ x ∈ rest, x ∈ ps := by
  obtain ⟨F, S, hsplit, rfl, hstored⟩ := hsupplied
  cases F with
  | nil =>
    rw [nil_append] at hsplit
    subst hsplit
    have hget := hU.getHeader_eq hW (hH.mem_of_mem h mem_cons_self)
      (mem_cons_of_mem _ (hstored h mem_cons_self))
    rw [hH.number_eq] at hget
    refine ⟨[], ?_, ⟨[], H, rfl, rfl, fun x hx => hstored x (mem_cons_of_mem h hx)⟩,
      by simp⟩
    simp [gatherHeader, hget]
  | cons f F =>
    obtain ⟨rfl, rfl⟩ := List.cons.inj hsplit
    refine ⟨F.reverse, ?_, ⟨F, S, rfl, rfl, hstored⟩, ?_⟩
    · have hnumber := hH.number_eq
      rw [length_cons]
      simp [gatherHeader, hnumber]
    · intro x hx
      rw [reverse_cons]
      exact mem_append_left _ hx

theorem BeforeSnake8.retrievable (hU : BeforeSnake8 p g U) (hW : chain.Within p.k g U) :
    Retrievable p g U (fun H s => canonical p g hg H = .ok s)
      (fun H err => canonical p g hg H = .error err) (fun H ps => H ≠ [] → Supplied chain H ps)
      chain false where
  genesis_number := hU.genesis_number
  genesis_mem := hU.genesis_mem
  hash_injOn := hU.hash_injOn
  within := hW
  genesis hzero := by
    have hcanonical : canonical p g hg [] = p.checkpointSnapshot 0 false g (p.k.hash g)
        defaultBlockInterval p.c.epoch := if_neg hzero
    rw [← hcanonical]
    cases h : canonical p g hg [] with
    | ok s => exact h
    | error err => exact h
  unhashed hzero := if_pos hzero
  filed hH hs := (hU.canonical_settled hH hs).hash
  loaded hH hs := hs.trans (congrArg Except.ok (hU.canonical_settled hH hs).loaded_eq.symm)
  touched hH hs := by rw [hs, ← (hU.canonical_settled hH hs).isSnake8Fork]
  cons h := canonical_append_error (N := [_]) h
  gather hH hsupplied hparents := by
    obtain ⟨rest, hgather, hrest, hsubset⟩ :=
      (hsupplied (cons_ne_nil _ _)).gatherHeader hU hW hH
    rw [hgather]
    exact ⟨rfl, fun _ => hrest, fun x hx => hparents x (hsubset x hx)⟩

/-- **Retrieval answers with the snapshot of the branch**, whatever a consistent engine holds. -/
theorem snapshot_answers (hU : BeforeSnake8 p g U) (hW : chain.Within p.k g U)
    (hH : Branch p.k g U H)
    (hanchored : Anchored p g anchors H) (hsupplied : H ≠ [] → Supplied chain H ps)
    (hparents : ∀ x ∈ ps, x ∈ U) (hstored : CheckpointsStored p g hg chain H)
    (extraHeader : Option Header) : Answers (Consistent p g hg U anchors)
      (p.snapshot chain H.length (p.k.hash (tip g H)) ps false extraHeader)
      (canonical p g hg H) := by
  intro e he
  have happly : ∀ {N A ps s}, H = N ++ A → (∀ x ∈ ps, x ∈ U) →
      canonical p g hg A = .ok s → Ends (fun H s => canonical p g hg H = .ok s)
        (fun H err => canonical p g hg H = .error err) H
        ((s.apply p.k p.c chain ps N.reverse false).map (p.imposeSnake8 false extraHeader)) := by
    intro N A ps s hsplit hparents hs
    subst hsplit
    rw [hU.apply_eq_canonical hW hparents hs hH hstored]
    cases h : canonical p g hg (N ++ A) with
    | ok s => exact h
    | error err => exact h
  obtain ⟨he', hends⟩ := (hU.retrievable hW).snapshot hH hanchored hsupplied hparents extraHeader
    happly e he
  refine ⟨?_, he'⟩
  rcases hexec : exec (p.snapshot chain H.length (p.k.hash (tip g H)) ps false extraHeader) e
    with ⟨err | s, e'⟩
  all_goals
    rw [hexec] at hends
    exact hends.symm

end ChilizChain
