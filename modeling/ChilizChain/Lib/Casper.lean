import Mathlib.Data.Finset.Card

/-! Accountable safety of justification and finality on a tree of blocks. A block is the list of
entries from it back to the root, newest first, so its ancestors are its suffixes and its height
is its length. What a vote is and who cast it is left open: `voted S T` says that there is a
quorum of votes with the source `S` and the target `T`. -/

namespace Casper

variable {α : Type} {voted : List α → List α → Prop} {X Y S T S' T' : List α}

/-- Blocks that a chain of quorums reaches from the root. -/
inductive Justified (voted : List α → List α → Prop) : List α → Prop
  | root : Justified voted []
  | link {S T : List α} (source : Justified voted S) (votes : voted S T) (below : S <:+ T)
      (lt : S.length < T.length) : Justified voted T

/-- A justified block with a quorum of votes for a child of it. -/
def Finalized (voted : List α → List α → Prop) (S : List α) : Prop :=
  Justified voted S ∧ ∃ T, voted S T ∧ S <:+ T ∧ T.length = S.length + 1

/-- Two votes that one voter must not cast: different ones for one height, or one around the
other. -/
def Conflicting (S T S' T' : List α) : Prop :=
  (T.length = T'.length ∧ (S, T) ≠ (S', T')) ∨
  (S.length < S'.length ∧ S'.length < T'.length ∧ T'.length < T.length) ∨
  (S'.length < S.length ∧ S.length < T.length ∧ T.length < T'.length)

/-- There are quorums for two votes that conflict. -/
def Conflict (voted : List α → List α → Prop) : Prop :=
  ∃ S T S' T', voted S T ∧ voted S' T' ∧ Conflicting S T S' T'

theorem Justified.exists_votes (h : Justified voted T) (hpos : 0 < T.length) : ∃ S, voted S T := by
  cases h with
  | root => simp at hpos
  | link source votes below lt => exact ⟨_, votes⟩

theorem conflict_of_length_eq (hX : Justified voted X) (hY : Justified voted Y) (hne : X ≠ Y)
    (hpos : 0 < X.length) (hlength : X.length = Y.length) : Conflict voted := by
  obtain ⟨S, hS⟩ := hX.exists_votes hpos
  obtain ⟨S', hS'⟩ := hY.exists_votes (hlength ▸ hpos)
  exact ⟨S, X, S', Y, hS, hS', .inl ⟨hlength, fun heq => hne (Prod.mk.inj heq).2⟩⟩

/-- A justified block above a finalized one that it does not descend from. The induction follows
the chain of links down to the one that jumps over the height of the finalized block. -/
theorem Finalized.conflict_of_lt (hX : Finalized voted X) (hY : Justified voted Y)
    (hlt : X.length < Y.length) (hapart : ¬X <:+ Y) : Conflict voted := by
  have hpos : 0 < X.length := by
    by_contra hzero
    obtain rfl : X = [] := List.eq_nil_of_length_eq_zero (by omega)
    exact hapart List.nil_suffix
  induction hY with
  | root => simp at hlt
  | @link S T source votes below lt ih =>
    obtain ⟨hjustified, X', hvotes', hbelow', hlength'⟩ := hX
    have hapart' : ¬X <:+ S := fun h => hapart (h.trans below)
    rcases Nat.lt_trichotomy X.length S.length with habove | hlevel | hunder
    · exact ih habove hapart'
    · refine conflict_of_length_eq hjustified source ?_ hpos hlevel
      rintro rfl
      exact hapart' List.suffix_rfl
    · -- the link jumps over the height of the finalized block
      refine ⟨S, T, X, X', votes, hvotes', ?_⟩
      rcases Nat.lt_or_ge X'.length T.length with hover | hends
      · exact .inr (.inl ⟨hunder, by omega, hover⟩)
      · refine .inl ⟨by omega, fun heq => ?_⟩
        obtain rfl := (Prod.mk.inj heq).1
        exact lt_irrefl _ hunder

/-- **Accountable safety.** Two finalized blocks, neither of which descends from the other, come
with quorums for two conflicting votes. -/
theorem Finalized.conflict (hX : Finalized voted X) (hY : Finalized voted Y) (hXY : ¬X <:+ Y)
    (hYX : ¬Y <:+ X) : Conflict voted := by
  rcases Nat.lt_trichotomy X.length Y.length with hlt | heq | hgt
  · exact hX.conflict_of_lt hY.1 hlt hXY
  · refine conflict_of_length_eq hX.1 hY.1 (fun h => hXY (h ▸ List.suffix_rfl)) ?_ heq
    by_contra hzero
    obtain rfl : X = [] := List.eq_nil_of_length_eq_zero (by omega)
    exact hXY List.nil_suffix
  · exact hY.conflict_of_lt hX.1 hgt hYX

theorem two_mul_sub_le_card_inter {κ : Type} [DecidableEq κ] {V A B : Finset κ} {q : ℕ}
    (hA : A ⊆ V) (hB : B ⊆ V) (hqA : q ≤ A.card) (hqB : q ≤ B.card) :
    2 * q - V.card ≤ (A ∩ B).card := by
  have hunion := Finset.card_le_card (Finset.union_subset hA hB)
  have hsum := Finset.card_union_add_card_inter A B
  omega

end Casper
