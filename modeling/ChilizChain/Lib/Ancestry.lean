import Mathlib.Logic.Relation
import Mathlib.Data.List.Infix

/-! Forests given by a partial parent function: who is above whom, what a new leaf and a pruned
forest change about it, and which of the listed ancestors is the nearest. -/

namespace ChilizChain.Ancestry

open Relation Function TransGen List

variable {α : Type} {up up' : α → Option α} {x y z a b n : α}

def Parent (up : α → Option α) (x y : α) : Prop := up x = some y

/-- `a` is an ancestor of `x`. -/
abbrev Below (up : α → Option α) : α → α → Prop := TransGen (Parent up)

/-- `a` is `x` or an ancestor of it. -/
abbrev BelowEq (up : α → Option α) : α → α → Prop := ReflTransGen (Parent up)

theorem parent_unique : Relator.RightUnique (Parent up) := by
  intro x y z hy hz
  exact Option.some.inj (hy.symm.trans hz)

theorem belowEq_total (ha : BelowEq up x a) (hb : BelowEq up x b) :
    BelowEq up a b ∨ BelowEq up b a :=
  ha.total_of_right_unique parent_unique hb

theorem below_iff_parent : Below up x a ↔ ∃ y, Parent up x y ∧ BelowEq up y a :=
  head'_iff

theorem belowEq_iff : BelowEq up x a ↔ a = x ∨ Below up x a :=
  reflTransGen_iff_eq_or_transGen

theorem rank_lt_of_below {rank : α → ℕ} (hrank : ∀ x y, Parent up x y → rank y < rank x)
    (h : Below up x a) : rank a < rank x := by
  induction h with
  | single h => exact hrank _ _ h
  | tail _ h ih => exact (hrank _ _ h).trans ih

/-! ## A new leaf -/

theorem not_below_leaf (hleaf : ∀ w, ¬ Parent up w x) : ¬ Below up z x := by
  intro h
  obtain ⟨w, -, hw⟩ := tail'_iff.mp h
  exact hleaf w hw

theorem below_leaf_iff [DecidableEq α] (hfree : up x = none) (hleaf : ∀ w, ¬ Parent up w x)
    (hxy : x ≠ y) : Below (update up x (some y)) z a ↔ Below up z a ∨ (z = x ∧ BelowEq up y a) := by
  have hold : ∀ u v, Parent up u v → Parent (update up x (some y)) u v := by
    intro u v h
    have hu : u ≠ x := by
      intro he
      rw [Parent, he, hfree] at h
      cases h
    rwa [Parent, update_of_ne hu]
  constructor
  · intro h
    -- along the way up, after the first step the old forest is never left
    induction h using head_induction_on with
    | single h =>
      rename_i u
      by_cases hu : u = x
      · rw [Parent, hu, update_self] at h
        cases h
        exact .inr ⟨hu, .refl⟩
      · rw [Parent, update_of_ne hu] at h
        exact .inl (.single h)
    | head h _ ih =>
      rename_i u v _
      by_cases hu : u = x
      · rw [Parent, hu, update_self] at h
        cases h
        rcases ih with ih | ⟨hyx, -⟩
        · exact .inr ⟨hu, ih.to_reflTransGen⟩
        · exact absurd hyx.symm hxy
      · rw [Parent, update_of_ne hu] at h
        rcases ih with ih | ⟨rfl, -⟩
        · exact .inl (.head h ih)
        · exact absurd h (hleaf _)
  · rintro (h | ⟨rfl, h⟩)
    · exact mono hold _ _ h
    · have hfirst : Parent (update up z (some y)) z y := update_self ..
      exact head' hfirst (ReflTransGen.mono hold _ _ h)

/-! ## What is left above a new root -/

/-- Without its parent, `n` separates what is below it from the old root `a`. -/
theorem belowEq_cut_iff [DecidableEq α] (hroot : up a = none) (hna : n ≠ a)
    (hx : BelowEq up x a) : BelowEq (update up n none) x a ↔ ¬ BelowEq up x n := by
  have hstop : ∀ {u : α → Option α} {w v : α}, u w = none → BelowEq u w v → v = w := by
    intro u w v hw h
    rcases belowEq_iff.mp h with h | h
    · exact h
    · obtain ⟨y, hy, -⟩ := below_iff_parent.mp h
      cases hw.symm.trans hy
  -- a step from anywhere but `w` can be left out
  have hstep : ∀ {u : α → Option α} {w y v : α}, Parent u w y → v ≠ w →
      (BelowEq u w v ↔ BelowEq u y v) := by
    intro u w y v hwy hv
    refine ⟨fun h => ?_, fun h => .head hwy h⟩
    rcases belowEq_iff.mp h with h | h
    · exact absurd h hv
    · obtain ⟨y', hy', hbelow⟩ := below_iff_parent.mp h
      cases parent_unique hwy hy'
      exact hbelow
  induction hx using ReflTransGen.head_induction_on with
  | refl => exact ⟨fun _ h => hna (hstop hroot h), fun _ => .refl⟩
  | @head x w hxw _ ih =>
    have hxa : a ≠ x := by
      rintro rfl
      cases hroot.symm.trans hxw
    by_cases hxn : x = n
    · subst hxn
      refine ⟨fun h => absurd (hstop (update_self ..) h).symm hna, fun h => ?_⟩
      exact absurd .refl h
    · have hxw' : Parent (update up n none) x w :=
        (update_of_ne hxn ..).trans hxw
      exact (hstep hxw' hxa).trans (ih.trans (not_congr (hstep hxw (Ne.symm hxn)).symm))

theorem below_pruned_iff (hup : ∀ w y, Parent up' w y ↔ Parent up w y ∧ Below up w n) :
    Below up' z a ↔ Below up z a ∧ BelowEq up a n := by
  constructor
  · intro h
    induction h with
    | single h =>
      obtain ⟨hparent, hbelow⟩ := (hup _ _).mp h
      obtain ⟨w, hw, hwn⟩ := below_iff_parent.mp hbelow
      cases parent_unique hparent hw
      exact ⟨.single hparent, hwn⟩
    | tail _ h ih =>
      obtain ⟨hparent, hbelow⟩ := (hup _ _).mp h
      obtain ⟨w, hw, hwn⟩ := below_iff_parent.mp hbelow
      cases parent_unique hparent hw
      exact ⟨ih.1.tail hparent, hwn⟩
  · rintro ⟨h, hn⟩
    induction h using head_induction_on with
    | single h => exact .single ((hup _ _).mpr ⟨h, head' h hn⟩)
    | head h habove ih =>
      exact .head ((hup _ _).mpr ⟨h, head' h (habove.to_reflTransGen.trans hn)⟩) ih

/-! ## The nearest of the listed ancestors -/

/-- Where no entry is below a later one, the last entry above `x` is the nearest one. -/
theorem nearest_of_find {l : List α} {p : α → Bool} {r : α}
    (hord : l.Pairwise fun u v => ¬ Below up u v) (hp : ∀ u, p u = true ↔ BelowEq up x u)
    (hfind : l.reverse.find? p = some r) :
    r ∈ l ∧ BelowEq up x r ∧ ∀ u ∈ l, BelowEq up x u → BelowEq up r u := by
  obtain ⟨hr, as, bs, hsplit, hfirst⟩ := find?_eq_some_iff_append.mp hfind
  have hl : l = bs.reverse ++ r :: as.reverse := by
    rw [← reverse_reverse l, hsplit]
    simp
  have hxr := (hp r).mp hr
  refine ⟨by simp [hl], hxr, ?_⟩
  intro u hu hxu
  rw [hl, mem_append, mem_cons] at hu
  rcases hu with hu | rfl | hu
  · -- an earlier entry is not below the found one
    rcases belowEq_total hxr hxu with h | h
    · exact h
    · rcases belowEq_iff.mp h with rfl | h
      · exact .refl
      · rw [hl] at hord
        exact absurd h ((pairwise_append.mp hord).2.2 u hu r (by simp))
  · exact .refl
  · have hnot := hfirst u (by simpa using hu)
    rw [Bool.not_eq_true', ← Bool.not_eq_true] at hnot
    exact absurd ((hp u).mpr hxu) hnot

end ChilizChain.Ancestry
