import Mathlib.Data.Finset.SDiff

/-! Items that are filed under places, with an index of all of them: what filing, dropping and
moving keep. -/

namespace Inventory

open Function

variable {ι η : Type} {index : Finset η} {items : ι → List η}

/-- Every item is filed once, and the index lists exactly the filed items. -/
structure Exact (index : Finset η) (items : ι → List η) : Prop where
  nodup : ∀ i, (items i).Nodup
  apart : ∀ {i j x}, x ∈ items i → x ∈ items j → i = j
  mem_index : ∀ {x}, x ∈ index ↔ ∃ i, x ∈ items i

theorem Exact.empty : Exact ∅ (fun _ : ι => ([] : List η)) where
  nodup := fun _ => List.nodup_nil
  apart := fun h => absurd h List.not_mem_nil
  mem_index := by simp

variable [DecidableEq ι]

theorem mem_update {i j : ι} {l : List η} {x : η} :
    x ∈ update items i l j ↔ (j = i ∧ x ∈ l) ∨ (j ≠ i ∧ x ∈ items j) := by
  by_cases h : j = i
  · subst h
    simp
  · simp [h]

theorem Exact.move (h : Exact index items) {i j : ι} (hij : i ≠ j) :
    Exact index (update (update items j (items j ++ items i)) i []) := by
  have hmem : ∀ {l y}, y ∈ update (update items j (items j ++ items i)) i [] l ↔
      (l = j ∧ (y ∈ items i ∨ y ∈ items j)) ∨ (l ≠ i ∧ l ≠ j ∧ y ∈ items l) := by
    intro l y
    rw [mem_update, mem_update]
    grind
  refine ⟨fun l => ?_, fun {l l' y} hy hy' => ?_, fun {y} => ?_⟩
  · by_cases hl : l = i
    · subst hl
      rw [update_self]
      exact List.nodup_nil
    · rw [update_of_ne hl]
      by_cases hl : l = j
      · subst hl
        rw [update_self]
        exact List.nodup_append.mpr ⟨h.nodup l, h.nodup i, fun a ha b hb hab =>
          hij (h.apart (hab ▸ hb) ha)⟩
      · rw [update_of_ne hl]
        exact h.nodup l
  · have happart : ∀ {l l'}, y ∈ items l → y ∈ items l' → l = l' := h.apart
    grind
  · rw [h.mem_index]
    simp only [hmem]
    grind

variable [DecidableEq η]

theorem Exact.file (h : Exact index items) (i : ι) {x : η} (hx : x ∉ index) :
    Exact (insert x index) (update items i (items i ++ [x])) := by
  have hnew : ∀ j, x ∉ items j := fun j hj => hx (h.mem_index.mpr ⟨j, hj⟩)
  -- membership in the new family, whatever the place
  have hmem : ∀ {j y}, y ∈ update items i (items i ++ [x]) j ↔
      y ∈ items j ∨ (j = i ∧ y = x) := by
    intro j y
    rw [mem_update]
    by_cases hj : j = i
    · subst hj
      simp
    · simp [hj]
  refine ⟨fun j => ?_, fun {j j' y} hy hy' => ?_, fun {y} => ?_⟩
  · by_cases hj : j = i
    · subst hj
      rw [update_self]
      exact List.nodup_append.mpr ⟨h.nodup j, List.nodup_singleton x, fun a ha b hb hab =>
        hnew j (List.mem_singleton.mp hb ▸ hab ▸ ha)⟩
    · rw [update_of_ne hj]
      exact h.nodup j
  · rcases hmem.mp hy with hold | ⟨hj, hyx⟩ <;> rcases hmem.mp hy' with hold' | ⟨hj', hyx'⟩
    · exact h.apart hold hold'
    · exact absurd (hyx' ▸ hold) (hnew _)
    · exact absurd (hyx ▸ hold') (hnew _)
    · exact hj.trans hj'.symm
  · rw [Finset.mem_insert, h.mem_index]
    simp only [hmem]
    grind

theorem Exact.drop (h : Exact index items) (i : ι) {kept dropped : List η}
    (hperm : (items i).Perm (kept ++ dropped)) :
    Exact (index \ dropped.toFinset) (update items i kept) := by
  have hsplit : ∀ {x}, x ∈ items i ↔ x ∈ kept ∨ x ∈ dropped := fun {x} => by
    rw [hperm.mem_iff, List.mem_append]
  obtain ⟨hkept, -, hdisjoint⟩ := List.nodup_append.mp (hperm.nodup_iff.mp (h.nodup i))
  refine ⟨fun j => ?_, fun {j j' y} hy hy' => ?_, fun {y} => ?_⟩
  · by_cases hj : j = i
    · subst hj
      rwa [update_self]
    · rw [update_of_ne hj]
      exact h.nodup j
  · have hold : ∀ {j}, y ∈ update items i kept j → y ∈ items j := fun {j} hmem => by
      rcases mem_update.mp hmem with ⟨rfl, hkept⟩ | ⟨-, hother⟩
      · exact hsplit.mpr (Or.inl hkept)
      · exact hother
    exact h.apart (hold hy) (hold hy')
  · rw [Finset.mem_sdiff, List.mem_toFinset, h.mem_index]
    simp only [mem_update]
    constructor
    · rintro ⟨⟨j, hj⟩, hnot⟩
      refine ⟨j, ?_⟩
      by_cases hji : j = i
      · subst hji
        exact Or.inl ⟨rfl, (hsplit.mp hj).resolve_right hnot⟩
      · exact Or.inr ⟨hji, hj⟩
    · rintro ⟨j, ⟨rfl, hj⟩ | ⟨hji, hj⟩⟩
      · exact ⟨⟨j, hsplit.mpr (Or.inl hj)⟩, fun hd => hdisjoint y hj y hd rfl⟩
      · exact ⟨⟨j, hj⟩, fun hd => hji (h.apart hj (hsplit.mpr (Or.inr hd)))⟩

end Inventory
