import Mathlib

/-! A list cut into pieces of one length, the last of which may be shorter, as a writer produces
them that adds the elements one by one. -/

namespace ChilizChain.Chunks

open List Nat

variable {α : Type} {cap : ℕ} {xs : List α} {x : α}

/-- Add an element to the last piece, or start a new one if that is full. -/
def push (cap : ℕ) (ss : List (List α)) (x : α) : List (List α) :=
  match ss.getLast? with
  | none => [[x]]
  | some last => if last.length < cap then ss.dropLast ++ [last ++ [x]] else ss ++ [[x]]

def chunks (cap : ℕ) (xs : List α) : List (List α) := xs.foldl (push cap) []

@[simp] theorem chunks_nil : chunks cap ([] : List α) = [] := rfl

theorem push_snoc (init : List (List α)) (last : List α) : push cap (init ++ [last]) x =
      if last.length < cap then init ++ [last ++ [x]] else init ++ [last] ++ [[x]] := by
  simp [push]

/-- What the pieces look like. -/
structure Cut (cap : ℕ) (init : List (List α)) (last : List α) : Prop where
  full : ∀ s ∈ init, s.length = cap
  pos : 0 < last.length
  le : last.length ≤ cap

theorem Cut.length_eq {init : List (List α)} {last : List α} (h : Cut cap init last) :
    (init ++ [last]).flatten.length = init.length * cap + last.length := by
  have hsum : (init.map List.length).sum = init.length * cap := by
    rw [map_congr_left h.full, map_const', sum_replicate, smul_eq_mul]
  simp [length_flatten, hsum]

section

variable (hcap : 0 < cap)
include hcap

theorem chunks_cases (xs : List α) : (xs = [] ∧ chunks cap xs = []) ∨
      ∃ init last, chunks cap xs = init ++ [last] ∧ Cut cap init last ∧
        (init ++ [last]).flatten = xs := by
  induction xs using List.reverseRecOn with
  | nil => exact .inl ⟨rfl, rfl⟩
  | append_singleton xs x ih =>
    right
    have hstep : chunks cap (xs ++ [x]) = push cap (chunks cap xs) x := by
      simp [chunks, foldl_append]
    rcases ih with ⟨rfl, hnil⟩ | ⟨init, last, heq, hcut, hflat⟩
    · exact ⟨[], [x], by rw [hstep, hnil]; rfl,
        ⟨by simp, by simp, by simp only [length_singleton]; omega⟩, by simp⟩
    · rw [hstep, heq, push_snoc]
      split
      · rename_i hroom
        refine ⟨init, last ++ [x], rfl,
          ⟨hcut.full, by simp, by simp only [length_append, length_singleton]; omega⟩, ?_⟩
        rw [← hflat]
        simp
      · rename_i hfull
        refine ⟨init ++ [last], [x], rfl, ⟨?_, by simp, by simp only [length_singleton]; omega⟩, ?_⟩
        · intro s hs
          rcases mem_append.mp hs with hs | hs
          · exact hcut.full s hs
          · rw [mem_singleton.mp hs]
            exact le_antisymm hcut.le (by omega)
        · rw [← hflat]
          simp

theorem flatten_chunks (xs : List α) : (chunks cap xs).flatten = xs := by
  rcases chunks_cases hcap xs with ⟨rfl, hnil⟩ | ⟨init, last, heq, -, hflat⟩
  · rw [hnil]
    rfl
  · rw [heq, hflat]

theorem chunks_append_full (hmod : xs.length % cap = 0) :
    chunks cap (xs ++ [x]) = chunks cap xs ++ [[x]] := by
  have hstep : chunks cap (xs ++ [x]) = push cap (chunks cap xs) x := by
    simp [chunks, foldl_append]
  rw [hstep]
  rcases chunks_cases hcap xs with ⟨-, hnil⟩ | ⟨init, last, heq, hcut, hflat⟩
  · rw [hnil]
    rfl
  · have hlen := hcut.length_eq
    rw [hflat] at hlen
    rw [heq, push_snoc, if_neg]
    intro hlt
    rw [hlen, add_comm, add_mul_mod_self_right, mod_eq_of_lt hlt] at hmod
    exact ne_of_gt hcut.pos hmod

theorem chunks_append_room (hmod : xs.length % cap ≠ 0) :
    ∃ init last, chunks cap xs = init ++ [last] ∧ Cut cap init last ∧ last.length < cap ∧
      (init ++ [last]).flatten = xs ∧ last.length = xs.length % cap ∧
      chunks cap (xs ++ [x]) = init ++ [last ++ [x]] := by
  have hstep : chunks cap (xs ++ [x]) = push cap (chunks cap xs) x := by
    simp [chunks, foldl_append]
  rcases chunks_cases hcap xs with ⟨rfl, -⟩ | ⟨init, last, heq, hcut, hflat⟩
  · simp at hmod
  · have hlen := hcut.length_eq
    rw [hflat] at hlen
    have hlt : last.length < cap := by
      refine lt_of_le_of_ne hcut.le fun he => hmod ?_
      rw [hlen, he, add_mod_right, mul_mod_left]
    have hmodlen : last.length = xs.length % cap := by
      rw [hlen, add_comm, add_mul_mod_self_right, mod_eq_of_lt hlt]
    exact ⟨init, last, heq, hcut, hlt, hflat, hmodlen, by rw [hstep, heq, push_snoc, if_pos hlt]⟩

theorem chunks_ne_nil (hxs : xs ≠ []) : chunks cap xs ≠ [] := by
  intro hnil
  have hflat := flatten_chunks hcap xs
  rw [hnil] at hflat
  exact hxs hflat.symm

end

theorem chunks_grow {init : List (List α)} {last : List α} (heq : chunks cap xs = init ++ [last])
    (ys : List α) :
    ∃ grown rest, chunks cap (xs ++ ys) = init ++ grown :: rest ∧ last <+: grown := by
  induction ys using List.reverseRecOn with
  | nil => exact ⟨last, [], by rw [append_nil, heq], prefix_refl _⟩
  | append_singleton ys y ih =>
    obtain ⟨grown, rest, hbefore, hgrown⟩ := ih
    have hstep : chunks cap (xs ++ (ys ++ [y])) = push cap (init ++ grown :: rest) y := by
      rw [← hbefore]
      simp [chunks, foldl_append]
    rw [hstep]
    rcases eq_nil_or_concat rest with rfl | ⟨rest, z, rfl⟩
    · rw [push_snoc]
      split
      · exact ⟨grown ++ [y], [], rfl, hgrown.trans (prefix_append _ _)⟩
      · exact ⟨grown, [[y]], by simp, hgrown⟩
    · -- the piece is not the last one any more
      rw [concat_eq_append, ← cons_append, ← append_assoc, push_snoc]
      split
      · exact ⟨grown, rest ++ [z ++ [y]], by simp, hgrown⟩
      · exact ⟨grown, rest ++ [z, [y]], by simp, hgrown⟩

end ChilizChain.Chunks
