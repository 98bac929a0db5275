import Mathlib.Data.Nat.Notation

/-! Binary search as `sort.Search` does it. -/

namespace ChilizChain

/-- The loop of `sort.Search`, between `i` and `j`. -/
def searchFrom (f : ℕ → Bool) : ℕ → ℕ → ℕ → ℕ
  | 0, i, _ => i
  | fuel + 1, i, j =>
    if i < j then
      let h := (i + j) / 2
      if f h then searchFrom f fuel i h else searchFrom f fuel (h + 1) j
    else i

def search (n : ℕ) (f : ℕ → Bool) : ℕ := searchFrom f n 0 n

/-- The indices at which the loop evaluates `f`. -/
def probesFrom (f : ℕ → Bool) : ℕ → ℕ → ℕ → List ℕ
  | 0, _, _ => []
  | fuel + 1, i, j =>
    if i < j then
      let h := (i + j) / 2
      h :: if f h then probesFrom f fuel i h else probesFrom f fuel (h + 1) j
    else []

def probes (n : ℕ) (f : ℕ → Bool) : List ℕ := probesFrom f n 0 n

variable {f : ℕ → Bool}

private theorem probesFrom_lt {fuel i j k : ℕ} (hk : k ∈ probesFrom f fuel i j) : k < j := by
  induction fuel generalizing i j with
  | zero => cases hk
  | succ fuel ih =>
    rw [probesFrom] at hk
    split at hk
    · rcases List.mem_cons.mp hk with rfl | hk
      · omega
      · split at hk
        · exact Nat.lt_trans (ih hk) (by omega)
        · exact ih hk
    · cases hk

variable {n : ℕ}

theorem lt_of_mem_probes {k : ℕ} (hk : k ∈ probes n f) : k < n :=
  probesFrom_lt hk

private theorem searchFrom_spec (hmono : ∀ a b, a ≤ b → b < n → f a = true → f b = true)
    {fuel i j : ℕ} (hij : i ≤ j) (hjn : j ≤ n) (hfuel : j - i ≤ fuel)
    (hlow : ∀ k < i, f k = false) :
    searchFrom f fuel i j ≤ j ∧ (∀ k < searchFrom f fuel i j, f k = false) ∧
      (searchFrom f fuel i j < j → f (searchFrom f fuel i j) = true) := by
  induction fuel generalizing i j with
  | zero =>
    rw [searchFrom]
    exact ⟨hij, hlow, fun hlt => by omega⟩
  | succ fuel ih =>
    rw [searchFrom]
    split
    · rename_i hlt
      simp only
      cases hf : f ((i + j) / 2) with
      | true =>
        rw [if_pos rfl]
        obtain ⟨hle, hfalse, htrue⟩ :=
          ih (j := (i + j) / 2) (by omega) (by omega) (by omega) hlow
        refine ⟨by omega, hfalse, fun _ => ?_⟩
        rcases Nat.lt_or_ge (searchFrom f fuel i ((i + j) / 2)) ((i + j) / 2) with h | h
        · exact htrue h
        · exact hmono _ _ h (by omega) hf
      | false =>
        rw [if_neg Bool.false_ne_true]
        refine ih (by omega) hjn (by omega) ?_
        intro k hk
        cases hk' : f k with
        | false => rfl
        | true => cases hf.symm.trans (hmono k _ (by omega) (by omega) hk')
    · exact ⟨hij, hlow, fun hlt => by omega⟩

theorem search_spec (hmono : ∀ a b, a ≤ b → b < n → f a = true → f b = true) :
    search n f ≤ n ∧ (∀ k < search n f, f k = false) ∧ (search n f < n → f (search n f) = true) :=
  searchFrom_spec hmono (Nat.zero_le n) (Nat.le_refl n) (by omega) (by omega)

end ChilizChain
