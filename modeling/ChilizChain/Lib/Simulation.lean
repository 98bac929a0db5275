import ChilizChain.Lib.Stateful

/-! Relations between the successful runs of two computations, and the amount that a computation
adds to a measure of its state. Each notion has one rule for sequencing; the rules for the other
constructs follow from what a run of them is. -/

namespace Stateful

variable {σ τ ε α β : Type}

/-! ## Simulation -/

/-- Every successful run of `x` from a related state is matched by one of `y`. -/
def Forward (R : σ → τ → Prop) (x : Stateful σ ε α) (y : Stateful τ ε α) (S : σ → τ → Prop) :
    Prop :=
  ∀ s t a s', R s t → exec x s = (.ok a, s') → ∃ t', exec y t = (.ok a, t') ∧ S s' t'

variable {x : Stateful σ ε α} {f : α → Stateful σ ε β}

theorem Forward.bind {R M S : σ → τ → Prop} {y : Stateful τ ε α} {g : α → Stateful τ ε β}
    (hx : Forward R x y M) (hf : ∀ a, Forward M (f a) (g a) S) :
    Forward R (x >>= f) (y >>= g) S := by
  intro s t b s'' hR h
  obtain ⟨a, s', hxs, hfs⟩ := exec_bind_eq_ok h
  obtain ⟨t', hyt, hM⟩ := hx s t a s' hR hxs
  obtain ⟨t'', hgt, hS⟩ := hf a s' t' b s'' hM hfs
  exact ⟨t'', by rw [exec_bind_ok hyt, hgt], hS⟩

/-- Every successful run of `x` is matched by one of `y` that ends in any given state related to
the last one. The first state of the run of `y` is found by going back through the run of `x`. -/
def Backward (R : σ → τ → Prop) (x : Stateful σ ε α) (y : Stateful τ ε α) (S : σ → τ → Prop) :
    Prop :=
  ∀ s a s' t', exec x s = (.ok a, s') → S s' t' → ∃ t, R s t ∧ exec y t = (.ok a, t')

theorem Backward.bind {R M S : σ → τ → Prop} {y : Stateful τ ε α} {g : α → Stateful τ ε β}
    (hx : Backward R x y M) (hf : ∀ a, Backward M (f a) (g a) S) :
    Backward R (x >>= f) (y >>= g) S := by
  intro s b s'' t'' h hS
  obtain ⟨a, s', hxs, hfs⟩ := exec_bind_eq_ok h
  obtain ⟨t', hM, hgt⟩ := hf a s' b s'' t'' hfs hS
  obtain ⟨t, hR, hyt⟩ := hx s a s' t' hxs hM
  exact ⟨t, hR, by rw [exec_bind_ok hyt, hgt]⟩

/-! ## Runs that are known to succeed -/

theorem exists_of_isOk {s : σ} (h : (exec x s).1.isOk = true) : ∃ a s', exec x s = (.ok a, s') := by
  rcases hx : exec x s with ⟨e | a, s'⟩
  · rw [hx] at h
    cases h
  · exact ⟨a, s', rfl⟩

/-- Every successful run adds `d` to the measure `m`, as long as that stays below the limit. -/
def Adds (limit : ℕ) (m : σ → ℕ) (d : ℕ) (x : Stateful σ ε α) : Prop :=
  ∀ s a s', exec x s = (.ok a, s') → m s + d < limit → m s' = m s + d

theorem Adds.bind {limit : ℕ} {m : σ → ℕ} {d₁ d₂ : ℕ} (hx : Adds limit m d₁ x)
    (hf : ∀ a, Adds limit m d₂ (f a)) : Adds limit m (d₁ + d₂) (x >>= f) := by
  intro s b s'' h hlimit
  obtain ⟨a, s', hxs, hfs⟩ := exec_bind_eq_ok h
  have hfirst := hx s a s' hxs (by omega)
  rw [hf a s' b s'' hfs (by omega), hfirst, Nat.add_assoc]

end Stateful
