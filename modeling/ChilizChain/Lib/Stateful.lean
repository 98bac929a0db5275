import ChilizChain.Lib.Result

/-! Computations that read and write a state and may fail, where a failure keeps the state
reached so far. Two kinds of rules are provided: `Triple`, pre- and postconditions in the
usual sense, and `Determined`, which says that under an invariant the result of a computation
does not depend on the state at all. -/

abbrev Stateful (σ ε α : Type) := ExceptT ε (StateM σ) α

namespace Stateful

variable {σ ε α β : Type}

/-- Run a computation: its result and the state it leaves. -/
def exec (x : Stateful σ ε α) (s : σ) : Except ε α × σ := x.run.run s

/-- A computation that does not touch the state. -/
def ofExcept (r : Except ε α) : Stateful σ ε α := ExceptT.mk (pure r)

/-- Run a computation and replace its error. -/
def mapError (f : ε → ε) (x : Stateful σ ε α) : Stateful σ ε α := ExceptT.adapt f x

/-- Run a computation for its effect on the state and hand out its result. -/
def attempt (x : Stateful σ ε α) : Stateful σ ε (Except ε α) :=
  ExceptT.mk (Except.ok <$> x.run)

@[simp] theorem exec_pure (a : α) (s : σ) : exec (pure a : Stateful σ ε α) s = (.ok a, s) := rfl

@[simp] theorem exec_throw (e : ε) (s : σ) :
    exec (throw e : Stateful σ ε α) s = (.error e, s) := rfl

@[simp] theorem exec_ofExcept (r : Except ε α) (s : σ) :
    exec (ofExcept r : Stateful σ ε α) s = (r, s) := rfl

@[simp] theorem exec_get (s : σ) : exec (get : Stateful σ ε σ) s = (.ok s, s) := rfl

@[simp] theorem exec_set (s s' : σ) : exec (set s' : Stateful σ ε PUnit) s = (.ok ⟨⟩, s') := rfl

@[simp] theorem exec_modify (f : σ → σ) (s : σ) :
    exec (modify f : Stateful σ ε PUnit) s = (.ok ⟨⟩, f s) := rfl

@[simp] theorem exec_mapError (f : ε → ε) (x : Stateful σ ε α) (s : σ) :
    exec (mapError f x) s = ((exec x s).1.mapError f, (exec x s).2) := rfl

@[simp] theorem exec_attempt (x : Stateful σ ε α) (s : σ) :
    exec (attempt x) s = (.ok (exec x s).1, (exec x s).2) := rfl

theorem exec_bind (x : Stateful σ ε α) (f : α → Stateful σ ε β) (s : σ) :
    exec (x >>= f) s =
      match exec x s with
      | (.ok a, s') => exec (f a) s'
      | (.error e, s') => (.error e, s') := by
  simp only [exec, ExceptT.run_bind, StateT.run_bind]
  rcases h : x.run.run s with ⟨_ | a, s'⟩ <;> rfl

variable {x : Stateful σ ε α} {f : α → Stateful σ ε β} {s s' : σ}

theorem exec_bind_ok {a : α} (h : exec x s = (.ok a, s')) : exec (x >>= f) s = exec (f a) s' := by
  rw [exec_bind, h]

variable {e : ε}

theorem exec_bind_error (h : exec x s = (.error e, s')) : exec (x >>= f) s = (.error e, s') := by
  rw [exec_bind, h]

theorem exec_bind_ofExcept (r : Except ε α) (f : α → Stateful σ ε β) (s : σ) :
    exec (ofExcept r >>= f) s =
      match r with
      | .ok a => exec (f a) s
      | .error e => (.error e, s) := by
  cases r with
  | ok a => exact exec_bind_ok rfl
  | error e => exact exec_bind_error rfl

theorem ok_inj {a b : α} (h : ((.ok a, s) : Except ε α × σ) = (.ok b, s')) : a = b ∧ s = s' := by
  simpa using h

theorem exec_bind_eq_ok {s'' : σ} {b : β} (h : exec (x >>= f) s = (.ok b, s'')) :
    ∃ a s', exec x s = (.ok a, s') ∧ exec (f a) s' = (.ok b, s'') := by
  rw [exec_bind] at h
  rcases hx : exec x s with ⟨_ | a, s'⟩
  · simp [hx] at h
  · rw [hx] at h
    exact ⟨a, s', rfl, h⟩

theorem exec_ofExcept_bind_eq_ok {r : Except ε α} {b : β}
    (h : exec (ofExcept r >>= f) s = (.ok b, s')) :
    ∃ a, r = .ok a ∧ exec (f a) s = (.ok b, s') := by
  cases r with
  | error e => simp [exec_bind_ofExcept] at h
  | ok a => exact ⟨a, rfl, h⟩

theorem exec_mapError_eq_ok {f : ε → ε} {a : α} (h : exec (mapError f x) s = (.ok a, s')) :
    exec x s = (.ok a, s') := by
  rw [exec_mapError] at h
  rcases hx : exec x s with ⟨_ | b, t⟩
  · simp [hx, Except.mapError] at h
  · rwa [hx] at h

/-! ## Errors -/

theorem exec_bind_eq_error {s'' : σ} (h : exec (x >>= f) s = (.error e, s'')) :
    exec x s = (.error e, s'') ∨
      ∃ a s', exec x s = (.ok a, s') ∧ exec (f a) s' = (.error e, s'') := by
  rw [exec_bind] at h
  rcases hx : exec x s with ⟨e' | a, s'⟩
  · rw [hx] at h
    cases h
    exact .inl rfl
  · rw [hx] at h
    exact .inr ⟨a, s', rfl, h⟩

theorem exec_bind_pure_eq_error {f : α → β}
    (h : exec (x >>= fun a => pure (f a)) s = (.error e, s')) : exec x s = (.error e, s') := by
  rcases exec_bind_eq_error h with hx | ⟨a, t, -, hpure⟩
  · exact hx
  · cases hpure

/-- Every error of the computation satisfies `P`. -/
def Raises (P : ε → Prop) (x : Stateful σ ε α) : Prop :=
  ∀ s e s', exec x s = (.error e, s') → P e

namespace Raises

variable {P : ε → Prop}

theorem pure (a : α) : Raises P (Pure.pure a : Stateful σ ε α) := by
  intro s e s' h
  simp at h

theorem throw {e : ε} (he : P e) : Raises P (MonadExcept.throw e : Stateful σ ε α) := by
  intro s e' s' h
  simp only [exec_throw, Prod.mk.injEq, Except.error.injEq] at h
  exact h.1 ▸ he

theorem get : Raises P (MonadState.get : Stateful σ ε σ) := by
  intro s e s' h
  simp at h

theorem update (f : σ → σ) : Raises P (modify f : Stateful σ ε PUnit) := by
  intro s e s' h
  simp at h

theorem write (s : σ) : Raises P (set s : Stateful σ ε PUnit) := by
  intro t e s' h
  simp at h

theorem bind {x : Stateful σ ε α} {f : α → Stateful σ ε β} (hx : Raises P x)
    (hf : ∀ a, Raises P (f a)) : Raises P (x >>= f) := by
  intro s e s' h
  rcases exec_bind_eq_error h with hexec | ⟨a, t, -, hexec⟩
  · exact hx _ _ _ hexec
  · exact hf a _ _ _ hexec

end Raises

/-! ## Pre- and postconditions -/

/-- From every state that satisfies `pre`, the result and the final state satisfy `post`. -/
def Triple (pre : σ → Prop) (x : Stateful σ ε α) (post : Except ε α → σ → Prop) : Prop :=
  ∀ s, pre s → post (exec x s).1 (exec x s).2

/-! ## Invariants -/

/-- `inv` survives the computation, whatever its result. -/
def Preserves (inv : σ → Prop) (x : Stateful σ ε α) : Prop := Triple inv x fun _ s => inv s

namespace Preserves

variable {inv : σ → Prop}

theorem pure (a : α) : Preserves inv (Pure.pure a : Stateful σ ε α) := fun _ h => h

theorem throw (e : ε) : Preserves inv (MonadExcept.throw e : Stateful σ ε α) := fun _ h => h

theorem ofExcept (r : Except ε α) : Preserves inv (Stateful.ofExcept r : Stateful σ ε α) :=
  fun _ h => h

theorem bind {x : Stateful σ ε α} {f : α → Stateful σ ε β} (hx : Preserves inv x)
    (hf : ∀ a, Preserves inv (f a)) : Preserves inv (x >>= f) := by
  intro s hs
  have hmid := hx s hs
  rw [exec_bind]
  rcases h : exec x s with ⟨_ | a, s'⟩
  · simpa [h] using hmid
  · exact hf a s' (by simpa [h] using hmid)

theorem get : Preserves inv (MonadState.get : Stateful σ ε σ) := fun _ h => h

theorem update {f : σ → σ} (hf : ∀ s, inv s → inv (f s)) :
    Preserves inv (modify f : Stateful σ ε PUnit) := fun s h => hf s h

theorem mapError {x : Stateful σ ε α} (f : ε → ε) (hx : Preserves inv x) :
    Preserves inv (Stateful.mapError f x) := fun s hs => hx s hs

end Preserves

/-! ## Computations whose result the state cannot influence -/

/-- Under `inv` the computation answers `r`, and `inv` survives it. -/
def Answers (inv : σ → Prop) (x : Stateful σ ε α) (r : Except ε α) : Prop :=
  Triple inv x fun r' s => r' = r ∧ inv s

theorem Answers.bind_error {inv : σ → Prop} (hx : Answers inv x (.error e)) :
    Answers inv (x >>= f) (.error e) := by
  intro s hs
  obtain ⟨hr, hinv⟩ := hx s hs
  have hexec : exec x s = (.error e, (exec x s).2) := by rw [← hr]
  rw [exec_bind_error hexec]
  exact ⟨rfl, hinv⟩

/-- Under `inv` the result of the computation is the same in every state. -/
def Determined (inv : σ → Prop) (x : Stateful σ ε α) : Prop := ∃ r, Answers inv x r

namespace Determined

variable {inv : σ → Prop}

theorem ofExcept (r : Except ε α) : Determined inv (Stateful.ofExcept r : Stateful σ ε α) :=
  ⟨r, fun _ h => ⟨rfl, h⟩⟩

theorem pure (a : α) : Determined inv (Pure.pure a : Stateful σ ε α) :=
  ⟨.ok a, fun _ h => ⟨rfl, h⟩⟩

theorem throw (e : ε) : Determined inv (MonadExcept.throw e : Stateful σ ε α) :=
  ⟨.error e, fun _ h => ⟨rfl, h⟩⟩

variable {x : Stateful σ ε α}

theorem bind_of_answers {f : α → Stateful σ ε β} {r : Except ε α} (hx : Answers inv x r)
    (hf : ∀ a, r = .ok a → Determined inv (f a)) : Determined inv (x >>= f) := by
  cases r with
  | error e => exact ⟨.error e, hx.bind_error⟩
  | ok a =>
    obtain ⟨r', hr'⟩ := hf a rfl
    refine ⟨r', fun s hs => ?_⟩
    obtain ⟨hr, hinv⟩ := hx s hs
    have hexec : exec x s = (.ok a, (exec x s).2) := by rw [← hr]
    rw [exec_bind_ok hexec]
    exact hr' _ hinv

theorem bind {f : α → Stateful σ ε β} (hx : Determined inv x) (hf : ∀ a, Determined inv (f a)) :
    Determined inv (x >>= f) := by
  obtain ⟨r, hr⟩ := hx
  exact bind_of_answers hr fun a _ => hf a

theorem attempt (hx : Determined inv x) : Determined inv (Stateful.attempt x) := by
  obtain ⟨r, hr⟩ := hx
  exact ⟨.ok r, fun s hs => ⟨congrArg Except.ok (hr s hs).1, (hr s hs).2⟩⟩

theorem mapError (f : ε → ε) (hx : Determined inv x) : Determined inv (Stateful.mapError f x) := by
  obtain ⟨r, hr⟩ := hx
  exact ⟨r.mapError f, fun s hs => ⟨congrArg (Except.mapError f) (hr s hs).1, (hr s hs).2⟩⟩

theorem result_eq (h : Determined inv x) {s s' : σ} (hs : inv s) (hs' : inv s') :
    (exec x s).1 = (exec x s').1 := by
  obtain ⟨r, hr⟩ := h
  rw [(hr s hs).1, (hr s' hs').1]

theorem preserves (h : Determined inv x) : Preserves inv x := by
  obtain ⟨r, hr⟩ := h
  exact fun s hs => (hr s hs).2

end Determined

end Stateful
