import ChilizChain.Lib.Run

/-! Computations that act on a state by calls only. A call may be refused, which ends the
computation.

A `Discipline` says which calls are made; `Obeys` is proved along the structure of a computation,
and what it gives is a run of the state, about which the rest can be proved by induction. -/

namespace ChilizChain

abbrev Acting (σ : Type) := StateT σ Option

namespace Acting

variable {σ ω α β : Type}

/-- Read the state. -/
def query (f : σ → α) : Acting σ α := fun s => some (f s, s)

/-- Make a call. -/
def perform (step : σ → ω → Option σ) (op : ω) : Acting σ Unit := fun s =>
  (step s op).map fun s' => ((), s')

section Inversion

variable {s s' : σ} {m : Acting σ α} {f : α → Acting σ β}

theorem bind_inv {b : β} (h : (m >>= f) s = some (b, s')) :
    ∃ a s₁, m s = some (a, s₁) ∧ f a s₁ = some (b, s') := by
  change (m s).bind (fun p => f p.1 p.2) = some (b, s') at h
  obtain ⟨⟨a, s₁⟩, hm, hf⟩ := Option.bind_eq_some_iff.mp h
  exact ⟨a, s₁, hm, hf⟩

theorem bind_of {a : α} {s₁ : σ} (h : m s = some (a, s₁)) : (m >>= f) s = f a s₁ := by
  change (m s).bind (fun p => f p.1 p.2) = f a s₁
  rw [h]
  rfl

theorem pure_inv {a b : α} (h : (pure a : Acting σ α) s = some (b, s')) : b = a ∧ s' = s := by
  change some (a, s) = some (b, s') at h
  cases h
  exact ⟨rfl, rfl⟩

theorem query_inv {f : σ → α} {a : α} (h : (query f : Acting σ α) s = some (a, s')) :
    a = f s ∧ s' = s := by
  cases h
  exact ⟨rfl, rfl⟩

theorem perform_inv {step : σ → ω → Option σ} {op : ω} {u : Unit}
    (h : perform step op s = some (u, s')) : step s op = some s' := by
  obtain ⟨t, hstep, heq⟩ := Option.map_eq_some_iff.mp h
  cases heq
  exact hstep

end Inversion

section Keeping

variable {τ : Type} {I : σ → Prop} {f : σ → τ}

/-- The computation keeps the invariant and the value of `f`. -/
def Keeps (I : σ → Prop) (f : σ → τ) (m : Acting σ α) : Prop :=
  ∀ ⦃s a s'⦄, I s → m s = some (a, s') → I s' ∧ f s' = f s

theorem Keeps.pure (a : α) : Keeps I f (pure a : Acting σ α) := by
  intro s b s' hs h
  rw [(pure_inv h).2]
  exact ⟨hs, rfl⟩

theorem Keeps.query (g : σ → α) : Keeps I f (query g) := by
  intro s b s' hs h
  rw [(query_inv h).2]
  exact ⟨hs, rfl⟩

theorem Keeps.bind {m : Acting σ α} {g : α → Acting σ β} (hm : Keeps I f m)
    (hg : ∀ a, Keeps I f (g a)) : Keeps I f (m >>= g) := by
  intro s b s'' hs h
  obtain ⟨a, s', hmid, hend⟩ := bind_inv h
  obtain ⟨hs', hkept⟩ := hm hs hmid
  obtain ⟨hs'', hkept'⟩ := hg a hs' hend
  exact ⟨hs'', hkept'.trans hkept⟩

end Keeping

end Acting

/-! ## Disciplines -/

/-- Which calls may be made in which states, and what they keep. -/
structure Discipline (σ ω : Type) where
  step : σ → ω → Option σ
  scope : σ → ω → Prop
  invariant : σ → Prop
  invariant_step : ∀ {s op s'}, invariant s → scope s op → step s op = some s' → invariant s'

namespace Discipline

open Acting

variable {σ ω α β : Type} (D : Discipline σ ω)

def Step (s : σ) (op : ω) (s' : σ) : Prop := D.scope s op ∧ D.step s op = some s'

/-- The second state is reached from the first one by calls that may be made. -/
def Trace (s s' : σ) : Prop := ∃ N, Run (fun _ => D.Step) s N s'

/-- The computation keeps to the discipline, from every state with `pre`. -/
def Obeys (pre : σ → Prop) (m : Acting σ α) : Prop :=
  ∀ ⦃s a s'⦄, D.invariant s → pre s → m s = some (a, s') → D.Trace s s'

/-- What no call takes away. -/
def Stable (Q : σ → Prop) : Prop := ∀ ⦃s op s'⦄, D.invariant s → D.Step s op s' → Q s → Q s'

variable {D} {pre Q : σ → Prop} {s s' s'' : σ}

theorem Trace.refl (s : σ) : D.Trace s s := ⟨[], .start⟩

theorem Trace.trans (h : D.Trace s s') (h' : D.Trace s' s'') : D.Trace s s'' := by
  obtain ⟨N, hrun⟩ := h
  obtain ⟨N', hrun'⟩ := h'
  exact ⟨N' ++ N, hrun.append hrun'⟩

theorem Trace.invariant (h : D.Trace s s') (hs : D.invariant s) : D.invariant s' := by
  obtain ⟨N, hrun⟩ := h
  induction hrun with
  | start => exact hs
  | next before hstep ih => exact D.invariant_step ih hstep.1 hstep.2

theorem Trace.stable (h : D.Trace s s') (hQ : D.Stable Q) (hs : D.invariant s) (hstart : Q s) :
    Q s' := by
  obtain ⟨N, hrun⟩ := h
  induction hrun with
  | start => exact hstart
  | next before hstep ih => exact hQ (Trace.invariant ⟨_, before⟩ hs) hstep ih

/-! ### How computations are put together -/

theorem Obeys.pure (a : α) : D.Obeys pre (pure a : Acting σ α) := by
  intro s b s' _ _ h
  rw [(pure_inv h).2]
  exact .refl s

theorem Obeys.query (f : σ → α) : D.Obeys pre (query f : Acting σ α) := by
  intro s b s' _ _ h
  rw [(query_inv h).2]
  exact .refl s

theorem Obeys.perform {op : ω} (hscope : ∀ t, pre t → D.scope t op) :
    D.Obeys pre (perform D.step op) :=
  fun _ _ _ _ hs h => ⟨_, .next .start ⟨hscope _ hs, perform_inv h⟩⟩

variable {m : Acting σ α}

theorem Obeys.weaken {pre' : σ → Prop} (h : D.Obeys pre m)
    (hpre : ∀ t, D.invariant t → pre' t → pre t) : D.Obeys pre' m :=
  fun _ _ _ hs hs' hm => h hs (hpre _ hs hs') hm

variable {f : α → Acting σ β}

theorem Obeys.bind_stable (hm : D.Obeys pre m) (hQ : D.Stable Q) (hpre : ∀ t, pre t → Q t)
    (hf : ∀ a, D.Obeys Q (f a)) : D.Obeys pre (m >>= f) := by
  intro s b s'' hs hstart h
  obtain ⟨a, s', hmid, hend⟩ := bind_inv h
  have htrace := hm hs hstart hmid
  exact htrace.trans (hf a (htrace.invariant hs) (htrace.stable hQ hs (hpre _ hstart)) hend)

theorem Stable.bind (hQ : D.Stable Q) (hm : D.Obeys Q m) (hf : ∀ a, D.Obeys Q (f a)) :
    D.Obeys Q (m >>= f) :=
  hm.bind_stable hQ (fun _ hs => hs) hf

theorem Obeys.bind (hm : D.Obeys pre m) (hf : ∀ a, D.Obeys (fun _ => True) (f a)) :
    D.Obeys pre (m >>= f) :=
  hm.bind_stable (fun _ _ _ _ _ _ => trivial) (fun _ _ => trivial) hf

theorem Obeys.query_bind {f : σ → α} {g : α → Acting σ β}
    (h : ∀ a, D.Obeys (fun t => pre t ∧ f t = a) (g a)) : D.Obeys pre (Acting.query f >>= g) := by
  intro s b s'' hs hpre hm
  obtain ⟨a, s', hmid, hend⟩ := bind_inv hm
  obtain ⟨rfl, rfl⟩ := query_inv hmid
  exact h _ hs ⟨hpre, rfl⟩ hend

end Discipline

end ChilizChain
