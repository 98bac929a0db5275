import Mathlib.Data.List.Basic

/-! Undo logs: a state carries a log of entries, newest first, and undoing an entry is a partial
function on what is observed of the state. Steps that log enough to be undone keep every earlier
observation within reach. -/

/-- How a kind of state is logged, observed and undone. -/
structure UndoLog (σ ω ε : Type) where
  log : σ → List ε
  view : σ → ω
  undo : ε → ω → Option ω

namespace UndoLog

variable {σ ω ε : Type} {U : UndoLog σ ω ε} {s s' s'' : σ} {n m : ℕ}

/-- Undo entries in order, the newest first. -/
def undoAll (U : UndoLog σ ω ε) : List ε → ω → Option ω
  | [], w => some w
  | e :: es, w => (U.undo e w).bind (U.undoAll es)

@[simp] theorem undoAll_nil (w : ω) : U.undoAll [] w = some w := rfl

theorem undoAll_cons (e : ε) (es : List ε) (w : ω) :
    U.undoAll (e :: es) w = (U.undo e w).bind (U.undoAll es) := rfl

theorem undoAll_append (es es' : List ε) (w : ω) :
    U.undoAll (es ++ es') w = (U.undoAll es w).bind (U.undoAll es') := by
  induction es generalizing w with
  | nil => rfl
  | cons e es ih =>
    rw [List.cons_append, undoAll_cons, undoAll_cons, Option.bind_assoc]
    exact congrArg _ (funext ih)

/-- The entries that were logged after the first `n`. -/
def logSince (U : UndoLog σ ω ε) (n : ℕ) (s : σ) : List ε :=
  (U.log s).take ((U.log s).length - n)

/-- What was observed when the log had `n` entries, as far as the log tells. -/
def undoneTo (U : UndoLog σ ω ε) (n : ℕ) (s : σ) : Option ω := U.undoAll (U.logSince n s) (U.view s)

/-- The later state logged what is needed to get back to the observation of the earlier one. -/
def Tracks (U : UndoLog σ ω ε) (s s' : σ) : Prop :=
  ∃ es, U.log s' = es ++ U.log s ∧ U.undoAll es (U.view s') = some (U.view s)

theorem undoneTo_length (s : σ) : U.undoneTo (U.log s).length s = some (U.view s) := by
  simp [undoneTo, logSince]

theorem Tracks.refl (s : σ) : U.Tracks s s := ⟨[], rfl, rfl⟩

theorem Tracks.of_eq (hlog : U.log s' = U.log s) (hview : U.view s' = U.view s) : U.Tracks s s' :=
  ⟨[], hlog, congrArg some hview⟩

theorem Tracks.single {e : ε} (hlog : U.log s' = e :: U.log s)
    (hundo : U.undo e (U.view s') = some (U.view s)) : U.Tracks s s' :=
  ⟨[e], hlog, by rw [undoAll_cons, hundo]; rfl⟩

theorem Tracks.trans (h : U.Tracks s s') (h' : U.Tracks s' s'') : U.Tracks s s'' := by
  obtain ⟨es, hlog, hundo⟩ := h
  obtain ⟨es', hlog', hundo'⟩ := h'
  exact ⟨es' ++ es, by rw [hlog', hlog, List.append_assoc],
    by rw [undoAll_append, hundo']; exact hundo⟩

theorem Tracks.length_le (h : U.Tracks s s') : (U.log s).length ≤ (U.log s').length := by
  obtain ⟨es, hlog, -⟩ := h
  simp [hlog]

theorem Tracks.undoneTo_eq (h : U.Tracks s s') (hn : n ≤ (U.log s).length) :
    U.undoneTo n s' = U.undoneTo n s := by
  obtain ⟨es, hlog, hundo⟩ := h
  have hsince : U.logSince n s' = es ++ U.logSince n s := by
    rw [logSince, logSince, hlog, List.length_append, Nat.add_sub_assoc hn,
      List.take_length_add_append]
  rw [undoneTo, undoneTo, hsince, undoAll_append, hundo]
  rfl

theorem undoneTo_of_undone (hlog : U.log s' = (U.log s).drop ((U.log s).length - n))
    (hview : U.undoneTo n s = some (U.view s')) (hmn : m ≤ n) (hn : n ≤ (U.log s).length) :
    U.undoneTo m s' = U.undoneTo m s := by
  have hlength : (U.log s').length = n := by
    rw [hlog, List.length_drop]
    omega
  have hsplit : U.logSince m s = U.logSince n s ++ U.logSince m s' := by
    rw [logSince, logSince, logSince, hlength, hlog]
    have hsum : (U.log s).length - m = (U.log s).length - n + (n - m) := by omega
    rw [hsum, List.take_add]
  rw [undoneTo, undoneTo, hsplit, undoAll_append]
  rw [undoneTo] at hview
  rw [hview]
  rfl

theorem revertAll {revert : ε → σ → Option σ} {Inv : σ → Prop}
    (hrevert : ∀ {e s w}, Inv s → U.undo e (U.view s) = some w →
      ∃ s', revert e s = some s' ∧ U.view s' = w ∧ Inv s')
    {es : List ε} {w : ω} (hinv : Inv s) (hundo : U.undoAll es (U.view s) = some w) :
    ∃ s', es.foldlM (fun s e => revert e s) s = some s' ∧ U.view s' = w ∧ Inv s' := by
  induction es generalizing s with
  | nil => exact ⟨s, rfl, Option.some.inj hundo, hinv⟩
  | cons e es ih =>
    obtain ⟨w', hw', hrest⟩ := Option.bind_eq_some_iff.mp hundo
    obtain ⟨s', hs', hview, hinv'⟩ := hrevert hinv hw'
    obtain ⟨s'', hs'', hresult⟩ := ih hinv' (hview ▸ hrest)
    refine ⟨s'', ?_, hresult⟩
    rw [List.foldlM_cons, hs']
    exact hs''

/-! ## Coarser views -/

/-- The same log, observed through `f`. -/
def project (U : UndoLog σ ω ε) (f : ω → ω) : UndoLog σ ω ε where
  log := U.log
  view s := f (U.view s)
  undo e w := (U.undo e w).map f

variable {f : ω → ω}

section

variable (hf : ∀ e w, (U.undo e (f w)).map f = (U.undo e w).map f)
include hf

theorem undoAll_project (es : List ε)
    (w : ω) : (U.project f).undoAll es (f w) = (U.undoAll es w).map f := by
  induction es generalizing w with
  | nil => rfl
  | cons e es ih =>
    rw [undoAll_cons, undoAll_cons]
    change ((U.undo e (f w)).map f).bind _ = _
    rw [hf]
    cases U.undo e w with
    | none => rfl
    | some w' => exact ih w'

theorem undoneTo_project (n : ℕ) (s : σ) : (U.project f).undoneTo n s = (U.undoneTo n s).map f :=
  undoAll_project hf _ _

theorem Tracks.project (h : U.Tracks s s') : (U.project f).Tracks s s' := by
  obtain ⟨es, hlog, hundo⟩ := h
  refine ⟨es, hlog, ?_⟩
  change (U.project f).undoAll es (f (U.view s')) = _
  rw [undoAll_project hf, hundo]
  rfl

end

end UndoLog
