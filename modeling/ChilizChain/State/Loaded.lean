import ChilizChain.State.Undo

/-! Code stays loaded. An account whose code has been loaded, or that has no code, is in that
condition after every call of the transaction: reverting takes an account away only if it was
created where there was none. -/

namespace ChilizChain

open Option List

def StateOp.IsNextTransaction : StateOp → Bool
  | .nextTransaction .. => true
  | _ => false

variable {keccak : Bytes → Hash} {reader R : Reader keccak}

namespace StateDB

variable {s s' s'' : StateDB} {addr : Address} {entry : JournalEntry}

theorem codeLoadedAt_of_codeHash (hkeccak : ∀ code, keccak code ≠ FixedBytes.zero 32)
    (hknown : s.CodesKnown R) (h : s.getCodeHash R addr = FixedBytes.zero 32 ∨
      s.getCodeHash R addr = emptyCodeHash keccak) : CodeLoadedAt R addr s := by
  intro obj hobj
  rw [mem_def] at hobj
  unfold getCodeHash at h
  rw [getStateObject_fst, hobj] at h
  by_cases hcode : obj.code = []
  · refine .inr ?_
    by_contra hhash
    refine hkeccak _ (((hknown.object hobj).stored hcode hhash).trans ?_)
    exact h.resolve_right hhash
  · exact .inl hcode

/-! ## Reverting -/

theorem modifyObject_retains {f : StateObject → StateObject}
    (hf : ∀ obj : StateObject, CodeKept R obj (f obj))
    (h : s.modifyObject R addr f = some s') : Retains R s s' := by
  unfold modifyObject at h
  rcases hget : s.getStateObject R addr with ⟨found, s₁⟩
  obtain ⟨hload, hlive⟩ := getStateObject_inv hget
  rw [hget] at h
  cases found with
  | none => cases h
  | some obj =>
    cases h
    exact hload.retains.trans (.setStateObject (object_of_live (hlive obj rfl)) (hf obj).loaded)

variable (hentry : ∀ addr, entry = .createObjectChange addr →
  dormant R s.stateObjectsDestruct addr = none)

include hentry in
theorem revertEntry_retains (h : s.revertEntry R entry = some s') : Retains R s s' := by
  cases entry with
  | createObjectChange account =>
    cases h
    refine ⟨rfl, fun addr hloaded live hlive => ?_, id⟩
    by_cases haddr : addr = account
    · -- the account is gone
      subst haddr
      simp [object, hentry addr rfl] at hlive
    · refine hloaded live ?_
      rw [mem_def] at hlive ⊢
      rw [← hlive]
      simp [object, Std.ExtTreeMap.getElem?_erase, Ne.symm haddr]
  | createContractChange account =>
    exact modifyObject_retains (f := fun obj => { obj with newContract := false })
      (fun _ => .congr rfl rfl) h
  | selfDestructChange account =>
    rw [revertEntry] at h
    rcases hget : s.getStateObject R account with ⟨found, s₁⟩
    obtain ⟨hload, hlive⟩ := getStateObject_inv hget
    rw [hget] at h
    cases found with
    | none =>
      cases h
      exact hload.retains
    | some obj =>
      cases h
      exact hload.retains.trans (.setStateObject (object_of_live (hlive obj rfl)) id)
  | balanceChange account prev =>
    exact modifyObject_retains (f := (·.setBalance prev)) (fun _ => .congr rfl rfl) h
  | nonceChange account prev =>
    exact modifyObject_retains (f := (·.setNonce prev)) (fun _ => .congr rfl rfl) h
  | storageChange account key prevvalue origvalue =>
    exact modifyObject_retains (f := (·.setState key prevvalue origvalue))
      (fun _ => .congr rfl rfl) h
  | codeChange account prevCode =>
    exact modifyObject_retains (fun obj => .setCode obj prevCode) h
  | addLogChange txhash =>
    rw [revertEntry] at h
    split at h
    · cases h
    · cases h
      exact .of_objects rfl rfl fun _ => id
  | accessListAddSlotChange address slot =>
    obtain ⟨accessList, -, heq⟩ := bind_eq_some_iff.mp h
    cases heq
    exact .of_objects rfl rfl fun _ => id
  | refundChange _ | touchChange _ | accessListAddAccountChange _ | transientStorageChange _ _ _ =>
    cases h
    exact .of_objects rfl rfl fun _ => id

include hentry in
theorem revertOne_retains (h : s.revertOne R entry = some s') : Retains R s s' := by
  obtain ⟨s₁, hrevert, heq⟩ := bind_eq_some_iff.mp h
  refine (revertEntry_retains hentry hrevert).trans ?_
  cases hdirtied : entry.dirtied with
  | none =>
    rw [hdirtied] at heq
    cases heq
    exact .refl _
  | some addr =>
    rw [hdirtied] at heq
    cases heq
    exact .of_objects rfl rfl fun _ => id

theorem foldlM_revertOne_retains {es : List JournalEntry}
    (hentries : ∀ addr, JournalEntry.createObjectChange addr ∈ es →
      dormant R s.stateObjectsDestruct addr = none)
    (h : es.foldlM (revertOne R) s = some s') : Retains R s s' := by
  induction es generalizing s with
  | nil =>
    cases h
    exact .refl _
  | cons entry es ih =>
    obtain ⟨s₁, hone, hrest⟩ := bind_eq_some_iff.mp h
    have hretains := revertOne_retains (fun addr heq => hentries addr (heq ▸ mem_cons_self)) hone
    refine hretains.trans (ih (fun addr hmem => ?_) hrest)
    rw [hretains.destructs]
    exact hentries addr (mem_cons_of_mem entry hmem)

theorem revertToSnapshot_retains {revid : ℕ} (hfresh : CreatedFresh R s)
    (h : s.revertToSnapshot R revid = some s') : Retains R s s' := by
  unfold revertToSnapshot at h
  split at h
  · cases h
  · split at h
    · cases h
    · obtain ⟨s₁, hrevert, heq⟩ := bind_eq_some_iff.mp h
      cases heq
      obtain ⟨s₂, hfold, heq⟩ := bind_eq_some_iff.mp hrevert
      cases heq
      have hretains := foldlM_revertOne_retains
        (fun addr hmem => hfresh addr (mem_of_mem_take hmem)) hfold
      exact hretains.trans (.of_objects rfl rfl fun _ hmem => mem_of_mem_drop hmem)

/-! ## Calls -/

variable {op : StateOp}

variable (reader) in
/-- What holds in every reachable state. -/
structure Ready (s : StateDB) : Prop where
  wellFormed : WellFormed reader s
  createdFresh : CreatedFresh reader s

variable (hs : Ready R s) (hscope : s.InScope R op) (hop : op.IsNextTransaction = false)
  (h : s.step R op = some s')

include hs hscope hop h in
theorem step_retains : Retains R s s' := by
  by_cases hlogged : op.IsLogged
  · exact (step_logs hs.wellFormed hscope h hlogged).1.retains
  · cases op with
    | snapshot =>
      cases h
      exact .of_objects rfl rfl fun _ => id
    | revertToSnapshot revid => exact revertToSnapshot_retains hs.createdFresh h
    | nextTransaction _ _ _ _ _ => cases hop
    | _ => exact absurd trivial hlogged

theorem step_nextRevisionId_le (hs : WellFormed R s) (hscope : s.InScope R op)
    (hop : op.IsNextTransaction = false) (h : s.step R op = some s') :
    s.journal.nextRevisionId ≤ s'.journal.nextRevisionId := by
  by_cases hlogged : op.IsLogged
  · exact (step_logs hs hscope h hlogged).1.grows.nextRevisionId.ge
  · cases op with
    | snapshot =>
      cases h
      exact Nat.le_succ _
    | revertToSnapshot revid =>
      obtain ⟨pre, r, post, hrevisions, rfl⟩ := revertToSnapshot_inv h
      obtain ⟨s₁, w, hs₁, -, -, -, -, -, hnext, -⟩ := revertToSnapshot_view hs hrevisions
      cases h.symm.trans hs₁
      exact hnext.ge
    | nextTransaction _ _ _ _ _ => cases hop
    | _ => exact absurd trivial hlogged

include hs hscope hop h in
theorem Ready.step : Ready R s' :=
  ⟨step_wellFormed hs.wellFormed hscope h, (step_retains hs hscope hop h).fresh hs.createdFresh⟩

theorem run_ready {H : List (StateOp × StateDB)}
    (hrun : Run (fun _ => ScopedStep R) .new H s) : Ready R s := by
  induction hrun with
  | start => exact ⟨new_wellFormed, fun addr hmem => absurd hmem not_mem_nil⟩
  | @next H op s s' before h ih =>
    cases hop : op.IsNextTransaction with
    | false => exact ih.step h.1 hop h.2
    | true =>
      refine ⟨step_wellFormed ih.wellFormed h.1 h.2, ?_⟩
      cases op with
      | nextTransaction deleteEmptyObjects thash txIndex isEIP2929 list =>
        cases h.2
        exact fun addr hmem => absurd hmem not_mem_nil
      | _ => cases hop

end StateDB

end ChilizChain
