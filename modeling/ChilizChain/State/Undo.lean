import ChilizChain.Lib.Run
import ChilizChain.State.Tracking

/-! Reverting to a snapshot takes back everything that was done after it, except that the code of
an account is lost if it was replaced before it had been loaded. -/

namespace ChilizChain

open List StateDB StateObject AccessList UndoLog FixedBytes Option

/-- The answers of all getters. -/
@[ext] structure StateAnswers where
  exist : Address → Bool
  balance : Address → Word
  nonce : Address → UInt64
  code : Address → Bytes
  codeHash : Address → Hash
  codeSize : Address → ℕ
  state : Address → Hash → Hash
  committedState : Address → Hash → Hash
  transientState : Address → Hash → Hash
  hasSelfDestructed : Address → Bool
  refund : UInt64
  logs : Hash → List Log
  addressInAccessList : Address → Bool
  slotInAccessList : Address → Hash → Bool × Bool

/-- Calls that stay after the snapshot `id`: none that reverts to it or to an earlier one, and
none that ends the transaction. -/
def StateOp.After (id : ℕ) : StateOp → Prop
  | .revertToSnapshot revid => id < revid
  | .nextTransaction .. => False
  | _ => True

/-- Calls that only add to the journal. -/
def StateOp.IsLogged : StateOp → Prop
  | .snapshot | .revertToSnapshot _ | .nextTransaction .. => False
  | _ => True

namespace StateDB

variable {keccak : Bytes → Hash} (reader : Reader keccak)

def answers (s : StateDB) : StateAnswers where
  exist := s.exist reader
  balance := s.getBalance reader
  nonce := s.getNonce reader
  code := s.getCode reader
  codeHash := s.getCodeHash reader
  codeSize := s.getCodeSize reader
  state := s.getState reader
  committedState := s.getCommittedState reader
  transientState := s.getTransientState
  hasSelfDestructed := s.hasSelfDestructed reader
  refund := s.getRefund
  logs := s.getLogs
  addressInAccessList := s.addressInAccessList
  slotInAccessList := s.slotInAccessList

/-- Accounts are created only where there is none. -/
def InScope (s : StateDB) : StateOp → Prop
  | .createAccount addr => s.exist reader addr = false
  | _ => True

/-- The code that a call replaces has been loaded, or there is none. -/
def CodeLoadedFor (s : StateDB) : StateOp → Prop
  | .setCode addr _ => ∀ obj ∈ s.object reader addr, obj.CodeLoaded keccak
  | _ => True

/-- What every reachable state satisfies: each valid revision is within reach of the journal, as
far as code is left aside. -/
structure WellFormed (s : StateDB) : Prop where
  codesKnown : s.CodesKnown reader
  indexed : s.accessList.Indexed
  ids : ∀ r ∈ s.journal.validRevisions, r.id < s.journal.nextRevisionId
  ordered : s.journal.validRevisions.Pairwise
    fun r r' => r.id < r'.id ∧ r.journalIndex ≤ r'.journalIndex
  within : ∀ r ∈ s.journal.validRevisions, r.journalIndex ≤ s.journal.entries.length
  reachable : ∀ r ∈ s.journal.validRevisions, ∃ w : StateView,
    (trackingLog reader false s.stateObjectsDestruct).undoneTo r.journalIndex s = some w ∧
      w.accessList.Indexed

/-- The journal still leads back to what was seen at the snapshot `id`. -/
def Reaches (id : ℕ) (w : StateView) (s : StateDB) : Prop :=
  ∃ r ∈ s.journal.validRevisions, r.id = id ∧
    (trackingLog reader true s.stateObjectsDestruct).undoneTo r.journalIndex s = some w

variable {reader} {R : Reader keccak} {s s' : StateDB} {addr : Address} {w : StateView}
  {op : StateOp}

theorem answers_eq (s : StateDB) : s.answers R =
      { exist := fun addr => ((s.view R).accounts addr).isSome
        balance := fun addr => ((s.view R).accounts addr).elim 0 (·.balance)
        nonce := fun addr => ((s.view R).accounts addr).elim 0 (·.nonce)
        code := fun addr => ((s.view R).accounts addr).elim [] (·.code)
        codeHash := fun addr =>
          ((s.view R).accounts addr).elim (zero 32) (·.codeHash)
        codeSize := fun addr => ((s.view R).accounts addr).elim 0 (·.code.length)
        state := fun addr key =>
          ((s.view R).accounts addr).elim (zero 32) (·.storage key)
        committedState := fun addr key =>
          ((s.view R).accounts addr).elim (zero 32) (·.committed key)
        transientState := (s.view R).transient
        hasSelfDestructed := fun addr =>
          ((s.view R).accounts addr).elim false (·.selfDestructed)
        refund := (s.view R).refund
        logs := (s.view R).logs
        addressInAccessList := (s.view R).accessList.containsAddress
        slotInAccessList := (s.view R).accessList.contains } := by
  have hsize : ∀ obj : StateObject, obj.codeSize R = (obj.loadCode R).code.length := by
    intro obj
    rw [loadCode_code, codeSize]
    by_cases hcode : obj.code = []
    · by_cases hhash : obj.data.codeHash = emptyCodeHash keccak <;> simp [hcode, hhash]
    · simp [hcode]
  ext1
  case codeSize =>
    funext addr
    simp only [answers, getCodeSize, getStateObject_fst, view]
    cases s.object R addr with
    | none => rfl
    | some obj => exact hsize obj
  case transientState | refund | logs | addressInAccessList | slotInAccessList => rfl
  case exist =>
    funext addr
    simp only [answers, exist, getStateObject_fst, view, isSome_map]
  case balance | nonce | code | codeHash | hasSelfDestructed =>
    funext addr
    simp only [answers, getBalance, getNonce, getCode, getCodeHash, hasSelfDestructed,
      getStateObject_fst, view]
    cases s.object R addr <;> rfl
  case state | committedState =>
    funext addr key
    simp only [answers, getState, getCommittedState, getStateObject_fst, view]
    cases s.object R addr <;> rfl

theorem answers_of_view (h : s'.view R = s.view R) : s'.answers R = s.answers R := by
  rw [answers_eq, answers_eq, h]

theorem new_wellFormed : WellFormed R .new where
  codesKnown := fun addr obj h => by simp [new] at h
  indexed := new_indexed
  ids := fun r h => absurd h not_mem_nil
  ordered := List.Pairwise.nil
  within := fun r h => absurd h not_mem_nil
  reachable := fun r h => absurd h not_mem_nil

theorem Grows.undoneTo_eq {exact : Bool} {n : ℕ} (h : Grows R exact s s')
    (hn : n ≤ s.journal.entries.length) :
    (trackingLog R exact s'.stateObjectsDestruct).undoneTo n s' =
      (trackingLog R exact s.stateObjectsDestruct).undoneTo n s := by
  rw [h.destructs]
  refine h.tracks.undoneTo_eq ?_
  cases exact <;> exact hn

theorem Grows.wellFormed (h : Grows R false s s') (hs : WellFormed R s) :
    WellFormed R s' where
  codesKnown := h.codesKnown hs.codesKnown
  indexed := h.indexed hs.indexed
  ids := by
    rw [h.validRevisions, h.nextRevisionId]
    exact hs.ids
  ordered := by
    rw [h.validRevisions]
    exact hs.ordered
  within := by
    rw [h.validRevisions]
    exact fun r hr => (hs.within r hr).trans h.tracks.length_le
  reachable := by
    rw [h.validRevisions]
    intro r hr
    rw [h.undoneTo_eq (hs.within r hr)]
    exact hs.reachable r hr

variable {id : ℕ}

theorem Grows.reaches (h : Grows R true s s') (hs : WellFormed R s)
    (hreaches : Reaches R id w s) : Reaches R id w s' := by
  obtain ⟨r, hr, hid, hw⟩ := hreaches
  refine ⟨r, h.validRevisions ▸ hr, hid, ?_⟩
  rw [h.undoneTo_eq (hs.within r hr), hw]

variable (hs : WellFormed R s) (hscope : s.InScope R op)
  (h : s.step R op = some s')

include hs hscope h in
theorem step_logs (hop : op.IsLogged) :
    Logs R false s s' ∧ (s.CodeLoadedFor R op → Grows R true s s') := by
  have hboth : Logs R true s s' →
      Logs R false s s' ∧ (s.CodeLoadedFor R op → Grows R true s s') :=
    fun hlogs => ⟨hlogs.weaken, fun _ => hlogs.grows⟩
  cases op with
  | setCode addr code =>
    cases h
    exact ⟨s.setCode_logs addr code, fun hloaded =>
      s.setCode_grows_of_loaded addr hs.codesKnown hloaded code⟩
  | snapshot | revertToSnapshot _ | nextTransaction _ _ _ _ _ => exact hop.elim
  | addBalance addr amount => cases h; exact hboth (s.addBalance_logs addr amount)
  | subBalance addr amount => cases h; exact hboth (s.subBalance_logs addr amount)
  | setBalance addr amount => cases h; exact hboth (s.setBalance_logs addr amount)
  | setNonce addr nonce => cases h; exact hboth (s.setNonce_logs addr nonce)
  | setState addr key value => cases h; exact hboth (s.setState_logs addr key value)
  | setTransientState addr key value =>
    cases h
    exact hboth (s.setTransientState_logs addr key value)
  | createAccount addr =>
    cases h
    refine hboth (createObject_logs ?_)
    rw [← getStateObject_fst]
    exact isSome_eq_false_iff.mp hscope |> isNone_iff_eq_none.mp
  | createContract addr => exact hboth (s.createContract_logs addr h)
  | selfDestruct addr => cases h; exact hboth (s.selfDestruct_logs addr)
  | selfDestruct6780 addr => cases h; exact hboth (s.selfDestruct6780_logs addr)
  | addLog address topics data => cases h; exact hboth (s.addLog_logs address topics data)
  | addRefund gas => cases h; exact hboth (s.addRefund_logs gas)
  | subRefund gas => exact hboth (s.subRefund_logs h)
  | addAddressToAccessList addr => cases h; exact hboth (s.addAddressToAccessList_logs addr)
  | addSlotToAccessList addr slot =>
    cases h; exact hboth (s.addSlotToAccessList_logs addr hs.indexed slot)
  | loadAccount addr => cases h; exact hboth (getStateObject_inv rfl).1
  | loadCode addr => cases h; exact hboth (s.loadCode_logs addr)
  | loadState addr key => cases h; exact hboth (s.loadState_logs addr key)

/-! ## Snapshots -/

include hs in
theorem snapshot_wellFormed : WellFormed R s.snapshot.2 where
  codesKnown := hs.codesKnown
  indexed := hs.indexed
  ids := by
    intro r hr
    rcases mem_append.mp hr with hr | hr
    · exact (hs.ids r hr).trans (Nat.lt_succ_self _)
    · rw [mem_singleton.mp hr]
      exact Nat.lt_succ_self _
  ordered := by
    refine pairwise_append.mpr ⟨hs.ordered, pairwise_singleton _ _, fun r hr r' hr' => ?_⟩
    rw [mem_singleton.mp hr']
    exact ⟨hs.ids r hr, hs.within r hr⟩
  within := by
    intro r hr
    rcases mem_append.mp hr with hr | hr
    · exact hs.within r hr
    · rw [mem_singleton.mp hr]
      exact le_rfl
  reachable := by
    intro r hr
    rcases mem_append.mp hr with hr | hr
    · exact hs.reachable r hr
    · rw [mem_singleton.mp hr]
      exact ⟨(s.view R).eraseCodes, undoneTo_length s, hs.indexed⟩

theorem snapshot_reaches (s : StateDB) : Reaches R s.snapshot.1 (s.view R) s.snapshot.2 :=
  ⟨⟨s.journal.nextRevisionId, s.journal.entries.length⟩, by simp [snapshot, Journal.snapshot], rfl,
    undoneTo_length s⟩

theorem undoneTo_eraseCodes (destructs : Std.ExtTreeMap Address StateObject) (n : ℕ) (s : StateDB) :
    (trackingLog R false destructs).undoneTo n s =
      ((trackingLog R true destructs).undoneTo n s).map .eraseCodes :=
  undoneTo_project (undo_eraseCodes destructs) n s

theorem span_validRevisions {pre post : List Revision} {r : Revision}
    (hordered : (pre ++ r :: post).Pairwise
      fun r r' => r.id < r'.id ∧ r.journalIndex ≤ r'.journalIndex) :
    (pre ++ r :: post).span (fun r' => decide (r'.id < r.id)) = (pre, r :: post) := by
  have hpre : ∀ r' ∈ pre, r'.id < r.id := fun r' hr' =>
    ((pairwise_append.mp hordered).2.2 r' hr' r mem_cons_self).1
  rw [span_eq_takeWhile_dropWhile, takeWhile_append_of_pos (by simpa using hpre),
    dropWhile_append_of_pos (by simpa using hpre)]
  simp

include hs in
theorem revertToSnapshot_view {pre post : List Revision} {r : Revision}
    (hrevisions : s.journal.validRevisions = pre ++ r :: post) :
    ∃ s' w, s.revertToSnapshot R r.id = some s' ∧
      (trackingLog R true s.stateObjectsDestruct).undoneTo r.journalIndex s = some w ∧
      s'.view R = w ∧ w.accessList.Indexed ∧
      s'.journal.entries = s.journal.entries.drop (s.journal.entries.length - r.journalIndex) ∧
      s'.journal.validRevisions = pre ∧ s'.journal.nextRevisionId = s.journal.nextRevisionId ∧
      s'.stateObjectsDestruct = s.stateObjectsDestruct ∧ s'.CodesKnown R := by
  have hr : r ∈ s.journal.validRevisions := by simp [hrevisions]
  obtain ⟨w', hw', hindexed⟩ := hs.reachable r hr
  rw [undoneTo_eraseCodes] at hw'
  obtain ⟨w, hw, rfl⟩ := map_eq_some_iff.mp hw'
  obtain ⟨s₁, hrevert, hview, hentries, -, hnext, hdestructs, hknown⟩ := revert_view hw
  refine ⟨{ s₁ with journal := { s₁.journal with validRevisions := pre } }, w, ?_, hw, hview,
    hindexed, hentries, rfl, hnext, hdestructs, hknown hs.codesKnown⟩
  have hordered := hs.ordered
  rw [hrevisions] at hordered
  rw [revertToSnapshot, hrevisions, span_validRevisions hordered]
  simp [hrevert]

theorem revertToSnapshot_inv {revid : ℕ} (h : s.revertToSnapshot R revid = some s') :
    ∃ pre r post, s.journal.validRevisions = pre ++ r :: post ∧ r.id = revid := by
  unfold revertToSnapshot at h
  rw [span_eq_takeWhile_dropWhile] at h
  split at h
  · cases h
  · rename_i kept r post hspan
    split at h
    · cases h
    · rename_i hid
      obtain ⟨hkept, hpost⟩ := Prod.mk.inj hspan
      refine ⟨kept, r, post, ?_, not_not.mp hid⟩
      rw [← hkept, ← hpost, takeWhile_append_dropWhile]

include hs in
theorem revertToSnapshot_spec {revid : ℕ} (h : s.revertToSnapshot R revid = some s') :
    WellFormed R s' ∧
      ∀ {id w}, id < revid → Reaches R id w s → Reaches R id w s' := by
  obtain ⟨pre, r, post, hrevisions, rfl⟩ := revertToSnapshot_inv h
  obtain ⟨s₁, w, hs₁, hw, hview, hindexed, hentries, hpre, hnext, hdestructs, hknown⟩ :=
    revertToSnapshot_view hs hrevisions
  cases h.symm.trans hs₁
  have hordered := hs.ordered
  rw [hrevisions] at hordered
  obtain ⟨hpreOrdered, -, hcross⟩ := pairwise_append.mp hordered
  have hmem : ∀ r' ∈ pre, r' ∈ s.journal.validRevisions := fun r' hr' => by
    rw [hrevisions]
    exact mem_append_left _ hr'
  have hindex : ∀ r' ∈ pre, r'.journalIndex ≤ r.journalIndex := fun r' hr' =>
    (hcross r' hr' r mem_cons_self).2
  have hr : r.journalIndex ≤ s.journal.entries.length := hs.within r (by simp [hrevisions])
  have hlength : s'.journal.entries.length = r.journalIndex := by
    rw [hentries, length_drop]
    omega
  -- what was within reach before the reverted revision still is
  have hundone : ∀ exact, ∀ r' ∈ pre,
      (trackingLog R exact s'.stateObjectsDestruct).undoneTo r'.journalIndex s' =
        (trackingLog R exact s.stateObjectsDestruct).undoneTo r'.journalIndex s := by
    intro exact r' hr'
    rw [hdestructs]
    subst hview
    cases exact with
    | true => exact undoneTo_of_undone hentries hw (hindex r' hr') hr
    | false =>
      refine undoneTo_of_undone hentries ?_ (hindex r' hr') hr
      exact (undoneTo_eraseCodes _ _ s).trans (congrArg (Option.map _) hw)
  refine ⟨⟨hknown, ?_, ?_, ?_, ?_, ?_⟩, fun {id w'} hid hreaches => ?_⟩
  · have hlist : s'.accessList = w.accessList := congrArg StateView.accessList hview
    rw [hlist]
    exact hindexed
  · rw [hpre, hnext]
    exact fun r' hr' => hs.ids r' (hmem r' hr')
  · rw [hpre]
    exact hpreOrdered
  · rw [hpre, hlength]
    exact hindex
  · rw [hpre]
    intro r' hr'
    rw [hundone false r' hr']
    exact hs.reachable r' (hmem r' hr')
  · obtain ⟨r', hr', hid', hw'⟩ := hreaches
    have hr'pre : r' ∈ pre := by
      rw [hrevisions] at hr'
      refine (mem_append.mp hr').resolve_right fun hlater => ?_
      rcases mem_cons.mp hlater with rfl | hpost
      · omega
      · have hlt := (pairwise_cons.mp (pairwise_append.mp hordered).2.1).1 r' hpost
        omega
    refine ⟨r', hpre ▸ hr'pre, hid', ?_⟩
    rw [hundone true r' hr'pre, hw']

/-! ## Transactions -/

theorem finalise_code (addr : Address) (destructed : Bool) (obj : StateObject) :
    (obj.finalise R addr destructed).code = obj.code ∧
      (obj.finalise R addr destructed).data = obj.data := by
  have hslot : ∀ (obj : StateObject) (slot : Hash × Hash),
      (obj.finaliseSlot R addr destructed slot).code = obj.code ∧
        (obj.finaliseSlot R addr destructed slot).data = obj.data := by
    intro obj slot
    unfold finaliseSlot cacheCommittedState
    dsimp only
    split
    · split <;> exact ⟨rfl, rfl⟩
    · split <;> exact ⟨rfl, rfl⟩
  have hslots : ∀ (slots : List (Hash × Hash)) (obj : StateObject),
      (slots.foldl (finaliseSlot R addr destructed) obj).code = obj.code ∧
        (slots.foldl (finaliseSlot R addr destructed) obj).data = obj.data := by
    intro slots
    induction slots with
    | nil => exact fun _ => ⟨rfl, rfl⟩
    | cons slot slots ih =>
      intro obj
      obtain ⟨hcode, hdata⟩ := ih (obj.finaliseSlot R addr destructed slot)
      exact ⟨hcode.trans (hslot obj slot).1, hdata.trans (hslot obj slot).2⟩
  exact hslots _ obj

theorem CodesKnown.finaliseObject (h : s.CodesKnown R) (del : Bool)
    (addr : Address) : (s.finaliseObject R del addr).CodesKnown R := by
  unfold StateDB.finaliseObject
  split
  · exact h
  · rename_i obj hobj
    split
    · intro addr' obj' hobj'
      simp only [Std.ExtTreeMap.getElem?_erase] at hobj'
      split at hobj'
      · cases hobj'
      · exact h _ _ hobj'
    · have hsame : (obj.finalise R addr (s.destructed addr)).code = obj.code ∧
          (obj.finalise R addr (s.destructed addr)).data = obj.data := finalise_code addr _ obj
      obtain ⟨hcode, hdata⟩ := hsame
      exact h.setStateObject ((h _ _ hobj).congr hcode (congrArg StateAccount.codeHash hdata))

theorem CodesKnown.finalise (h : s.CodesKnown R) (del : Bool) :
    (s.finalise R del).CodesKnown R := by
  have hfold : ∀ (addrs : List Address) {s : StateDB}, s.CodesKnown R →
      (addrs.foldl (StateDB.finaliseObject R del) s).CodesKnown R := by
    intro addrs
    induction addrs with
    | nil => exact id
    | cons addr addrs ih => exact fun h => ih (h.finaliseObject del addr)
  exact hfold _ h

theorem finalise_accessList (s : StateDB) (del : Bool) :
    (s.finalise R del).accessList = s.accessList := by
  have hobject : ∀ (s : StateDB) (addr : Address),
      (s.finaliseObject R del addr).accessList = s.accessList := by
    intro s addr
    unfold finaliseObject
    split
    · rfl
    · split <;> rfl
  have hfold : ∀ (addrs : List Address) (s : StateDB),
      (addrs.foldl (finaliseObject R del) s).accessList = s.accessList := by
    intro addrs
    induction addrs with
    | nil => exact fun _ => rfl
    | cons addr addrs ih => exact fun s => (ih _).trans (hobject s addr)
  exact hfold _ s

theorem prepare_indexed (h : s.accessList.Indexed) (isEIP2929 : Bool)
    (list : List (Address × List Hash)) : (s.prepare isEIP2929 list).accessList.Indexed := by
  have hslots : ∀ (addr : Address) (keys : List Hash) {al : AccessList}, al.Indexed →
      (keys.foldl (fun al key => (al.addSlot addr key).2) al).Indexed := by
    intro addr keys
    induction keys with
    | nil => exact id
    | cons key keys ih => exact fun hal => ih (addSlot_indexed hal addr key)
  have hlist : ∀ {al : AccessList}, al.Indexed →
      (list.foldl (fun al el => el.2.foldl (fun al key => (al.addSlot el.1 key).2)
        (al.addAddress el.1).2) al).Indexed := by
    induction list with
    | nil => exact id
    | cons el list ih =>
      exact fun hal => ih (hslots el.1 el.2 (addAddress_indexed hal el.1))
  unfold prepare
  dsimp only
  split
  · exact hlist new_indexed
  · exact h

/-! ## Runs -/

include hs hscope h in
theorem step_wellFormed : WellFormed R s' := by
  by_cases hop : op.IsLogged
  · exact (step_logs hs hscope h hop).1.grows.wellFormed hs
  · cases op with
    | snapshot =>
      cases h
      exact snapshot_wellFormed hs
    | revertToSnapshot revid => exact (revertToSnapshot_spec hs h).1
    | nextTransaction del thash txIndex isEIP2929 list =>
      cases h
      refine ⟨hs.codesKnown.finalise del, prepare_indexed ?_ _ _,
        fun r hr => absurd hr not_mem_nil, List.Pairwise.nil,
        fun r hr => absurd hr not_mem_nil, fun r hr => absurd hr not_mem_nil⟩
      change (s.finalise R del).accessList.Indexed
      rw [finalise_accessList]
      exact hs.indexed
    | _ => exact absurd trivial hop

include hs hscope in
/-- Every call after a snapshot keeps the way back to it, if it replaces loaded code only. -/
theorem step_reaches (hafter : op.After id) (hloaded : s.CodeLoadedFor R op)
    (h : s.step R op = some s')
    (hreaches : Reaches R id w s) : Reaches R id w s' := by
  by_cases hop : op.IsLogged
  · exact ((step_logs hs hscope h hop).2 hloaded).reaches hs hreaches
  · cases op with
    | snapshot =>
      cases h
      obtain ⟨r, hr, hid, hw⟩ := hreaches
      exact ⟨r, mem_append_left _ hr, hid, hw⟩
    | revertToSnapshot revid => exact (revertToSnapshot_spec hs h).2 hafter hreaches
    | nextTransaction del thash txIndex isEIP2929 list => exact hafter.elim
    | _ => exact absurd trivial hop

variable (reader) in
/-- A call within the scope of the journal. -/
def ScopedStep (s : StateDB) (op : StateOp) (s' : StateDB) : Prop :=
  s.InScope reader op ∧ s.step reader op = some s'

theorem run_wellFormed {H : List (StateOp × StateDB)} {s₀ : StateDB} (hs₀ : WellFormed R s₀)
    (hrun : Run (fun _ => ScopedStep R) s₀ H s) : WellFormed R s := by
  induction hrun with
  | start => exact hs₀
  | next _ h ih => exact step_wellFormed ih h.1 h.2

theorem run_reaches {N : List (StateOp × StateDB)} {s₀ : StateDB} (hs₀ : WellFormed R s₀)
    (hreaches : Reaches R id w s₀) (hrun : Run (fun _ => ScopedStep R) s₀ N s)
    (hafter : ∀ x ∈ N, x.1.After id) (hloaded : ∀ x ∈ N, x.2.CodeLoadedFor R x.1) :
    Reaches R id w s := by
  induction hrun with
  | start => exact hreaches
  | next before h ih =>
    obtain ⟨hop, hops⟩ := forall_mem_cons.mp hafter
    obtain ⟨hcode, hcodes⟩ := forall_mem_cons.mp hloaded
    exact step_reaches (run_wellFormed hs₀ before) h.1 hop hcode h.2 (ih hops hcodes)

end StateDB

/-- From every reachable state, after a snapshot and any calls after it that replace only code
that has been loaded, reverting to the snapshot succeeds and every getter answers as it did when
the snapshot was taken. -/
theorem revertToSnapshot_restores {keccak : Bytes → Hash} (reader : Reader keccak)
    {H N : List (StateOp × StateDB)} {s s' : StateDB}
    (hreach : Run (fun _ => StateDB.ScopedStep reader) .new H s)
    (hrun : Run (fun _ => StateDB.ScopedStep reader) s.snapshot.2 N s')
    (hafter : ∀ x ∈ N, x.1.After s.snapshot.1) (hloaded : ∀ x ∈ N, x.2.CodeLoadedFor reader x.1) :
    ∃ s'', s'.revertToSnapshot reader s.snapshot.1 = some s'' ∧
      s''.answers reader = s.answers reader := by
  have hs := run_wellFormed new_wellFormed hreach
  have hs₀ := snapshot_wellFormed hs
  have hs' := run_wellFormed hs₀ hrun
  obtain ⟨r, hr, hid, hw⟩ :=
    run_reaches hs₀ s.snapshot_reaches hrun hafter hloaded
  obtain ⟨pre, post, hrevisions⟩ := append_of_mem hr
  obtain ⟨s'', w, hrevert, hundone, hview, -⟩ := revertToSnapshot_view hs' hrevisions
  rw [hw] at hundone
  cases hundone
  exact ⟨s'', hid ▸ hrevert, answers_of_view hview⟩

/-! ## A state with one contract -/

namespace Sample

/-- A stand-in for the hash: the length. -/
def lengthHash (code : Bytes) : Hash := FixedBytes.ofBytes 32 [UInt8.ofNat code.length]

def contract : Address := FixedBytes.ofBytes 20 [0xc0]

def contractCode : Bytes := [0x60, 0x01]

def contractReader : Reader lengthHash where
  account addr :=
    if addr = contract then some ⟨1, 0, emptyRootHash lengthHash, lengthHash contractCode⟩ else none
  storage _ _ := FixedBytes.zero 32
  code hash := if hash = lengthHash contractCode then contractCode else []
  keccak_code := by
    intro addr acct h _
    split at h
    · cases h
      rfl
    · cases h

end Sample

open Sample in
/-- The code of a contract is replaced after it has been loaded, and restored. -/
theorem revertToSnapshot_restores_sample :
    ∃ s'', ((StateDB.new.snapshot.2.loadCode contractReader contract).setCode contractReader
        contract [0xfe]).revertToSnapshot contractReader StateDB.new.snapshot.1 = some s'' ∧
      s''.answers contractReader = StateDB.new.answers contractReader := by
  let s₀ := new.snapshot.2
  let s₁ := s₀.loadCode contractReader contract
  have hrun : Run (fun _ => ScopedStep contractReader) s₀
      [(.setCode contract [0xfe], s₁), (.loadCode contract, s₀)]
      (s₁.setCode contractReader contract [0xfe]) :=
    .next (.next .start ⟨trivial, rfl⟩) ⟨trivial, rfl⟩
  have hloaded : ∀ obj ∈ s₁.object contractReader contract, obj.CodeLoaded lengthHash := by
    intro obj hobj
    cases hobj
    exact Or.inl (by decide)
  refine revertToSnapshot_restores contractReader .start hrun ?_ ?_
  · simp [StateOp.After]
  · simpa [CodeLoadedFor] using hloaded

open Sample in
/-- The code of a contract is replaced before it has been loaded: reverting clears it. -/
theorem revertToSnapshot_loses_code :
    ∃ s'', (StateDB.new.snapshot.2.setCode contractReader contract [0xfe]).revertToSnapshot
        contractReader StateDB.new.snapshot.1 = some s'' ∧
      StateDB.new.getCode contractReader contract = contractCode ∧
      s''.getCode contractReader contract = [] ∧
      StateDB.new.getCodeHash contractReader contract = lengthHash contractCode ∧
      s''.getCodeHash contractReader contract = emptyCodeHash lengthHash ∧
      s''.answers contractReader ≠ StateDB.new.answers contractReader :=
  ⟨_, rfl, rfl, rfl, rfl, rfl, fun h =>
    absurd (congrFun (congrArg StateAnswers.code h) contract) (by decide)⟩

end ChilizChain
