import ChilizChain.State.View

/-! Reverting the journal does to the state what undoing its entries does to the view. -/

namespace ChilizChain

open Std.ExtTreeMap TransientStorage StateObject Function Option StateView

variable {keccak : Bytes → Hash} {reader R : Reader keccak}

theorem TransientStorage.get_set (t : TransientStorage) (addr : Address) (key value : Hash) :
    get (set t addr key value) = update (get t) addr (update (get t addr) key value) := by
  funext addr' key'
  by_cases hvalue : value = FixedBytes.zero 32
  · rw [set, if_pos hvalue]
    cases ht : t[addr]? with
    | none =>
      by_cases haddr : addr' = addr
      · subst haddr
        by_cases hkey : key' = key
        · simp [get, ht, hkey, hvalue]
        · simp [hkey]
      · simp [haddr]
    | some storage =>
      have herase : ∀ {key'}, key' ≠ key → (storage.erase key)[key']? = storage[key']? := by
        intro key' hkey
        rw [getElem?_erase, if_neg (by simpa using Ne.symm hkey)]
      dsimp only
      split
      · -- the last slot of the account
        rename_i hempty
        by_cases haddr : addr' = addr
        · subst haddr
          by_cases hkey : key' = key
          · simp [get, hkey, hvalue]
          · have hnone : storage[key']? = none := by
              rw [← herase hkey, hempty]
              exact getElem?_empty
            simp [get, ht, hkey, hnone]
        · simp [get, haddr, getElem?_erase, Ne.symm haddr]
      · by_cases haddr : addr' = addr
        · subst haddr
          by_cases hkey : key' = key
          · simp [get, hkey, hvalue]
          · simp [get, ht, hkey, herase hkey]
        · simp [get, haddr, getElem?_insert, Ne.symm haddr]
  · rw [set, if_neg hvalue]
    by_cases haddr : addr' = addr
    · subst haddr
      by_cases hkey : key' = key
      · subst hkey
        simp [get]
      · cases ht : t[addr']? <;>
          simp [get, ht, hkey, getElem?_insert, Ne.symm hkey]
    · simp [get, haddr, getElem?_insert, Ne.symm haddr]

namespace StateObject

variable (addr : Address) (destructed : Bool) (obj : StateObject)

theorem loadCode_code : (obj.loadCode R).code =
      if obj.code ≠ [] ∨ obj.data.codeHash = emptyCodeHash keccak then obj.code
      else R.code obj.data.codeHash := by
  unfold loadCode
  split <;> rfl

theorem view_setBalance (amount : Word) :
    (obj.setBalance amount).view R addr destructed =
      { obj.view R addr destructed with balance := amount } := by
  simp only [view, loadCode_code]
  rfl

theorem view_setNonce (nonce : UInt64) :
    (obj.setNonce nonce).view R addr destructed =
      { obj.view R addr destructed with nonce := nonce } := by
  simp only [view, loadCode_code]
  rfl

theorem view_newContract (newContract : Bool) :
    { obj with newContract := newContract }.view R addr destructed =
      { obj.view R addr destructed with newContract := newContract } := by
  simp only [view, loadCode_code]
  rfl

theorem view_selfDestructed (selfDestructed : Bool) :
    { obj with selfDestructed := selfDestructed }.view R addr destructed =
      { obj.view R addr destructed with selfDestructed := selfDestructed } := by
  simp only [view, loadCode_code]
  rfl

theorem view_setCode (code : Bytes) :
    (obj.setCode (keccak code) code).view R addr destructed =
      { obj.view R addr destructed with codeHash := keccak code, code := code } := by
  have hcode : ((obj.setCode (keccak code) code).loadCode R).code = code := by
    rw [loadCode_code, if_pos]
    · rfl
    · by_cases h : code = []
      · exact Or.inr (congrArg keccak h)
      · exact Or.inl h
  simp only [view, hcode]
  rfl

theorem view_setState (key value origin : Hash) :
    (obj.setState key value origin).view R addr destructed =
      { obj.view R addr destructed with
        storage := update (obj.getState R addr destructed) key
          (if value = origin then obj.getCommittedState R addr destructed key else value) } := by
  have hstorage : (obj.setState key value origin).getState R addr destructed =
      update (obj.getState R addr destructed) key
        (if value = origin then obj.getCommittedState R addr destructed key else value) := by
    funext key'
    by_cases hvalue : value = origin <;> by_cases hkey : key' = key
    · subst hkey
      simp [getState, setState, hvalue, getCommittedState]
    · simp [getState, setState, hvalue, getCommittedState, hkey, getElem?_erase,
        Ne.symm hkey]
    · subst hkey
      simp [getState, setState, hvalue]
    · simp [getState, setState, hvalue, getCommittedState, hkey, getElem?_insert,
        Ne.symm hkey]
  simp only [view, loadCode_code, hstorage]
  rfl

theorem view_loadCode : (obj.loadCode R).view R addr destructed = obj.view R addr destructed := by
  by_cases hloaded : obj.code ≠ [] ∨ obj.data.codeHash = emptyCodeHash keccak
  · rw [loadCode, if_pos hloaded]
  · have hcode : (obj.loadCode R).code = R.code obj.data.codeHash := by
      rw [loadCode_code, if_neg hloaded]
    have hdata : (obj.loadCode R).data = obj.data := by rw [loadCode, if_neg hloaded]
    have hagain : ((obj.loadCode R).loadCode R).code = (obj.loadCode R).code := by
      rw [loadCode_code]
      split
      · rfl
      · rw [hcode, hdata]
    simp only [view, hagain]
    rw [loadCode, if_neg hloaded]
    rfl

theorem getCommittedState_cacheCommittedState (key : Hash) :
    (obj.cacheCommittedState R addr destructed key).getCommittedState R addr destructed =
      obj.getCommittedState R addr destructed := by
  funext key'
  unfold cacheCommittedState
  split
  · rfl
  · rename_i hcached
    push Not at hcached
    have hpending : obj.pendingStorage[key]? = none :=
      getElem?_eq_none hcached.1
    have horigin : obj.originStorage[key]? = none := getElem?_eq_none hcached.2
    by_cases hkey : key' = key
    · subst hkey
      simp [getCommittedState, hpending, horigin]
    · simp [getCommittedState, getElem?_insert, Ne.symm hkey]

theorem getState_cacheCommittedState (key : Hash) :
    (obj.cacheCommittedState R addr destructed key).getState R addr destructed =
      obj.getState R addr destructed := by
  funext key'
  unfold getState
  rw [getCommittedState_cacheCommittedState]
  unfold cacheCommittedState
  split <;> rfl

theorem view_cacheCommittedState (key : Hash) :
    (obj.cacheCommittedState R addr destructed key).view R addr destructed =
      obj.view R addr destructed := by
  simp only [view, loadCode_code, getCommittedState_cacheCommittedState,
    getState_cacheCommittedState]
  unfold cacheCommittedState
  split <;> rfl

variable {obj}

theorem codeKnown_setCode (code : Bytes) : CodeKnown R (obj.setCode (keccak code) code) where
  loaded := fun _ => rfl
  stored := fun (h : code = []) hne => absurd (congrArg keccak h) hne

theorem CodeKnown.congr {obj' : StateObject} (h : CodeKnown R obj)
    (hcode : obj'.code = obj.code) (hhash : obj'.data.codeHash = obj.data.codeHash) :
    CodeKnown R obj' :=
  ⟨by rw [hcode, hhash]; exact h.loaded, by rw [hcode, hhash]; exact h.stored⟩

theorem CodeKnown.loadCode (h : CodeKnown R obj) : CodeKnown R (obj.loadCode R) := by
  unfold StateObject.loadCode
  split
  · exact h
  · rename_i hloaded
    push Not at hloaded
    exact ⟨fun _ => (h.stored hloaded.1 hloaded.2).symm, fun _ => h.stored hloaded.1⟩

theorem codeKnown_new {addr : Address} {acct : StateAccount} (h : R.account addr = some acct) :
    CodeKnown R (.new keccak (some acct)) where
  loaded := fun hne => absurd rfl hne
  stored := fun _ => R.keccak_code h

end StateObject

namespace StateDB

variable {s s' s'' : StateDB} {addr : Address} {w : StateView}

variable (reader) in
/-- The code hash of every loaded account is the hash of its code. -/
def CodesKnown (s : StateDB) : Prop :=
  ∀ (addr : Address) (obj : StateObject), s.stateObjects[addr]? = some obj → obj.CodeKnown reader

theorem CodesKnown.object (h : s.CodesKnown R) {obj : StateObject}
    (hobj : s.object R addr = some obj) : obj.CodeKnown R := by
  unfold StateDB.object at hobj
  rcases or_eq_some_iff.mp hobj with hlive | ⟨-, hdormant⟩
  · exact h _ _ hlive
  · unfold dormant at hdormant
    split at hdormant
    · cases hdormant
    · obtain ⟨acct, hacct, rfl⟩ := map_eq_some_iff.mp hdormant
      exact codeKnown_new hacct

theorem CodesKnown.setStateObject (h : s.CodesKnown R) {obj : StateObject}
    (hobj : obj.CodeKnown R) : (s.setStateObject addr obj).CodesKnown R := by
  intro addr' obj' hobj'
  simp only [StateDB.setStateObject, getElem?_insert] at hobj'
  split at hobj'
  · cases hobj'
    exact hobj
  · exact h _ _ hobj'

variable (reader) in
/-- What reverting leaves alone. -/
structure Frame (s s' : StateDB) : Prop where
  destructs : s'.stateObjectsDestruct = s.stateObjectsDestruct
  entries : s'.journal.entries = s.journal.entries
  validRevisions : s'.journal.validRevisions = s.journal.validRevisions
  nextRevisionId : s'.journal.nextRevisionId = s.journal.nextRevisionId
  codesKnown : s.CodesKnown reader → s'.CodesKnown reader

theorem Frame.refl (s : StateDB) : Frame R s s := ⟨rfl, rfl, rfl, rfl, id⟩

theorem Frame.of_eq (hobjects : s'.stateObjects = s.stateObjects)
    (hdestructs : s'.stateObjectsDestruct = s.stateObjectsDestruct)
    (hjournal : s'.journal = s.journal) : Frame R s s' := by
  refine ⟨hdestructs, by rw [hjournal], by rw [hjournal], by rw [hjournal], fun h => ?_⟩
  unfold CodesKnown
  rwa [hobjects]

theorem Frame.trans (h : Frame R s s') (h' : Frame R s' s'') : Frame R s s'' where
  destructs := h'.destructs.trans h.destructs
  entries := h'.entries.trans h.entries
  validRevisions := h'.validRevisions.trans h.validRevisions
  nextRevisionId := h'.nextRevisionId.trans h.nextRevisionId
  codesKnown := h'.codesKnown ∘ h.codesKnown

variable (R) in
theorem getStateObject_snd (s : StateDB) (addr : Address) :
    ((s.getStateObject R addr).2.view R = s.view R) ∧ Frame R s (s.getStateObject R addr).2 := by
  unfold getStateObject
  cases hlive : s.stateObjects[addr]? with
  | some obj => exact ⟨rfl, .refl s⟩
  | none =>
    dsimp only
    split
    · exact ⟨rfl, .refl s⟩
    · rename_i hdestruct
      cases hacct : R.account addr with
      | none => exact ⟨rfl, .refl s⟩
      | some acct =>
        dsimp only
        have hobject : s.object R addr = some (.new keccak (some acct)) := by
          have hmem : addr ∉ s.stateObjectsDestruct := by simpa [destructed] using hdestruct
          simp [object, dormant, hlive, hmem, hacct]
        have haccount : (s.view R).accounts addr =
            some ((StateObject.new keccak (some acct)).view R addr (s.destructed addr)) := by
          simp only [view, hobject, map_some]
        refine ⟨?_, rfl, rfl, rfl, rfl, fun h => h.setStateObject (codeKnown_new hacct)⟩
        rw [view_setStateObject, setAccount_self haccount]

theorem modifyObject_view {f : StateObject → StateObject} {g : AccountView → AccountView}
    (hfg : ∀ obj : StateObject, (f obj).view R addr (s.destructed addr) =
      g (obj.view R addr (s.destructed addr)))
    (hcode : ∀ obj : StateObject, obj.CodeKnown R → (f obj).CodeKnown R)
    (h : (s.view R).modify addr g = some w) :
    ∃ s', s.modifyObject R addr f = some s' ∧ s'.view R = w ∧ Frame R s s' := by
  obtain ⟨acc, hacc, rfl⟩ := map_eq_some_iff.mp h
  obtain ⟨obj, hobj, rfl⟩ := map_eq_some_iff.mp hacc
  obtain ⟨hview, hframe⟩ := s.getStateObject_snd R addr
  have hfst := s.getStateObject_fst R addr
  rw [hobj] at hfst
  unfold modifyObject
  rcases hget : s.getStateObject R addr with ⟨found, s₁⟩
  rw [hget] at hview hframe hfst
  dsimp only at hview hframe hfst
  subst hfst
  have hdestructed : s₁.destructed = s.destructed := by
    unfold destructed
    rw [hframe.destructs]
  refine ⟨_, rfl, ?_, hframe.destructs, hframe.entries, hframe.validRevisions,
    hframe.nextRevisionId, fun hknown => ?_⟩
  · rw [view_setStateObject, hview, hdestructed, hfg]
  · exact (hframe.codesKnown hknown).setStateObject (hcode _ (hknown.object hobj))

theorem view_erase (s : StateDB) (addr : Address) :
    { s with stateObjects := s.stateObjects.erase addr }.view R =
      (s.view R).setAccount addr ((dormant R s.stateObjectsDestruct addr).map
        (·.view R addr (s.destructed addr))) := by
  ext1
  · funext addr'
    by_cases h : addr' = addr
    · subst h
      simp [view, object, setAccount, destructed]
    · simp [view, object, setAccount, destructed, h, getElem?_erase,
        Ne.symm h]
  all_goals rfl

theorem getLogs_removeLast (s : StateDB) {txhash : Hash} (h : s.getLogs txhash ≠ []) :
    { s with
      logs :=
        if (s.getLogs txhash).length = 1 then s.logs.erase txhash
        else s.logs.insert txhash (s.getLogs txhash).dropLast }.getLogs =
      update s.getLogs txhash (s.getLogs txhash).dropLast := by
  funext txhash'
  by_cases hlength : (s.getLogs txhash).length = 1
  · rw [if_pos hlength]
    obtain ⟨log, hlog⟩ := List.length_eq_one_iff.mp hlength
    by_cases htx : txhash' = txhash
    · subst htx
      rw [hlog, update_self]
      simp [getLogs]
    · simp [htx, getLogs, getElem?_erase, Ne.symm htx]
  · rw [if_neg hlength]
    by_cases htx : txhash' = txhash
    · subst htx
      simp [getLogs]
    · simp [htx, getLogs, getElem?_insert, Ne.symm htx]

theorem revertEntry_view {entry : JournalEntry}
    (h : undo R s.stateObjectsDestruct entry (s.view R) = some w) :
    ∃ s', s.revertEntry R entry = some s' ∧ s'.view R = w ∧ Frame R s s' := by
  -- changes of accounts that have to exist keep their codes known
  have hsame : ∀ {obj obj' : StateObject}, obj'.code = obj.code →
      obj'.data.codeHash = obj.data.codeHash → obj.CodeKnown R → obj'.CodeKnown R :=
    fun hcode hhash hobj => hobj.congr hcode hhash
  cases entry with
  | createObjectChange account =>
    cases h
    refine ⟨_, rfl, view_erase s account, rfl, rfl, rfl, rfl, fun hknown addr obj hobj => ?_⟩
    simp only [getElem?_erase] at hobj
    split at hobj
    · cases hobj
    · exact hknown _ _ hobj
  | createContractChange account =>
    exact modifyObject_view (fun obj => obj.view_newContract _ _ _) (fun _ => hsame rfl rfl) h
  | selfDestructChange account =>
    obtain ⟨hview, hframe⟩ := s.getStateObject_snd R account
    have hfst := s.getStateObject_fst R account
    rcases hget : s.getStateObject R account with ⟨found, s₁⟩
    rw [hget] at hview hframe hfst
    dsimp only at hview hframe hfst
    subst hfst
    cases hobj : s.object R account with
    | none =>
      have hnone : (s.view R).accounts account = none := by simp [view, hobj]
      rw [undo, hnone] at h
      cases h
      exact ⟨s₁, by rw [revertEntry, hget, hobj], hview, hframe⟩
    | some obj =>
      -- the account exists, so that the entry is reverted like the others
      have hsome : (s.view R).accounts account =
          some (obj.view R account (s.destructed account)) := by simp [view, hobj]
      have hmodify : (s.view R).modify account
          (fun acc => { acc with selfDestructed := false }) = some w := by
        rw [undo, hsome] at h
        rw [StateView.modify, hsome]
        exact h
      have hchange : ∃ s', s.modifyObject R account
          (fun obj => { obj with selfDestructed := false }) = some s' ∧ s'.view R = w ∧
          Frame R s s' :=
        modifyObject_view (fun obj => obj.view_selfDestructed _ _ _)
          (fun _ => hsame rfl rfl) hmodify
      unfold modifyObject at hchange
      rw [hget, hobj] at hchange
      rw [revertEntry, hget, hobj]
      exact hchange
  | balanceChange account prev =>
    exact modifyObject_view (fun obj => obj.view_setBalance _ _ _) (fun _ => hsame rfl rfl) h
  | nonceChange account prev =>
    exact modifyObject_view (fun obj => obj.view_setNonce _ _ _) (fun _ => hsame rfl rfl) h
  | storageChange account key prevvalue origvalue =>
    exact modifyObject_view (fun obj => obj.view_setState _ _ _ _ _) (fun _ => hsame rfl rfl) h
  | codeChange account prevCode =>
    exact modifyObject_view (fun obj => obj.view_setCode _ _ _)
      (fun _ _ => codeKnown_setCode _) h
  | refundChange prev => exact ⟨_, rfl, Option.some.inj h, .of_eq rfl rfl rfl⟩
  | addLogChange txhash =>
    rw [undo] at h
    split at h
    · cases h
    · rename_i hlogs
      cases h
      refine ⟨_, if_neg hlogs, ?_, .of_eq rfl rfl rfl⟩
      ext1
      case logs => exact s.getLogs_removeLast hlogs
      all_goals rfl
  | touchChange account => exact ⟨s, rfl, Option.some.inj h, .refl s⟩
  | accessListAddAccountChange address =>
    exact ⟨_, rfl, Option.some.inj h, .of_eq rfl rfl rfl⟩
  | accessListAddSlotChange address slot =>
    obtain ⟨accessList, hdelete, rfl⟩ := map_eq_some_iff.mp h
    have hdelete' : s.accessList.deleteSlot address slot = some accessList := hdelete
    exact ⟨{ s with accessList := accessList }, by simp [revertEntry, hdelete'], rfl,
      .of_eq rfl rfl rfl⟩
  | transientStorageChange account key prevalue =>
    refine ⟨_, rfl, ?_, .of_eq rfl rfl rfl⟩
    cases h
    ext1
    case transient => exact get_set _ _ _ _
    all_goals rfl

theorem revertOne_view {entry : JournalEntry}
    (h : undo R s.stateObjectsDestruct entry (s.view R) = some w) :
    ∃ s', s.revertOne R entry = some s' ∧ s'.view R = w ∧ Frame R s s' := by
  obtain ⟨s', hrevert, hview, hframe⟩ := revertEntry_view h
  rw [revertOne, hrevert]
  cases entry.dirtied with
  | none => exact ⟨s', rfl, hview, hframe⟩
  | some addr =>
    exact ⟨_, rfl, hview, hframe.destructs, hframe.entries, hframe.validRevisions,
      hframe.nextRevisionId, hframe.codesKnown⟩

/-- `journal.revert` takes the state back to what the journal says was seen. -/
theorem revert_view {n : ℕ} (h : (undoLog R s.stateObjectsDestruct).undoneTo n s = some w) :
    ∃ s', s.revert R n = some s' ∧ s'.view R = w ∧
      s'.journal.entries = s.journal.entries.drop (s.journal.entries.length - n) ∧
      s'.journal.validRevisions = s.journal.validRevisions ∧
      s'.journal.nextRevisionId = s.journal.nextRevisionId ∧
      s'.stateObjectsDestruct = s.stateObjectsDestruct ∧ (s.CodesKnown R → s'.CodesKnown R) := by
  have hstep : ∀ {e s₁ w}, Frame R s s₁ →
      undo R s.stateObjectsDestruct e (s₁.view R) = some w →
      ∃ s₂, s₁.revertOne R e = some s₂ ∧ s₂.view R = w ∧ Frame R s s₂ := by
    intro e s₁ w hframe hundo
    rw [← hframe.destructs] at hundo
    obtain ⟨s₂, hrevert, hview, hframe'⟩ := revertOne_view hundo
    exact ⟨s₂, hrevert, hview, hframe.trans hframe'⟩
  obtain ⟨s', hfold, hview, hframe⟩ := UndoLog.revertAll hstep (.refl s) h
  refine ⟨{ s' with journal := { s'.journal with
      entries := s'.journal.entries.drop (s.journal.entries.length - n) } },
    ?_, hview, ?_, hframe.validRevisions, hframe.nextRevisionId, hframe.destructs,
    hframe.codesKnown⟩
  · rw [revert]
    exact bind_eq_some_iff.mpr ⟨s', hfold, rfl⟩
  · exact congrArg _ hframe.entries

end StateDB

end ChilizChain
