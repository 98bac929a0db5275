import ChilizChain.State.Revert

/-! The setters log what is needed to take them back. `SetCode` does so only if the code of the
account has been loaded; otherwise the rest of the view is still tracked. -/

namespace ChilizChain

open Function StateObject StateView AccountView AccessList JournalEntry Option

def AccountView.eraseCode (acc : AccountView) : AccountView :=
  { acc with codeHash := FixedBytes.zero 32, code := [] }

namespace StateView

variable (w : StateView)

/-- The view without code. -/
def eraseCodes : StateView :=
  { w with accounts := fun addr => (w.accounts addr).map .eraseCode }

variable (addr : Address)

theorem map_eraseCode_eraseCodes : (w.eraseCodes.accounts addr).map eraseCode =
      (w.accounts addr).map eraseCode := by
  simp only [eraseCodes, map_map]
  rfl

theorem eraseCodes_congr {w w₁ w₂ : StateView} (h₁ : w₁.accounts = w.eraseCodes.accounts)
    (h₂ : w₂ = { w₁ with accounts := w.accounts }) : w₁.eraseCodes = w₂.eraseCodes := by
  subst h₂
  ext1
  case accounts =>
    funext addr
    change (w₁.accounts addr).map _ = (w.accounts addr).map _
    rw [h₁, map_eraseCode_eraseCodes]
  all_goals rfl

theorem eraseCodes_setAccount {acc acc' : Option AccountView}
    (h : acc.map eraseCode = acc'.map eraseCode) :
    (w.eraseCodes.setAccount addr acc).eraseCodes = (w.setAccount addr acc').eraseCodes := by
  have haccounts : ∀ addr',
      ((update w.eraseCodes.accounts addr acc) addr').map eraseCode =
        ((update w.accounts addr acc') addr').map eraseCode := by
    intro addr'
    by_cases haddr : addr' = addr
    · subst haddr
      simpa using h
    · simpa only [update_of_ne haddr] using w.map_eraseCode_eraseCodes addr'
  ext1
  case accounts => exact funext haccounts
  all_goals rfl

theorem eraseCodes_setAccount_self {w : StateView} {addr : Address} {acc acc' : AccountView}
    (h : w.accounts addr = some acc) (hacc : acc'.eraseCode = acc.eraseCode) :
    (w.setAccount addr (some acc')).eraseCodes = w.eraseCodes := by
  have hmap : (some acc').map eraseCode = (some acc).map eraseCode :=
    congrArg some hacc
  have hsame := w.eraseCodes_setAccount addr hmap
  rw [setAccount_self h] at hsame
  exact (w.eraseCodes_setAccount addr rfl).symm.trans hsame

theorem eraseCodes_modify {f : AccountView → AccountView}
    (hf : ∀ acc : AccountView, (f acc.eraseCode).eraseCode = (f acc).eraseCode) :
    (w.eraseCodes.modify addr f).map eraseCodes = (w.modify addr f).map eraseCodes := by
  unfold modify
  have haccount : w.eraseCodes.accounts addr = (w.accounts addr).map eraseCode := rfl
  rw [haccount]
  cases w.accounts addr with
  | none => rfl
  | some acc =>
    exact congrArg some (w.eraseCodes_setAccount addr (congrArg some (hf acc)))

end StateView

namespace StateDB

variable {keccak : Bytes → Hash} {reader R : Reader keccak} {exact : Bool} {s s' s'' : StateDB}
  {addr : Address} {obj obj' : StateObject} {entry : JournalEntry} {w : StateView}

variable (reader) in
/-- The journal as an undo log of the view, with or without code. -/
def trackingLog (exact : Bool) (destructs : Std.ExtTreeMap Address StateObject) :
    UndoLog StateDB StateView JournalEntry :=
  if exact then undoLog reader destructs else (undoLog reader destructs).project .eraseCodes

theorem undo_eraseCodes (destructs : Std.ExtTreeMap Address StateObject) (entry : JournalEntry)
    (w : StateView) : ((undo R destructs entry w.eraseCodes).map eraseCodes) =
      (undo R destructs entry w).map eraseCodes := by
  cases entry with
  | createObjectChange account => exact congrArg some (w.eraseCodes_setAccount account rfl)
  | createContractChange account => exact w.eraseCodes_modify account fun _ => rfl
  | selfDestructChange account =>
    simp only [undo]
    have haccount : w.eraseCodes.accounts account =
        (w.accounts account).map eraseCode := rfl
    rw [haccount]
    cases w.accounts account with
    | none => exact congrArg some (eraseCodes_congr rfl rfl)
    | some acc => exact congrArg some (w.eraseCodes_setAccount account rfl)
  | balanceChange account prev => exact w.eraseCodes_modify account fun _ => rfl
  | nonceChange account prev => exact w.eraseCodes_modify account fun _ => rfl
  | storageChange account key prevvalue origvalue => exact w.eraseCodes_modify account fun _ => rfl
  | codeChange account prevCode => exact w.eraseCodes_modify account fun _ => rfl
  | addLogChange txhash =>
    simp only [undo]
    have hlogs : w.eraseCodes.logs = w.logs := rfl
    rw [hlogs]
    split
    · rfl
    · exact congrArg some (eraseCodes_congr rfl rfl)
  | accessListAddSlotChange address slot =>
    simp only [undo]
    have hlist : w.eraseCodes.accessList = w.accessList := rfl
    rw [hlist]
    cases w.accessList.deleteSlot address slot with
    | none => rfl
    | some accessList => exact congrArg some (eraseCodes_congr rfl rfl)
  | refundChange _ | touchChange _ | accessListAddAccountChange _ | transientStorageChange _ _ _ =>
    exact congrArg some (eraseCodes_congr rfl rfl)

variable (reader) in
/-- A step that the journal tracks. -/
structure Grows (exact : Bool) (s s' : StateDB) : Prop where
  tracks : (trackingLog reader exact s.stateObjectsDestruct).Tracks s s'
  destructs : s'.stateObjectsDestruct = s.stateObjectsDestruct
  validRevisions : s'.journal.validRevisions = s.journal.validRevisions
  nextRevisionId : s'.journal.nextRevisionId = s.journal.nextRevisionId
  codesKnown : s.CodesKnown reader → s'.CodesKnown reader
  indexed : s.accessList.Indexed → s'.accessList.Indexed

namespace Grows

theorem refl (s : StateDB) : Grows R exact s s := ⟨.refl s, rfl, rfl, rfl, id, id⟩

theorem trans (h : Grows R exact s s') (h' : Grows R exact s' s'') :
    Grows R exact s s'' where
  tracks := h.tracks.trans (h.destructs ▸ h'.tracks)
  destructs := h'.destructs.trans h.destructs
  validRevisions := h'.validRevisions.trans h.validRevisions
  nextRevisionId := h'.nextRevisionId.trans h.nextRevisionId
  codesKnown := h'.codesKnown ∘ h.codesKnown
  indexed := h'.indexed ∘ h.indexed

theorem weaken (h : Grows R true s s') : Grows R false s s' :=
  ⟨h.tracks.project (undo_eraseCodes _), h.destructs, h.validRevisions, h.nextRevisionId,
    h.codesKnown, h.indexed⟩

theorem of_frame (hview : s'.view R = s.view R) (hframe : Frame R s s') :
    Grows R true s s' where
  tracks := .of_eq hframe.entries hview
  destructs := hframe.destructs
  validRevisions := hframe.validRevisions
  nextRevisionId := hframe.nextRevisionId
  codesKnown := hframe.codesKnown
  indexed := by
    have hlist : s'.accessList = s.accessList := congrArg StateView.accessList hview
    rw [hlist]
    exact id

end Grows

theorem journal_append (journal : Journal) (entry : JournalEntry) :
    (journal.append entry).entries = entry :: journal.entries ∧
      (journal.append entry).validRevisions = journal.validRevisions ∧
      (journal.append entry).nextRevisionId = journal.nextRevisionId := by
  unfold Journal.append
  cases entry.dirtied <;> exact ⟨rfl, rfl, rfl⟩

theorem object_of_live (h : s.stateObjects[addr]? = some obj) : s.object R addr = some obj := by
  simp [object, h]

variable (reader) in
/-- The code at the address has been loaded, or there is none. -/
def CodeLoadedAt (addr : Address) (s : StateDB) : Prop :=
  ∀ obj ∈ s.object reader addr, obj.CodeLoaded keccak

variable (reader) in
/-- The accounts that the journal says were created were not there before. -/
def CreatedFresh (s : StateDB) : Prop :=
  ∀ addr, JournalEntry.createObjectChange addr ∈ s.journal.entries →
    dormant reader s.stateObjectsDestruct addr = none

variable (reader) in
/-- A step that keeps code loaded. -/
structure Retains (s s' : StateDB) : Prop where
  destructs : s'.stateObjectsDestruct = s.stateObjectsDestruct
  loaded : ∀ addr, CodeLoadedAt reader addr s → CodeLoadedAt reader addr s'
  fresh : CreatedFresh reader s → CreatedFresh reader s'

namespace Retains

theorem refl (s : StateDB) : Retains R s s := ⟨rfl, fun _ h => h, id⟩

theorem trans (h : Retains R s s') (h' : Retains R s' s'') : Retains R s s'' :=
  ⟨h'.destructs.trans h.destructs, fun addr hs => h'.loaded addr (h.loaded addr hs),
    fun hs => h'.fresh (h.fresh hs)⟩

theorem of_objects (hobjects : s'.stateObjects = s.stateObjects)
    (hdestructs : s'.stateObjectsDestruct = s.stateObjectsDestruct)
    (hentries : ∀ addr, createObjectChange addr ∈ s'.journal.entries →
      createObjectChange addr ∈ s.journal.entries) : Retains R s s' := by
  refine ⟨hdestructs, fun addr h => ?_, fun h addr hmem => ?_⟩
  · unfold CodeLoadedAt object
    rwa [hobjects, hdestructs]
  · rw [hdestructs]
    exact h addr (hentries addr hmem)

theorem append (s : StateDB) (h : ∀ addr, entry ≠ .createObjectChange addr) :
    Retains R s (s.append entry) := by
  refine .of_objects rfl rfl fun addr hmem => ?_
  rw [show (s.append entry).journal.entries = entry :: s.journal.entries from
    (journal_append s.journal entry).1] at hmem
  exact (List.mem_cons.mp hmem).resolve_left fun heq => h addr heq.symm

theorem setStateObject (hobj : s.object R addr = some obj)
    (h : obj.CodeLoaded keccak → obj'.CodeLoaded keccak) :
    Retains R s (s.setStateObject addr obj') := by
  refine ⟨rfl, fun addr' hloaded live hlive => ?_, id⟩
  rw [object_setStateObject] at hlive
  split_ifs at hlive with haddr
  · subst haddr
    cases hlive
    exact h (hloaded obj hobj)
  · exact hloaded live hlive

end Retains

variable (reader) in
/-- A change of an account that keeps its code known and loaded. -/
structure CodeKept (obj obj' : StateObject) : Prop where
  known : obj.CodeKnown reader → obj'.CodeKnown reader
  loaded : obj.CodeLoaded keccak → obj'.CodeLoaded keccak

namespace CodeKept

theorem congr (hcode : obj'.code = obj.code) (hhash : obj'.data.codeHash = obj.data.codeHash) :
    CodeKept R obj obj' where
  known h := h.congr hcode hhash
  loaded h := by
    unfold CodeLoaded
    rwa [hcode, hhash]

theorem setCode (obj : StateObject) (code : Bytes) :
    CodeKept R obj (obj.setCode (keccak code) code) where
  known _ := codeKnown_setCode code
  loaded _ := by
    by_cases hcode : code = []
    · exact .inr (congrArg keccak hcode)
    · exact .inl hcode

theorem cacheCommittedState (obj : StateObject) (addr : Address) (destructed : Bool) (key : Hash) :
    CodeKept R obj (obj.cacheCommittedState R addr destructed key) := by
  unfold StateObject.cacheCommittedState
  split
  · exact ⟨id, id⟩
  · exact congr rfl rfl

theorem loadCode (obj : StateObject) : CodeKept R obj (obj.loadCode R) where
  known := CodeKnown.loadCode
  loaded h := by
    unfold StateObject.loadCode
    rwa [if_pos (show obj.code ≠ [] ∨ obj.data.codeHash = emptyCodeHash keccak from h)]

end CodeKept

variable (reader) in
/-- What the setters do: the journal tracks it, and code stays loaded. -/
structure Logs (exact : Bool) (s s' : StateDB) : Prop where
  grows : Grows reader exact s s'
  retains : Retains reader s s'

namespace Logs

theorem refl (s : StateDB) : Logs R exact s s := ⟨.refl s, .refl s⟩

theorem trans (h : Logs R exact s s') (h' : Logs R exact s' s'') : Logs R exact s s'' :=
  ⟨h.grows.trans h'.grows, h.retains.trans h'.retains⟩

theorem weaken (h : Logs R true s s') : Logs R false s s' := ⟨h.grows.weaken, h.retains⟩

/-- A change outside of the accounts that is logged by one entry. -/
theorem logged (entry : JournalEntry) (hentry : ∀ addr, entry ≠ .createObjectChange addr)
    (hobjects : s'.stateObjects = s.stateObjects)
    (hdestructs : s'.stateObjectsDestruct = s.stateObjectsDestruct)
    (hjournal : s'.journal = s.journal.append entry)
    (hundo : undo R s.stateObjectsDestruct entry (s'.view R) = some (s.view R))
    (hindexed : s.accessList.Indexed → s'.accessList.Indexed) : Logs R true s s' := by
  obtain ⟨hentries, hrevisions, hnext⟩ := journal_append s.journal entry
  refine ⟨⟨.single ?_ hundo, hdestructs, ?_, ?_, fun h => ?_, hindexed⟩,
    (Retains.append s hentry).trans (.of_objects hobjects hdestructs ?_)⟩
  · exact (congrArg Journal.entries hjournal).trans hentries
  · rw [hjournal, hrevisions]
  · rw [hjournal, hnext]
  · unfold CodesKnown
    rwa [hobjects]
  · rw [hjournal]
    exact fun _ => id

/-- A change of a loaded account that is logged by one entry. -/
theorem object {f : AccountView → AccountView} (hobj : s.stateObjects[addr]? = some obj)
    (hentry : ∀ addr, entry ≠ .createObjectChange addr)
    (hundo : ∀ {w : StateView} {acc}, w.accounts addr = some acc →
      undo R s.stateObjectsDestruct entry w = w.modify addr f)
    (hf : f (obj'.view R addr (s.destructed addr)) = obj.view R addr (s.destructed addr))
    (hcode : CodeKept R obj obj') : Logs R true s ((s.append entry).setStateObject addr obj') := by
  obtain ⟨hentries, hrevisions, hnext⟩ := journal_append s.journal entry
  refine ⟨⟨.single hentries ?_, rfl, hrevisions, hnext, fun h => ?_, id⟩,
    (Retains.append s hentry).trans (.setStateObject (object_of_live hobj) hcode.loaded)⟩
  · change undo R s.stateObjectsDestruct entry (view R _) = _
    rw [view_setStateObject, view_append]
    have hset : ((s.view R).setAccount addr
        (some (obj'.view R addr (s.destructed addr)))).accounts addr =
          some (obj'.view R addr (s.destructed addr)) := update_self _ _ _
    have hmodify := modify_setAccount (view_account hobj) hf
    exact (hundo hset).trans hmodify
  · have hknown : (s.append entry).CodesKnown R := h
    exact hknown.setStateObject (hcode.known (h _ _ hobj))

/-- A change of a loaded account that is not seen. -/
theorem unseen (hobj : s.stateObjects[addr]? = some obj)
    (hview : obj'.view R addr (s.destructed addr) = obj.view R addr (s.destructed addr))
    (hcode : CodeKept R obj obj') : Logs R true s (s.setStateObject addr obj') := by
  refine ⟨.of_frame ?_ ⟨rfl, rfl, rfl, rfl, fun h => h.setStateObject (hcode.known (h _ _ hobj))⟩,
    .setStateObject (object_of_live hobj) hcode.loaded⟩
  rw [view_setStateObject, hview, setAccount_self (view_account hobj)]

end Logs

theorem getStateObject_retains (s : StateDB) (addr : Address) :
    Retains R s (s.getStateObject R addr).2 := by
  unfold getStateObject
  cases hlive : s.stateObjects[addr]? with
  | some obj => exact .refl s
  | none =>
    dsimp only
    split
    · exact .refl s
    · rename_i hdestruct
      cases hacct : R.account addr with
      | none => exact .refl s
      | some acct =>
        have hmem : addr ∉ s.stateObjectsDestruct := by simpa [destructed] using hdestruct
        exact .setStateObject (by simp [object, dormant, hlive, hmem, hacct]) id

theorem getStateObject_live (h : s.getStateObject R addr = (some obj, s')) :
    s'.stateObjects[addr]? = some obj := by
  unfold getStateObject at h
  split at h
  · rename_i hlive
    cases h
    exact hlive
  · split at h
    · cases h
    · split at h
      · cases h
      · cases h
        simp [setStateObject]

theorem getStateObject_none (h : s.getStateObject R addr = (none, s')) : s' = s := by
  unfold getStateObject at h
  split at h
  · cases h
  · split at h
    · cases h
      rfl
    · split at h
      · cases h
        rfl
      · cases h

/-- The account, if it is found, is loaded afterwards. -/
theorem getStateObject_inv {found : Option StateObject}
    (h : s.getStateObject R addr = (found, s')) :
    Logs R true s s' ∧ ∀ obj ∈ found, s'.stateObjects[addr]? = some obj := by
  obtain rfl : (s.getStateObject R addr).2 = s' := congrArg Prod.snd h
  obtain ⟨hview, hframe⟩ := s.getStateObject_snd R addr
  refine ⟨⟨.of_frame hview hframe, s.getStateObject_retains addr⟩, fun obj hobj => ?_⟩
  cases hobj
  exact getStateObject_live h

theorem createObject_logs (h : s.object R addr = none) :
    Logs R true s (s.createObject keccak addr).2 := by
  obtain ⟨hentries, hrevisions, hnext⟩ := journal_append s.journal (.createObjectChange addr)
  have hdormant : dormant R s.stateObjectsDestruct addr = none :=
    (or_eq_none_iff.mp h).2
  have hnone : (s.view R).accounts addr = none := by simp [view, h]
  refine ⟨⟨.single hentries ?_, rfl, hrevisions, hnext, fun hknown => ?_, id⟩,
    rfl, fun addr' hloaded live hlive => ?_, fun hfresh addr' hmem => ?_⟩
  · change undo R s.stateObjectsDestruct (.createObjectChange addr)
      ((s.createObject keccak addr).2.view R) = some (s.view R)
    simp only [createObject, view_setStateObject, view_append, undo, hdormant, StateView.setAccount,
      map_none, update_idem]
    rw [← hnone, update_eq_self]
  · have happend : (s.append (.createObjectChange addr)).CodesKnown R := hknown
    exact happend.setStateObject ⟨fun hne => absurd rfl hne, fun _ hne => absurd rfl hne⟩
  · unfold createObject at hlive
    rw [object_setStateObject] at hlive
    split_ifs at hlive with haddr
    · cases hlive
      exact .inr rfl
    · exact hloaded live hlive
  · change createObjectChange addr' ∈ (s.journal.append _).entries at hmem
    rw [hentries] at hmem
    rcases List.mem_cons.mp hmem with heq | hmem
    · cases heq
      exact hdormant
    · exact hfresh addr' hmem

theorem getOrNewStateObject_logs (h : s.getOrNewStateObject R addr = (obj, s')) :
    Logs R true s s' ∧ s'.stateObjects[addr]? = some obj := by
  unfold getOrNewStateObject at h
  have hfst := s.getStateObject_fst R addr
  rcases hget : s.getStateObject R addr with ⟨found, s₁⟩
  obtain ⟨hload, hlive⟩ := getStateObject_inv hget
  rw [hget] at h hfst
  cases found with
  | some live =>
    cases h
    exact ⟨hload, hlive obj rfl⟩
  | none =>
    cases getStateObject_none hget
    cases h
    exact ⟨createObject_logs hfst.symm, by simp [setStateObject]⟩

/-! ## Setters -/

section Setters

variable (s) (addr)

theorem setObjectBalance_logs (hobj : s.stateObjects[addr]? = some obj) (amount : Word) :
    Logs R true s (s.setObjectBalance addr obj amount) :=
  .object hobj (by simp) (fun _ => rfl) (by rw [view_setBalance]; rfl) (.congr rfl rfl)

theorem touch_logs : Logs R true s (s.touch addr) := by
  have happend : Logs R true s (s.append (.touchChange addr)) :=
    .logged (.touchChange addr) (by simp) rfl rfl rfl rfl id
  have hdirty : ∀ s : StateDB, Logs R true s { s with journal := s.journal.dirty addr } :=
    fun _ => ⟨.of_frame rfl ⟨rfl, rfl, rfl, rfl, id⟩, .of_objects rfl rfl fun _ => id⟩
  unfold touch Journal.touchChange
  by_cases hripemd : addr = ripemd
  · rw [if_pos hripemd]
    exact happend.trans (hdirty _)
  · rw [if_neg hripemd]
    exact happend

variable (amount : Word)

theorem addBalance_logs : Logs R true s (s.addBalance R addr amount) := by
  unfold addBalance
  rcases hget : s.getOrNewStateObject R addr with ⟨obj, s₁⟩
  obtain ⟨hlogs, hobj⟩ := getOrNewStateObject_logs hget
  dsimp only
  split
  · split
    · exact hlogs.trans (s₁.touch_logs addr)
    · exact hlogs
  · exact hlogs.trans (s₁.setObjectBalance_logs addr hobj _)

theorem subBalance_logs : Logs R true s (s.subBalance R addr amount) := by
  unfold subBalance
  rcases hget : s.getOrNewStateObject R addr with ⟨obj, s₁⟩
  obtain ⟨hlogs, hobj⟩ := getOrNewStateObject_logs hget
  dsimp only
  split
  · exact hlogs
  · exact hlogs.trans (s₁.setObjectBalance_logs addr hobj _)

theorem setBalance_logs : Logs R true s (s.setBalance R addr amount) := by
  unfold setBalance
  rcases hget : s.getOrNewStateObject R addr with ⟨obj, s₁⟩
  obtain ⟨hlogs, hobj⟩ := getOrNewStateObject_logs hget
  exact hlogs.trans (s₁.setObjectBalance_logs addr hobj _)

theorem setNonce_logs (nonce : UInt64) : Logs R true s (s.setNonce R addr nonce) := by
  unfold setNonce
  rcases hget : s.getOrNewStateObject R addr with ⟨obj, s₁⟩
  obtain ⟨hlogs, hobj⟩ := getOrNewStateObject_logs hget
  refine hlogs.trans (.object hobj (by simp) (fun _ => rfl) ?_ (.congr rfl rfl))
  rw [view_setNonce]
  rfl

theorem createContract_logs (h : s.createContract R addr = some s') : Logs R true s s' := by
  unfold createContract at h
  rcases hget : s.getStateObject R addr with ⟨found, s₁⟩
  obtain ⟨hload, hlive⟩ := getStateObject_inv hget
  rw [hget] at h
  cases found with
  | none => cases h
  | some obj =>
    dsimp only at h
    split at h
    · cases h
      exact hload
    · rename_i hnew
      cases h
      refine hload.trans (.object (hlive obj rfl) (by simp) (fun _ => rfl) ?_ (.congr rfl rfl))
      rw [view_newContract]
      simp only [StateObject.view, Bool.not_eq_true] at hnew ⊢
      rw [hnew]

theorem selfDestruct_logs : Logs R true s (s.selfDestruct R addr) := by
  unfold selfDestruct
  rcases hget : s.getStateObject R addr with ⟨found, s₁⟩
  obtain ⟨hload, hlive⟩ := getStateObject_inv hget
  cases found with
  | none => exact hload
  | some obj =>
    -- the flag is set on the account as it is after its balance has been cleared
    have hflag : ∀ {s₂ : StateDB} {obj₂ : StateObject}, s₂.stateObjects[addr]? = some obj₂ →
        Logs R true s₂ (if obj₂.selfDestructed then s₂ else
          (s₂.append (.selfDestructChange addr)).setStateObject addr
            { obj₂ with selfDestructed := true }) := by
      intro s₂ obj₂ hobj₂
      split
      · exact .refl s₂
      · rename_i hnot
        refine .object hobj₂ (by simp) (f := fun acc => { acc with selfDestructed := false }) ?_ ?_
          (.congr rfl rfl)
        · intro w acc hacc
          simp only [undo, StateView.modify, hacc]
          rfl
        · rw [view_selfDestructed]
          simp only [StateObject.view, Bool.not_eq_true] at hnot ⊢
          rw [hnot]
    by_cases hzero : obj.data.balance = 0
    · simp only [hzero, if_true]
      exact hload.trans (hflag (hlive obj rfl))
    · simp only [hzero, if_false]
      refine (hload.trans (s₁.setObjectBalance_logs addr (hlive obj rfl) 0)).trans (hflag ?_)
      simp [setObjectBalance, setStateObject]

theorem selfDestruct6780_logs : Logs R true s (s.selfDestruct6780 R addr) := by
  unfold selfDestruct6780
  rcases hget : s.getStateObject R addr with ⟨found, s₁⟩
  obtain ⟨hload, -⟩ := getStateObject_inv hget
  cases found with
  | none => exact hload
  | some obj =>
    dsimp only
    split
    · exact hload.trans (s₁.selfDestruct_logs addr)
    · exact hload

theorem setTransientState_logs (key value : Hash) :
    Logs R true s (s.setTransientState addr key value) := by
  unfold setTransientState
  dsimp only
  split
  · exact .refl s
  · refine .logged (.transientStorageChange addr key (s.getTransientState addr key))
      (by simp) rfl rfl
      rfl ?_ id
    simp only [undo, Option.some.injEq]
    ext1
    case transient =>
      simp only [view, getTransientState, TransientStorage.get_set, update_idem,
        update_self, update_eq_self]
    all_goals rfl

theorem addLog_logs (topics : List Hash) (data : Bytes) :
    Logs R true s (s.addLog addr topics data) := by
  have hlogs : ∀ log : Log,
      { s with logs := s.logs.insert s.thash (s.getLogs s.thash ++ [log]) }.getLogs =
        update s.getLogs s.thash (s.getLogs s.thash ++ [log]) := by
    intro log
    funext hash
    by_cases hhash : hash = s.thash
    · simp [getLogs, hhash]
    · simp [getLogs, hhash, Std.ExtTreeMap.getElem?_insert, Ne.symm hhash]
  refine .logged (.addLogChange s.thash) (by simp) rfl rfl rfl ?_ id
  have hview : ((s.addLog addr topics data).view R).logs =
      update s.getLogs s.thash
        (s.getLogs s.thash ++ [⟨addr, topics, data, s.thash, s.txIndex, s.logSize⟩]) := hlogs _
  simp only [undo, hview, update_self, List.append_eq_nil_iff, List.cons_ne_self, and_false,
    if_false, List.dropLast_concat, update_idem, update_eq_self,
    Option.some.injEq]
  ext1
  all_goals rfl

theorem addRefund_logs (gas : UInt64) : Logs R true s (s.addRefund gas) :=
  .logged (.refundChange s.refund) (by simp) rfl rfl rfl rfl id

theorem subRefund_logs {gas : UInt64} (h : s.subRefund gas = some s') : Logs R true s s' := by
  unfold subRefund at h
  split at h
  · cases h
  · cases h
    exact .logged (.refundChange s.refund) (by simp) rfl rfl rfl rfl id

theorem addAddressToAccessList_logs : Logs R true s (s.addAddressToAccessList addr) := by
  unfold addAddressToAccessList addAddress
  by_cases hmem : addr ∈ s.accessList.addresses
  · simp only [hmem, if_true]
    exact .refl s
  · simp only [hmem, if_false, if_true]
    refine .logged (.accessListAddAccountChange addr) (by simp) rfl rfl rfl ?_ fun h =>
      insert_none_indexed h addr
    have hdelete := deleteAddress_insert hmem
    simp only [undo, Option.some.injEq]
    ext1
    case accessList => exact hdelete
    all_goals rfl

theorem addSlotToAccessList_logs (hindexed : s.accessList.Indexed) (slot : Hash) :
    Logs R true s (s.addSlotToAccessList addr slot) := by
  have hindexed' := addSlot_indexed hindexed addr slot
  unfold addSlotToAccessList
  rcases addSlot_cases hindexed addr slot with
    hadd | ⟨al, hadd, hdelete⟩ | ⟨al, al', hadd, hdelete, hdelete'⟩
  · rw [hadd]
    exact .refl s
  · rw [hadd] at hindexed' ⊢
    refine .logged (.accessListAddSlotChange addr slot) (by simp) rfl rfl rfl ?_ fun _ => hindexed'
    change (al.deleteSlot addr slot).map _ = _
    rw [hdelete]
    rfl
  · -- the address and the slot are logged one after the other
    rw [hadd] at hindexed' ⊢
    let mid := { s with accessList := al' }.append (.accessListAddAccountChange addr)
    have haddress := journal_append s.journal (.accessListAddAccountChange addr)
    have hslot := journal_append (s.journal.append (.accessListAddAccountChange addr))
      (.accessListAddSlotChange addr slot)
    have hmid : (trackingLog R true s.stateObjectsDestruct).Tracks s mid := by
      refine .single haddress.1 ?_
      change some { s.view R with accessList := al'.deleteAddress addr } = _
      rw [hdelete']
      rfl
    refine ⟨⟨hmid.trans (.single hslot.1 ?_), rfl, hslot.2.1.trans haddress.2.1,
      hslot.2.2.trans haddress.2.2, id, fun _ => hindexed'⟩,
      .of_objects rfl rfl fun addr' hmem => ?_⟩
    · change (al.deleteSlot addr slot).map _ = _
      rw [hdelete]
      rfl
    · change createObjectChange addr' ∈ ((s.journal.append
        (.accessListAddAccountChange addr)).append
          (.accessListAddSlotChange addr slot)).entries at hmem
      rw [hslot.1, haddress.1] at hmem
      simpa using hmem

/-- The setter of code tracks everything but the code. -/
theorem setCode_logs (code : Bytes) : Logs R false s (s.setCode R addr code) := by
  unfold setCode
  rcases hget : s.getOrNewStateObject R addr with ⟨obj, s₁⟩
  obtain ⟨hlogs, hobj⟩ := getOrNewStateObject_logs hget
  refine hlogs.weaken.trans ?_
  obtain ⟨hentries, hrevisions, hnext⟩ := journal_append s₁.journal (.codeChange addr obj.code)
  have hcode : CodeKept R obj (obj.setCode (keccak code) code) := .setCode obj code
  refine ⟨⟨.single hentries ?_, rfl, hrevisions, hnext, fun h => ?_, id⟩,
    (Retains.append s₁ (by simp)).trans (.setStateObject (object_of_live hobj) hcode.loaded)⟩
  · have hundo : undo R s₁.stateObjectsDestruct (.codeChange addr obj.code)
        (((s₁.append (.codeChange addr obj.code)).setStateObject addr
          (obj.setCode (keccak code) code)).view R) =
        some ((s₁.view R).setAccount addr (some { obj.view R addr (s₁.destructed addr) with
            codeHash := keccak obj.code, code := obj.code })) := by
      rw [view_setStateObject, view_append]
      simp only [undo, StateView.modify, StateView.setAccount, update_self,
        map_some, update_idem, view_setCode]
      rfl
    change (undo R s₁.stateObjectsDestruct (.codeChange addr obj.code)
      (eraseCodes (view R _))).map eraseCodes = _
    rw [undo_eraseCodes, hundo]
    exact congrArg some (eraseCodes_setAccount_self (view_account hobj) rfl)
  · have hknown : (s₁.append (.codeChange addr obj.code)).CodesKnown R := h
    exact hknown.setStateObject (hcode.known (h _ _ hobj))

/-- The setter of code tracks the code as well if it is loaded. -/
theorem setCode_grows_of_loaded (hknown : s.CodesKnown R)
    (hloaded : CodeLoadedAt R addr s) (code : Bytes) : Grows R true s (s.setCode R addr code) := by
  unfold setCode
  rcases hget : s.getOrNewStateObject R addr with ⟨obj, s₁⟩
  obtain ⟨hlogs, hobj⟩ := getOrNewStateObject_logs hget
  have hobjLoaded := hlogs.retains.loaded addr hloaded obj (object_of_live hobj)
  have hobjKnown := hlogs.grows.codesKnown hknown _ _ hobj
  have hhash : obj.data.codeHash = keccak obj.code := by
    by_cases hcode : obj.code = []
    · rw [hcode]
      exact hobjLoaded.resolve_left (fun hne => hne hcode)
    · exact hobjKnown.loaded hcode
  have hload : (obj.loadCode R).code = obj.code := by
    rw [loadCode_code]
    exact if_pos hobjLoaded
  refine (hlogs.trans (.object hobj (by simp) (fun _ => rfl) ?_ (.setCode obj code))).grows
  rw [view_setCode]
  simp only [StateObject.view, hload, hhash]

theorem setState_logs (key value : Hash) : Logs R true s (s.setState R addr key value) := by
  unfold setState
  rcases hget : s.getOrNewStateObject R addr with ⟨obj, s₁⟩
  obtain ⟨hlogs, hobj⟩ := getOrNewStateObject_logs hget
  refine hlogs.trans ?_
  have hcode : CodeKept R obj
      (obj.cacheCommittedState R addr (s₁.destructed addr) key) := .cacheCommittedState ..
  dsimp only
  split
  · exact .unseen hobj (obj.view_cacheCommittedState _ _ _) hcode
  · refine .object hobj (by simp) (fun _ => rfl) ?_
      ⟨fun h => (hcode.known h).congr rfl rfl, hcode.loaded⟩
    rw [view_setState, view_cacheCommittedState]
    -- the previous value is either dirty or the committed one
    have hprev : (if obj.getState R addr (s₁.destructed addr) key =
        obj.getCommittedState R addr (s₁.destructed addr) key then
          obj.getCommittedState R addr (s₁.destructed addr) key
        else obj.getState R addr (s₁.destructed addr) key) =
        obj.getState R addr (s₁.destructed addr) key := by
      split
      · rename_i heq
        exact heq.symm
      · rfl
    ext1
    case storage =>
      simp only [update_idem, hprev, StateObject.view, getState_cacheCommittedState, update_eq_self]
    all_goals rfl

theorem loadCode_logs : Logs R true s (s.loadCode R addr) := by
  unfold loadCode
  rcases hget : s.getStateObject R addr with ⟨found, s₁⟩
  obtain ⟨hload, hlive⟩ := getStateObject_inv hget
  cases found with
  | none => exact hload
  | some obj => exact hload.trans (.unseen (hlive obj rfl) (obj.view_loadCode _ _) (.loadCode obj))

theorem loadState_logs (key : Hash) : Logs R true s (s.loadState R addr key) := by
  unfold loadState
  rcases hget : s.getStateObject R addr with ⟨found, s₁⟩
  obtain ⟨hload, hlive⟩ := getStateObject_inv hget
  cases found with
  | none => exact hload
  | some obj =>
    exact hload.trans (.unseen (hlive obj rfl) (obj.view_cacheCommittedState _ _ _)
      (.cacheCommittedState ..))

end Setters

end StateDB

end ChilizChain
