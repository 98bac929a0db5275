import ChilizChain.State.Undo

/-! What the calls of a transfer and of a creation do to what is seen of a state. -/

namespace ChilizChain

open StateObject StateView

namespace StateDB

variable {keccak : Bytes → Hash} {reader R : Reader keccak} {s s' : StateDB} {addr : Address}
  {obj : StateObject}

/-- An account that has just been created, as it is seen. -/
def freshAccount (reader : Reader keccak) (s : StateDB) (addr : Address) : AccountView :=
  (StateObject.new keccak none).view reader addr (s.destructed addr)

/-- The account that a setter finds or creates, as it is seen. -/
def account (reader : Reader keccak) (s : StateDB) (addr : Address) : AccountView :=
  ((s.view reader).accounts addr).getD (s.freshAccount reader addr)

variable {acc : AccountView}

theorem account_of_seen (h : (s.view R).accounts addr = some acc) : s.account R addr = acc := by
  rw [account, h, Option.getD_some]

theorem setAccount_account (h : (s.view R).accounts addr = some acc) :
    (s.view R).setAccount addr (some (s.account R addr)) = s.view R := by
  rw [account_of_seen h, setAccount_self h]

theorem exist_eq (s : StateDB) (addr : Address) :
    s.exist R addr = ((s.view R).accounts addr).isSome :=
  congrFun (congrArg StateAnswers.exist s.answers_eq) addr

theorem seen_of_exist (h : s.exist R addr = true) : ∃ acc, (s.view R).accounts addr = some acc :=
  Option.isSome_iff_exists.mp ((s.exist_eq addr).symm.trans h)

theorem getCode_elim (s : StateDB) (addr : Address) :
    s.getCode R addr = ((s.view R).accounts addr).elim [] (·.code) :=
  congrFun (congrArg StateAnswers.code s.answers_eq) addr

theorem freshAccount_code (s : StateDB) (addr : Address) : (s.freshAccount R addr).code = [] := by
  simp [freshAccount, StateObject.view, StateObject.loadCode, StateObject.new, StateAccount.empty]

theorem getCode_eq (s : StateDB) (addr : Address) : s.getCode R addr = (s.account R addr).code := by
  rw [getCode_elim, account]
  cases (s.view R).accounts addr with
  | none => exact (s.freshAccount_code addr).symm
  | some acc => rfl

/-! ## Loading -/

theorem getStateObject_view (s : StateDB) (addr : Address) :
    (s.getStateObject R addr).2.view R = s.view R :=
  (s.getStateObject_snd R addr).1

theorem view_setStateObject_self (hlive : s.stateObjects[addr]? = some obj) {obj' : StateObject}
    (h : obj'.view R addr (s.destructed addr) = obj.view R addr (s.destructed addr)) :
    (s.setStateObject addr obj').view R = s.view R := by
  rw [view_setStateObject, h, setAccount_self (view_account hlive)]

theorem loadCode_view (s : StateDB) (addr : Address) : (s.loadCode R addr).view R = s.view R := by
  unfold loadCode
  have hload : (s.getStateObject R addr).2.view R = s.view R :=
    s.getStateObject_view addr
  rcases hget : s.getStateObject R addr with ⟨found, s₁⟩
  rw [hget] at hload
  cases found with
  | none => exact hload
  | some obj =>
    exact (view_setStateObject_self (getStateObject_live hget) (obj.view_loadCode _ _)).trans hload

theorem loadState_view (s : StateDB) (addr : Address) (key : Hash) :
    (s.loadState R addr key).view R = s.view R := by
  unfold loadState
  have hload : (s.getStateObject R addr).2.view R = s.view R :=
    s.getStateObject_view addr
  rcases hget : s.getStateObject R addr with ⟨found, s₁⟩
  rw [hget] at hload
  cases found with
  | none => exact hload
  | some obj =>
    exact (view_setStateObject_self (getStateObject_live hget)
      (obj.view_cacheCommittedState _ _ _)).trans hload

/-! ## Creating and changing -/

theorem createAccount_view (s : StateDB) (addr : Address) : (s.createAccount keccak addr).view R =
      (s.view R).setAccount addr (some (s.freshAccount R addr)) := by
  unfold createAccount createObject
  rw [view_setStateObject, view_append]
  rfl

theorem getOrNewStateObject_view (h : s.getOrNewStateObject R addr = (obj, s')) :
    s'.view R = (s.view R).setAccount addr (some (s.account R addr)) ∧
      obj.view R addr (s'.destructed addr) = s.account R addr := by
  have hlive := (getOrNewStateObject_logs h).2
  have hseen : (s'.view R).accounts addr =
      some (obj.view R addr (s'.destructed addr)) := view_account hlive
  unfold getOrNewStateObject at h
  have hview : (s.getStateObject R addr).2.view R = s.view R :=
    s.getStateObject_view addr
  have hfst := s.getStateObject_fst R addr
  rcases hget : s.getStateObject R addr with ⟨found, s₁⟩
  rw [hget] at h hview hfst
  cases found with
  | some live =>
    cases h
    dsimp only at hview
    rw [hview] at hseen
    rw [setAccount_account hseen, account_of_seen hseen]
    exact ⟨hview, rfl⟩
  | none =>
    cases getStateObject_none hget
    cases h
    have hnone : (s.view R).accounts addr = none := by
      simp [view, ← hfst]
    have haccount : s.account R addr = s.freshAccount R addr := by
      rw [account, hnone, Option.getD_none]
    rw [haccount]
    exact ⟨s.createAccount_view addr, rfl⟩

theorem touch_view (s : StateDB) (addr : Address) : (s.touch addr).view R = s.view R := rfl

theorem setObjectBalance_view (s : StateDB) (addr : Address) (obj : StateObject) (amount : Word) :
    (s.setObjectBalance addr obj amount).view R = (s.view R).setAccount addr
      (some { obj.view R addr (s.destructed addr) with balance := amount }) := by
  unfold setObjectBalance
  rw [view_setStateObject, view_append, view_setBalance]
  rfl

theorem setAccount_seen (w : StateView) (addr : Address) (acc : Option AccountView) :
    (w.setAccount addr acc).accounts addr = acc := Function.update_self _ _ _

theorem setAccount_idem (w : StateView) (addr : Address) (acc acc' : Option AccountView) :
    (w.setAccount addr acc).setAccount addr acc' = w.setAccount addr acc' := by
  simp [setAccount]

theorem addBalance_view (s : StateDB) (addr : Address) (amount : Word) :
    (s.addBalance R addr amount).view R = (s.view R).setAccount addr
      (some { s.account R addr with
        balance := (s.account R addr).balance + amount }) := by
  unfold addBalance
  rcases hget : s.getOrNewStateObject R addr with ⟨obj, s₁⟩
  obtain ⟨hview, hobj⟩ := getOrNewStateObject_view hget
  dsimp only
  by_cases hzero : amount = 0
  · have hsame : (if obj.empty keccak then s₁.touch addr else s₁).view R = s₁.view R := by
      split
      · exact s₁.touch_view addr
      · rfl
    have hadd : (s.account R addr).balance + (0 : Word) = (s.account R addr).balance :=
      BitVec.add_zero _
    rw [if_pos hzero, hsame, hview, hzero, hadd]
  · have hbalance : obj.data.balance = (s.account R addr).balance :=
      congrArg AccountView.balance hobj
    rw [if_neg hzero, setObjectBalance_view, hview, setAccount_idem, hobj, hbalance]

theorem subBalance_view (s : StateDB) (addr : Address) (amount : Word) :
    (s.subBalance R addr amount).view R = (s.view R).setAccount addr
      (some { s.account R addr with
        balance := (s.account R addr).balance - amount }) := by
  unfold subBalance
  rcases hget : s.getOrNewStateObject R addr with ⟨obj, s₁⟩
  obtain ⟨hview, hobj⟩ := getOrNewStateObject_view hget
  dsimp only
  by_cases hzero : amount = 0
  · have hsub : (s.account R addr).balance - (0 : Word) = (s.account R addr).balance :=
      BitVec.sub_zero _
    rw [if_pos hzero, hview, hzero, hsub]
  · have hbalance : obj.data.balance = (s.account R addr).balance :=
      congrArg AccountView.balance hobj
    rw [if_neg hzero, setObjectBalance_view, hview, setAccount_idem, hobj, hbalance]

theorem getCode_setAccount {addr' : Address}
    (h : s'.view R = (s.view R).setAccount addr' (some acc))
    (hcode : acc.code = (s.account R addr').code) : s'.getCode R addr = s.getCode R addr := by
  by_cases haddr : addr = addr'
  · subst haddr
    have hseen : (s'.view R).accounts addr = some acc := by
      rw [h, setAccount_seen]
    rw [getCode_eq, getCode_eq, account_of_seen hseen, hcode]
  · have hseen : (s'.view R).accounts addr = (s.view R).accounts addr := by
      rw [h]
      exact Function.update_of_ne haddr _ _
    rw [getCode_elim, getCode_elim, hseen]

end StateDB

end ChilizChain
