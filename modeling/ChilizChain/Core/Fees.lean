import ChilizChain.Core.StateTransition
import ChilizChain.Lib.Simulation

/-! # Where the money of a message goes

The sender buys all gas in advance, gets back what is left, and the rest is split into the base
fee, which vanishes, and the tip, which goes to the system address together with the fee for the
blobs. The account closes, and no fixed-width operation wraps, for every message that is accepted
and whose sender can pay for the gas and the blobs; the one way around that check is a call
without base fee whose blob fee cap is zero. -/

namespace ChilizChain.Transition

open Stateful Except World Nat Finset

/-! ## The sum of all balances -/

noncomputable scoped instance {n : ℕ} : Fintype (FixedBytes n) :=
  Fintype.ofInjective (fun (a : FixedBytes n) (i : Fin n) => a.bytes[i.val]?) fun a b h => by
    apply FixedBytes.ext
    apply List.ext_getElem?
    intro i
    by_cases hi : i < n
    · exact congrFun h ⟨i, hi⟩
    · rw [List.getElem?_eq_none (by simpa using hi), List.getElem?_eq_none (by simpa using hi)]

noncomputable def World.total (w : World) : ℕ := ∑ a, w.balance a

theorem World.total_setBalance (w : World) (a : Address) (v : ℕ) :
    (w.setBalance a v).total + w.balance a = w.total + v := by
  have h1 := sum_update_of_mem (mem_univ a) w.balance v
  have h2 := add_sum_erase Finset.univ w.balance (mem_univ a)
  simp only [total, setBalance, h1, ← h2, erase_eq]
  omega

theorem World.balance_le_total (w : World) (a : Address) : w.balance a ≤ w.total :=
  single_le_sum (fun _ _ => zero_le _) (mem_univ a)

/-! ## Operations that do not wrap -/

section exact

variable {s : St} {a b : ℕ}

theorem exec_noteWrap {wraps : Bool} (h : wraps = false) :
    exec (noteWrap wraps) s = (.ok ⟨⟩, s) := by
  simp [noteWrap, h]

theorem exec_add64 (h : a + b < 2 ^ 64) : exec (add64 a b) s = (.ok (a + b), s) := by
  rw [add64, exec_bind_ok (exec_noteWrap (by simpa using h)), exec_pure, mod_eq_of_lt h]

theorem exec_sub64 (h : b ≤ a) (ha : a < 2 ^ 64) : exec (sub64 a b) s = (.ok (a - b), s) := by
  have heq : (a + (2 ^ 64 - b)) % 2 ^ 64 = a - b := by omega
  rw [sub64, exec_bind_ok (exec_noteWrap (by simpa using h)), exec_pure, heq]

theorem exec_mul256 (h : a * b < 2 ^ 256) : exec (mul256 a b) s = (.ok (a * b), s) := by
  rw [mul256, exec_bind_ok (exec_noteWrap (by simpa using h)), exec_pure, mod_eq_of_lt h]

theorem exec_fromBig (h : a < 2 ^ 256) : exec (fromBig a) s = (.ok a, s) := by
  rw [fromBig, exec_bind_ok (exec_noteWrap (by simpa using h)), exec_pure, mod_eq_of_lt h]

theorem exec_gasUsed (h : s.gasRemaining ≤ s.initialGas) (hlt : s.initialGas < 2 ^ 64) :
    exec gasUsed s = (.ok (s.initialGas - s.gasRemaining), s) := by
  rw [gasUsed, exec_bind_ok (exec_get s), exec_sub64 h hlt]

/-- The state with another world. -/
def St.withWorld (s : St) (w : World) : St := { s with world := w }

def World.pay (w : World) (address : Address) (amount : ℕ) : World :=
  w.setBalance address (w.balance address + amount)

theorem World.total_pay (w : World) (address : Address) (amount : ℕ) :
    (w.pay address amount).total = w.total + amount := by
  have h := w.total_setBalance address (w.balance address + amount)
  rw [pay]
  omega

theorem exec_addBalance {address : Address} (h : s.world.total + a < 2 ^ 256) :
    exec (addBalance address a) s = (.ok ⟨⟩, s.withWorld (s.world.pay address a)) := by
  have hlt : s.world.balance address + a < 2 ^ 256 := by
    have := s.world.balance_le_total address
    omega
  rw [addBalance, exec_bind_ok (exec_get s), exec_bind_ok (exec_noteWrap (by simpa using hlt)),
    exec_modify, mod_eq_of_lt hlt]
  rfl

theorem exec_subBalance {address : Address} (h : a ≤ s.world.balance address)
    (htotal : s.world.total < 2 ^ 256) : exec (subBalance address a) s =
      (.ok ⟨⟩, s.withWorld (s.world.setBalance address (s.world.balance address - a))) := by
  have hle := s.world.balance_le_total address
  have heq : (s.world.balance address + (2 ^ 256 - a)) % 2 ^ 256 = s.world.balance address - a := by
    omega
  rw [subBalance, exec_bind_ok (exec_get s), exec_bind_ok (exec_noteWrap (by simpa using h)),
    exec_modify, heq]
  rfl

end exact

/-! ## A wrap stays noted -/

def Noted (s : St) : Prop := s.wrapped = true

theorem noteWrap_keeps (wraps : Bool) : Preserves Noted (noteWrap wraps) :=
  .update fun s h => by
    have : s.wrapped = true := h
    simp [Noted, this]

theorem sub64_keeps (a b : ℕ) : Preserves Noted (sub64 a b) :=
  .bind (noteWrap_keeps _) fun _ => .pure _

theorem mul256_keeps (a b : ℕ) : Preserves Noted (mul256 a b) :=
  .bind (noteWrap_keeps _) fun _ => .pure _

theorem fromBig_keeps (a : ℕ) : Preserves Noted (fromBig a) :=
  .bind (noteWrap_keeps _) fun _ => .pure _

theorem addBalance_keeps (address : Address) (amount : ℕ) :
    Preserves Noted (addBalance address amount) :=
  .bind .get fun _ => .bind (noteWrap_keeps _) fun _ => .update fun _ h => h

theorem subBalance_keeps (address : Address) (amount : ℕ) :
    Preserves Noted (subBalance address amount) :=
  .bind .get fun _ => .bind (noteWrap_keeps _) fun _ => .update fun _ h => h

theorem gasUsed_keeps : Preserves Noted gasUsed :=
  .bind .get fun _ => sub64_keeps _ _

theorem addGas_keeps (amount : ℕ) : Preserves Noted (addGas amount) := by
  refine .bind .get fun s => ?_
  split_ifs
  · exact .throw _
  · exact .update fun _ h => h

section keeps

variable (env : Env) (evm : Evm) (msg : Message)

theorem returnGas_keeps : Preserves Noted (returnGas msg) := by
  refine .bind .get fun s => ?_
  split_ifs
  · exact .bind (.throw _) fun _ => .bind (mul256_keeps _ _) fun _ =>
      .bind (addBalance_keeps _ _) fun _ => addGas_keeps _
  · exact .bind (mul256_keeps _ _) fun _ => .bind (addBalance_keeps _ _) fun _ => addGas_keeps _

theorem applyFloor_keeps (floor peak : ℕ) : Preserves Noted (applyFloor env floor peak) := by
  rw [applyFloor]
  split_ifs
  · exact .pure _
  · refine .bind gasUsed_keeps fun used => ?_
    split_ifs
    · exact .bind .get fun _ => .bind (sub64_keeps _ _) fun _ =>
        .bind (.update fun _ h => h) fun _ => .pure _
    · exact .pure _

theorem payFees_keeps : Preserves Noted (payFees env msg) := by
  refine .bind (fromBig_keeps _) fun tip => .bind gasUsed_keeps fun used =>
    .bind (mul256_keeps _ _) fun fee => ?_
  split_ifs
  · refine .bind (addBalance_keeps _ _) fun _ => ?_
    exact .bind (fromBig_keeps _) fun _ => addBalance_keeps _ _
  · exact .bind (addBalance_keeps _ _) fun _ => .pure _
  · exact addBalance_keeps _ _

theorem settle_keeps (floor : ℕ) (result : RunResult) :
    Preserves Noted (settle env msg floor result) := by
  refine .bind gasUsed_keeps fun peak => .bind ?_ fun refund => .bind .get fun s =>
    .bind (.bind (noteWrap_keeps _) fun _ => .pure _) fun gas =>
    .bind (.update fun _ h => h) fun _ => .bind (applyFloor_keeps env _ _) fun _ =>
    .bind (returnGas_keeps msg) fun _ => .bind (payFees_keeps env msg) fun _ =>
    .bind gasUsed_keeps fun _ => .pure _
  exact .bind gasUsed_keeps fun _ => .bind .get fun _ => .pure _

theorem runMessage_keeps : Preserves Noted (runMessage env evm msg) :=
  .bind .get fun _ => .bind (.update fun _ h => h) fun _ => .pure _

theorem admitMessage_keeps : Preserves Noted (admitMessage env msg) := by
  refine .bind (.ofExcept _) fun _ => .bind (.ofExcept _) fun gas => .bind .get fun s => ?_
  have hrest : Preserves Noted (do
      let floor ← Stateful.ofExcept (floorOf env msg)
      modify fun s => { s with gasRemaining := s.gasRemaining - gas }
      Stateful.ofExcept (checkTransfer env msg s.world)
      return floor : TransitionM ℕ) :=
    .bind (.ofExcept _) fun _ => .bind (.update fun _ h => h) fun _ =>
      .bind (.ofExcept _) fun _ => .pure _
  split_ifs
  · exact .bind (.throw _) fun _ => hrest
  · exact hrest

end keeps

/-! ## What an accepted message has passed -/

section passed

variable {env : Env} {evm : Evm} {msg : Message}

variable {u : Unit}

theorem ensure_eq_ok {ok : Bool} {e : TransitionError} : ensure ok e = .ok u ↔ ok = true := by
  cases ok <;> simp [ensure]

variable {w : World}

theorem checkBalance_eq_ok (h : checkBalance env msg w = .ok u) :
    requiredBalance env msg ≤ w.balance msg.fromAddress := by
  obtain ⟨⟨⟩, -, h⟩ := bind_eq_ok.mp h
  simpa using ensure_eq_ok.mp h

theorem checkFees_eq_ok (hlondon : env.isLondon = true) (hprice : msg.gasPrice ≤ msg.gasFeeCap)
    (h : checkFees env msg = .ok u) : msg.gasPrice < 2 ^ 256 := by
  rw [checkFees] at h
  by_cases hskip : (env.noBaseFee && msg.gasFeeCap = 0 && msg.gasTipCap = 0) = true
  · have hzero : msg.gasFeeCap = 0 := by
      simp only [Bool.and_eq_true, decide_eq_true_eq] at hskip
      exact hskip.1.2
    have hfree : msg.gasPrice = 0 := by omega
    rw [hfree]
    positivity
  · simp only [hlondon, Bool.not_true, Bool.false_eq_true, if_false, if_neg hskip] at h
    obtain ⟨⟨⟩, hcap, -⟩ := bind_eq_ok.mp h
    have := ensure_eq_ok.mp hcap
    simp only [decide_eq_true_eq] at this
    omega

theorem checkBlobFee_eq_ok (h : checkBlobFee env msg = .ok u)
    (hcheck : ¬ (env.noBaseFee = true ∧ msg.blobGasFeeCap = 0)) :
    blobFee env msg env.blobBaseFee ≤ blobFee env msg msg.blobGasFeeCap := by
  rw [checkBlobFee] at h
  rw [blobFee, blobFee]
  split_ifs with hcancun
  · by_cases hnone : blobGasUsed msg = 0
    · simp [hnone]
    · have hskip : (env.noBaseFee && decide (msg.blobGasFeeCap = 0)) = false := by
        simpa using hcheck
      simp only [hcancun, Bool.not_true, Bool.false_or, decide_eq_true_eq, if_neg hnone, hskip,
        Bool.false_eq_true, if_false] at h
      have hle := ensure_eq_ok.mp h
      simp only [decide_eq_true_eq] at hle
      exact mul_le_mul_left _ hle
  · exact le_rfl

structure Passed (env : Env) (msg : Message) (w : World) : Prop where
  fees : checkFees env msg = .ok ()
  blobFee : checkBlobFee env msg = .ok ()
  balance : requiredBalance env msg ≤ w.balance msg.fromAddress

theorem checkMessage_eq_ok (h : checkMessage env msg w = .ok u) :
    checkFees env msg = .ok () ∧ checkBlobFee env msg = .ok () := by
  obtain ⟨⟨⟩, -, h⟩ := bind_eq_ok.mp h
  obtain ⟨⟨⟩, -, h⟩ := bind_eq_ok.mp h
  obtain ⟨⟨⟩, hfees, h⟩ := bind_eq_ok.mp h
  obtain ⟨⟨⟩, -, h⟩ := bind_eq_ok.mp h
  obtain ⟨⟨⟩, hblob, -⟩ := bind_eq_ok.mp h
  exact ⟨hfees, hblob⟩

/-- The condition under which the account closes: a call without base fee that offers nothing for
its blobs can pay for them. -/
def BlobsCovered (env : Env) (msg : Message) (w : World) : Prop :=
  env.noBaseFee = true → msg.blobGasFeeCap = 0 → gasCost env msg ≤ w.balance msg.fromAddress

theorem Passed.gasCost_le (h : Passed env msg w) (hprice : msg.gasPrice ≤ msg.gasFeeCap)
    (hcovered : BlobsCovered env msg w) : gasCost env msg ≤ w.balance msg.fromAddress := by
  by_cases hskip : env.noBaseFee = true ∧ msg.blobGasFeeCap = 0
  · exact hcovered hskip.1 hskip.2
  · have h1 := checkBlobFee_eq_ok h.blobFee hskip
    have h2 := h.balance
    have h3 : msg.gasLimit.toNat * msg.gasPrice ≤ msg.gasLimit.toNat * msg.gasFeeCap :=
      mul_le_mul_left _ hprice
    rw [requiredBalance] at h2
    rw [gasCost]
    omega

/-! ## The phases -/

/-- The state once the gas is sold. -/
def St.sold (s : St) (msg : Message) : St :=
  { s with
    gp := s.gp - msg.gasLimit.toNat
    gasRemaining := msg.gasLimit.toNat
    initialGas := msg.gasLimit.toNat }

variable {s s' : St}

theorem subGas_eq_ok {amount : ℕ} (h : exec (subGas amount) s = (.ok u, s')) :
    amount ≤ s.gp ∧ s' = { s with gp := s.gp - amount } := by
  rw [subGas, exec_bind_ok (exec_get s)] at h
  split_ifs at h with hlt
  · simp at h
  · rw [exec_modify] at h
    exact ⟨not_lt.mp hlt, (Prod.mk.inj h).2.symm⟩

section

variable (h : exec (preCheck env msg) s = (.ok u, s'))
include h

theorem preCheck_eq_ok :
    Passed env msg s.world ∧ msg.gasLimit.toNat ≤ s.gp ∧
      exec (do
        let mgval ← fromBig (gasCost env msg)
        subBalance msg.fromAddress mgval) (s.sold msg) = (.ok u, s') := by
  rw [preCheck, exec_bind_ok (exec_get s)] at h
  obtain ⟨⟨⟩, hcheck, h⟩ := exec_ofExcept_bind_eq_ok h
  rw [buyGas, exec_bind_ok (exec_get s)] at h
  obtain ⟨⟨⟩, hbalance, h⟩ := exec_ofExcept_bind_eq_ok h
  obtain ⟨⟨⟩, s₁, hsub, h⟩ := exec_bind_eq_ok h
  obtain ⟨hgp, rfl⟩ := subGas_eq_ok hsub
  rw [exec_bind_ok (exec_modify _ _)] at h
  obtain ⟨hfees, hblob⟩ := checkMessage_eq_ok hcheck
  exact ⟨⟨hfees, hblob, checkBalance_eq_ok hbalance⟩, hgp, h⟩

/-- The sender pays for all gas and for the blobs. -/
theorem preCheck_covered (hcost : gasCost env msg ≤ s.world.balance msg.fromAddress)
    (htotal : s.world.total < 2 ^ 256) :
    s' = (s.sold msg).withWorld
      (s.world.setBalance msg.fromAddress (s.world.balance msg.fromAddress - gasCost env msg)) := by
  obtain ⟨-, -, h⟩ := preCheck_eq_ok h
  have hle := s.world.balance_le_total msg.fromAddress
  have hsub : exec (subBalance msg.fromAddress (gasCost env msg)) (s.sold msg) = _ :=
    exec_subBalance hcost htotal
  rw [exec_bind_ok (exec_fromBig (by omega)), hsub] at h
  exact (Prod.mk.inj h).2.symm

/-- A sender that cannot pay gets a balance that wrapped around. -/
theorem preCheck_uncovered (hcost : s.world.balance msg.fromAddress < gasCost env msg) :
    s'.wrapped = true := by
  obtain ⟨-, -, h⟩ := preCheck_eq_ok h
  by_cases hbig : 2 ^ 256 ≤ gasCost env msg
  · obtain ⟨mgval, s₁, hfrom, hsub⟩ := exec_bind_eq_ok h
    have hnoted : Noted s₁ := by
      simp only [fromBig, noteWrap, exec_bind, exec_modify, exec_pure, Prod.mk.injEq] at hfrom
      rw [← hfrom.2, Noted]
      simp only [decide_eq_true hbig, Bool.or_true]
    have hkeeps := subBalance_keeps msg.fromAddress mgval s₁ hnoted
    rwa [hsub] at hkeeps
  · rw [exec_bind_ok (exec_fromBig (not_le.mp hbig))] at h
    have hnote : decide ((s.sold msg).world.balance msg.fromAddress < gasCost env msg) = true :=
      decide_eq_true hcost
    simp only [subBalance, noteWrap, exec_bind, exec_get, exec_modify, Prod.mk.injEq] at h
    rw [← h.2]
    simp only [hnote, Bool.or_true]

end

theorem admitMessage_eq_ok {floor : ℕ} (h : exec (admitMessage env msg) s = (.ok floor, s')) :
    floorOf env msg = .ok floor ∧
      ∃ gas ≤ s.gasRemaining, s' = { s with gasRemaining := s.gasRemaining - gas } := by
  rw [admitMessage] at h
  obtain ⟨⟨⟩, -, h⟩ := exec_ofExcept_bind_eq_ok h
  obtain ⟨gas, -, h⟩ := exec_ofExcept_bind_eq_ok h
  rw [exec_bind_ok (exec_get s)] at h
  by_cases hlt : s.gasRemaining < gas
  · rw [if_pos hlt, exec_bind_error (exec_throw _ _)] at h
    cases h
  · rw [if_neg hlt] at h
    obtain ⟨floor', hfloor, h⟩ := exec_ofExcept_bind_eq_ok h
    rw [exec_bind_ok (exec_modify _ _)] at h
    obtain ⟨⟨⟩, -, h⟩ := exec_ofExcept_bind_eq_ok h
    obtain ⟨rfl, rfl⟩ := ok_inj h
    exact ⟨hfloor, gas, not_lt.mp hlt, rfl⟩

/-- The run of the EVM: it returns at most the gas it got, and moves money around. -/
structure Conserving (evm : Evm) : Prop where
  create : ∀ sender data gas value w,
    (evm.create sender data gas value w).gas ≤ gas ∧
      (evm.create sender data gas value w).world.total = w.total
  call : ∀ sender address data gas value w,
    (evm.call sender address data gas value w).gas ≤ gas ∧
      (evm.call sender address data gas value w).world.total = w.total

theorem balance_setNonce (w : World) (address : Address) (nonce : ℕ) :
    (w.setNonce address nonce).balance = w.balance := rfl

theorem balance_setCode (w : World) (address : Address) (code : Bytes) :
    (w.setCode address code).balance = w.balance := rfl

theorem balance_addRefund (w : World) (gas : ℕ) : (w.addRefund gas).balance = w.balance := rfl

theorem balance_applyAuthorization (w : World) (auth : SetCodeAuthorization) :
    (applyAuthorization env w auth).balance = w.balance := by
  rw [applyAuthorization]
  split
  · rfl
  · dsimp only
    split_ifs <;> simp only [balance_setCode, balance_setNonce, balance_addRefund]

theorem balance_callWorld (w : World) : (callWorld env msg w).balance = w.balance := by
  rw [callWorld]
  generalize msg.setCodeAuthorizations.getD [] = auths
  generalize hw : w.setNonce msg.fromAddress ((w.nonce msg.fromAddress + 1) % 2 ^ 64) = w₁
  have hstart : w₁.balance = w.balance := by rw [← hw, balance_setNonce]
  clear hw
  induction auths generalizing w₁ with
  | nil => exact hstart
  | cons auth auths ih =>
    exact ih _ ((balance_applyAuthorization w₁ auth).trans hstart)

theorem runMessage_eq_ok (hevm : Conserving evm) {result : RunResult}
    (h : exec (runMessage env evm msg) s = (.ok result, s')) :
    ∃ start, start.balance = s.world.balance ∧ result.gas ≤ s.gasRemaining ∧
      result.world.total = s.world.total ∧
      s' = { s with
        gasRemaining := result.gas, world := result.world, ran := some (start, result) } := by
  rw [runMessage, exec_bind_ok (exec_get s), exec_bind_ok (exec_modify _ _), exec_pure] at h
  obtain ⟨rfl, rfl⟩ := ok_inj h
  cases hto : msg.toAddress with
  | none =>
    obtain ⟨hgas, htotal⟩ :=
      hevm.create msg.fromAddress msg.data s.gasRemaining msg.value s.world
    exact ⟨s.world, rfl, hgas, htotal, rfl⟩
  | some address =>
    obtain ⟨hgas, htotal⟩ := hevm.call msg.fromAddress address msg.data s.gasRemaining msg.value
      (callWorld env msg s.world)
    refine ⟨callWorld env msg s.world, balance_callWorld s.world, hgas, htotal.trans ?_, rfl⟩
    rw [total, total, balance_callWorld]

end passed

/-! ## Settling without a wrap -/

section settling

variable {env : Env} {evm : Evm} {msg : Message} {s : St}

theorem exec_calcRefund (hlondon : env.isLondon = true) (hle : s.gasRemaining ≤ s.initialGas)
    (hlt : s.initialGas < 2 ^ 64) : exec (calcRefund env) s =
      (.ok (min ((s.initialGas - s.gasRemaining) / 5) s.world.refund), s) := by
  rw [calcRefund, exec_bind_ok (exec_gasUsed hle hlt), exec_bind_ok (exec_get s), exec_pure,
    if_pos hlondon]

/-- The gas left once the floor is applied. -/
def floored (prague : Bool) (floor : ℕ) (s : St) : ℕ :=
  if prague then min s.gasRemaining (s.initialGas - floor) else s.gasRemaining

theorem exec_applyFloor {floor peak : ℕ} (hle : s.gasRemaining ≤ s.initialGas)
    (hlt : s.initialGas < 2 ^ 64) (hfloor : floor ≤ s.initialGas) :
    exec (applyFloor env floor peak) s =
      (.ok (if env.rule env.isPrague then max peak floor else peak),
        { s with gasRemaining := floored (env.rule env.isPrague) floor s }) := by
  rw [applyFloor, floored]
  cases hprague : env.rule env.isPrague with
  | false => rfl
  | true =>
    simp only [Bool.not_true, Bool.false_eq_true, if_false, if_true]
    rw [exec_bind_ok (exec_gasUsed hle hlt)]
    split_ifs with hused
    · rw [exec_bind_ok (exec_get s), exec_bind_ok (exec_sub64 hfloor hlt),
        exec_bind_ok (exec_modify _ _), exec_pure, min_eq_right (by omega)]
    · rw [exec_pure, min_eq_left (by omega)]

theorem exec_addGas {amount : ℕ} (h : s.gp + amount < 2 ^ 64) :
    exec (addGas amount) s = (.ok ⟨⟩, { s with gp := s.gp + amount }) := by
  have hroom : ¬ maxUint64 - amount < s.gp := by
    simp only [maxUint64]
    omega
  rw [addGas, exec_bind_ok (exec_get s), if_neg hroom, exec_modify]

theorem exec_returnGas (hprice : msg.gasPrice < 2 ^ 256)
    (htotal : s.world.total + s.gasRemaining * msg.gasPrice < 2 ^ 256)
    (hgp : s.gp + s.gasRemaining < 2 ^ 64) :
    exec (returnGas msg) s = (.ok ⟨⟩, { s with
      gp := s.gp + s.gasRemaining
      world := s.world.pay msg.fromAddress (s.gasRemaining * msg.gasPrice) }) := by
  rw [returnGas, exec_bind_ok (exec_get s), if_neg (not_le.mpr hprice),
    exec_bind_ok (exec_mul256 (by omega)), exec_bind_ok (exec_addBalance htotal)]
  exact exec_addGas hgp

/-- The world after the fees are paid. -/
def World.rewarded (w : World) (env : Env) (msg : Message) (used : ℕ) : World :=
  let w := w.pay systemAddress (used * effectiveTip env msg)
  if env.isCancun then w.pay systemAddress (blobFee env msg env.blobBaseFee) else w

theorem exec_payFees (hbsc : env.isInBSC = true) (hle : s.gasRemaining ≤ s.initialGas)
    (hlt : s.initialGas < 2 ^ 64) (htip : effectiveTip env msg < 2 ^ 256)
    (htotal : s.world.total + (s.initialGas - s.gasRemaining) * effectiveTip env msg +
      blobFee env msg env.blobBaseFee < 2 ^ 256) : exec (payFees env msg) s =
      (.ok ⟨⟩, s.withWorld (s.world.rewarded env msg (s.initialGas - s.gasRemaining))) := by
  rw [payFees, exec_bind_ok (exec_fromBig htip), exec_bind_ok (exec_gasUsed hle hlt),
    exec_bind_ok (exec_mul256 (by omega)), if_pos hbsc,
    exec_bind_ok (exec_addBalance (by omega))]
  have hrule : env.rule env.isCancun = env.isCancun := by simp [Env.rule, hbsc]
  rw [rewarded, hrule]
  cases hcancun : env.isCancun with
  | false => rfl
  | true =>
    have hblob : blobFee env msg env.blobBaseFee = blobGasUsed msg * env.blobBaseFee := by
      rw [blobFee, if_pos hcancun]
    rw [hblob] at htotal ⊢
    simp only [if_true]
    rw [exec_bind_ok (exec_fromBig (by omega))]
    refine exec_addBalance ?_
    change (s.world.pay systemAddress _).total + _ < _
    rw [total_pay]
    exact htotal

/-- The gas a message pays for in the end. -/
def charged (env : Env) (floor used refund : ℕ) : ℕ :=
  if env.rule env.isPrague then max (used - refund) floor else used - refund

/-- The state once the gas that is left is returned. -/
def St.returned (s : St) (msg : Message) (g : ℕ) : St :=
  { s with
    gp := s.gp + (s.initialGas - g)
    gasRemaining := s.initialGas - g
    world := s.world.pay msg.fromAddress ((s.initialGas - g) * msg.gasPrice) }

/-- The state once the fees are paid. -/
def St.settled (s : St) (env : Env) (msg : Message) (g : ℕ) : St :=
  (s.returned msg g).withWorld ((s.returned msg g).world.rewarded env msg g)

/-- The account of a run that left `s`: all numbers fit, and this is what they come to. -/
theorem exec_settle (floor : ℕ) (result : RunResult) (hbsc : env.isInBSC = true)
    (hlondon : env.isLondon = true) (hprice : msg.gasPrice < 2 ^ 256)
    (hle : s.gasRemaining ≤ s.initialGas) (hlt : s.initialGas < 2 ^ 64)
    (hfloor : floor ≤ s.initialGas) (hgp : s.gp + s.initialGas < 2 ^ 64)
    (htotal : s.world.total + s.initialGas * msg.gasPrice + blobFee env msg env.blobBaseFee <
      2 ^ 256) : ∃ refund ≤ (s.initialGas - s.gasRemaining) / 5, ∃ g ≤ s.initialGas,
      g = charged env floor (s.initialGas - s.gasRemaining) refund ∧
      exec (settle env msg floor result) s =
        (.ok ⟨g, if env.rule env.isPrague then max (s.initialGas - s.gasRemaining) floor
            else s.initialGas - s.gasRemaining, result.failed, result.ret⟩,
          s.settled env msg g) := by
  refine ⟨min ((s.initialGas - s.gasRemaining) / 5) s.world.refund, min_le_left _ _, ?_⟩
  generalize hrefund : min ((s.initialGas - s.gasRemaining) / 5) s.world.refund = refund
  have hcap : refund ≤ (s.initialGas - s.gasRemaining) / 5 := hrefund ▸ min_le_left _ _
  generalize hg : charged env floor (s.initialGas - s.gasRemaining) refund = g
  have hgle : g ≤ s.initialGas := by
    rw [← hg, charged]
    split_ifs <;> omega
  refine ⟨g, hgle, rfl, ?_⟩
  -- the gas that is left after refund and floor
  have hrest : floored (env.rule env.isPrague) floor
      { s with gasRemaining := s.gasRemaining + refund } = s.initialGas - g := by
    rw [floored, ← hg, charged]
    dsimp only
    split_ifs <;> omega
  have hsub : s.initialGas - (s.initialGas - g) = g := by omega
  have hmul : (s.initialGas - g) * msg.gasPrice + g * msg.gasPrice =
      s.initialGas * msg.gasPrice := by
    rw [← Nat.add_mul, Nat.sub_add_cancel hgle]
  have htip : effectiveTip env msg ≤ msg.gasPrice := by
    rw [effectiveTip, if_pos hlondon]
    omega
  have hfee : g * effectiveTip env msg ≤ g * msg.gasPrice := mul_le_mul_left _ htip
  have happly : ∀ peak, exec (applyFloor env floor peak)
      { s with gasRemaining := s.gasRemaining + refund } =
        (.ok (if env.rule env.isPrague then max peak floor else peak),
          { s with gasRemaining := s.initialGas - g }) := fun peak => by
    rw [← hrest]
    exact exec_applyFloor (by dsimp only; omega) hlt hfloor
  have hreturn : exec (returnGas msg) { s with gasRemaining := s.initialGas - g } =
      (.ok ⟨⟩, s.returned msg g) :=
    exec_returnGas hprice (by dsimp only; omega) (by dsimp only; omega)
  have hreturned : (s.returned msg g).gasRemaining = s.initialGas - g := rfl
  have hinitial : (s.returned msg g).initialGas = s.initialGas := rfl
  have hworld : (s.returned msg g).world.total =
      s.world.total + (s.initialGas - g) * msg.gasPrice := total_pay _ _ _
  have hpay := exec_payFees (s := s.returned msg g) hbsc (by omega) (by omega)
    (htip.trans_lt hprice) (by rw [hreturned, hinitial, hworld, hsub]; omega)
  rw [hreturned, hinitial, hsub] at hpay
  have hused : exec gasUsed (s.settled env msg g) = (.ok g, s.settled env msg g) := by
    have h := exec_gasUsed (s := s.settled env msg g)
      (show s.initialGas - g ≤ s.initialGas by omega) hlt
    rwa [show (s.settled env msg g).initialGas - (s.settled env msg g).gasRemaining = g from hsub]
      at h
  rw [settle, exec_bind_ok (exec_gasUsed hle hlt), exec_bind_ok (exec_calcRefund hlondon hle hlt),
    hrefund, exec_bind_ok (exec_get s), exec_bind_ok (exec_add64 (by omega)),
    exec_bind_ok (exec_modify _ _), exec_bind_ok (happly _), exec_bind_ok hreturn,
    exec_bind_ok hpay]
  exact (exec_bind_ok hused).trans (exec_pure _ _)

end settling

/-! ## The account -/

/-- What holds of an accepted message: the sum of all balances, what each account paid or got
apart from the run, the gas pool, the refund, the floor, the peak, and that nothing wrapped. -/
structure Settled (env : Env) (msg : Message) (s : St) (res : ExecutionResult) (s' : St) :
    Prop where
  supply : s'.world.total + res.usedGas * min msg.gasPrice env.baseFee = s.world.total
  accounts : ∃ start run, s'.ran = some (start, run) ∧ ∀ a,
    ((start.balance a : ℤ) - s.world.balance a) + ((s'.world.balance a : ℤ) - run.world.balance a) =
      (if a = systemAddress then
        (res.usedGas * (msg.gasPrice - env.baseFee) + blobFee env msg env.blobBaseFee : ℕ) else 0) -
      (if a = msg.fromAddress then
        (res.usedGas * msg.gasPrice + blobFee env msg env.blobBaseFee : ℕ) else 0)
  pool : s'.gp + res.usedGas = s.gp
  refund : ∃ start run, s'.ran = some (start, run) ∧
    ∃ refund ≤ (msg.gasLimit.toNat - run.gas) / 5, ∃ floor, floorOf env msg = .ok floor ∧
      res.usedGas = max (msg.gasLimit.toNat - run.gas - refund) floor
  floor : env.isPrague = true → ∃ floor, floorDataGas msg.data = .ok floor ∧ floor ≤ res.usedGas
  peak : res.usedGas ≤ res.maxUsedGas ∧ res.maxUsedGas ≤ msg.gasLimit.toNat
  noWrap : s'.wrapped = false

section account

variable {env : Env} {evm : Evm} {msg : Message}

variable {floor : ℕ}

theorem floorOf_eq_ok (h : floorOf env msg = .ok floor) : floor ≤ msg.gasLimit.toNat ∧
      (env.rule env.isPrague = true → floorDataGas msg.data = .ok floor) ∧
      (env.rule env.isPrague = false → floor = 0) := by
  rw [floorOf] at h
  cases hprague : env.rule env.isPrague with
  | false =>
    simp only [hprague, Bool.not_false, if_true] at h
    obtain rfl := Except.ok.inj h
    simp
  | true =>
    simp only [hprague, Bool.not_true, Bool.false_eq_true, if_false] at h
    obtain ⟨floor', hfloor, h⟩ := bind_eq_ok.mp h
    obtain ⟨⟨⟩, hle, h⟩ := bind_eq_ok.mp h
    obtain rfl := Except.ok.inj h
    exact ⟨by simpa using ensure_eq_ok.mp hle, fun _ => hfloor, by simp⟩

theorem balance_pay (w : World) (a b : Address) (amount : ℕ) :
    (w.pay b amount).balance a = if a = b then w.balance a + amount else w.balance a := by
  simp only [pay, setBalance, Function.update_apply]
  split_ifs with h
  · rw [h]
  · rfl

theorem blobFee_of_not_cancun {price : ℕ} (h : env.isCancun = false) :
    blobFee env msg price = 0 := by
  simp [blobFee, h]

theorem balance_rewarded (w : World) (used : ℕ) (a : Address) :
    (w.rewarded env msg used).balance a =
      if a = systemAddress then
        w.balance a + used * effectiveTip env msg + blobFee env msg env.blobBaseFee
      else w.balance a := by
  rw [rewarded]
  cases hcancun : env.isCancun with
  | false =>
    simp only [Bool.false_eq_true, if_false, blobFee_of_not_cancun hcancun, balance_pay, add_zero]
  | true =>
    simp only [if_true, balance_pay]
    split_ifs <;> rfl

theorem total_rewarded (w : World) (used : ℕ) : (w.rewarded env msg used).total =
      w.total + used * effectiveTip env msg + blobFee env msg env.blobBaseFee := by
  rw [rewarded]
  cases hcancun : env.isCancun with
  | false =>
    simp only [Bool.false_eq_true, if_false, blobFee_of_not_cancun hcancun, total_pay, add_zero]
  | true => simp only [if_true, total_pay]

theorem price_split (price base : ℕ) : price = (price - base) + min price base := by omega

/-- The state after the run of a message whose sender could pay. -/
structure Ran (env : Env) (msg : Message) (s : St) (floor : ℕ) (result : RunResult) (s' : St) :
    Prop where
  gp : s'.gp + msg.gasLimit.toNat = s.gp
  initialGas : s'.initialGas = msg.gasLimit.toNat
  gasRemaining : s'.gasRemaining = result.gas
  left : result.gas ≤ msg.gasLimit.toNat
  world : s'.world = result.world
  total : result.world.total + gasCost env msg = s.world.total
  ran : ∃ start, s'.ran = some (start, result) ∧ ∀ a,
    start.balance a + (if a = msg.fromAddress then gasCost env msg else 0) = s.world.balance a
  wrapped : s'.wrapped = s.wrapped
  floor : floorOf env msg = .ok floor

variable {s : St}

theorem ran_of_covered (hevm : Conserving evm) {s₁ s₂ s₃ : St} {result : RunResult}
    (hcost : gasCost env msg ≤ s.world.balance msg.fromAddress) (htotal : s.world.total < 2 ^ 256)
    (hpre : exec (preCheck env msg) s = (.ok (), s₁))
    (hadmitted : exec (admitMessage env msg) s₁ = (.ok floor, s₂))
    (hrun : exec (runMessage env evm msg) s₂ = (.ok result, s₃)) :
    Ran env msg s floor result s₃ := by
  obtain ⟨-, hpool, -⟩ := preCheck_eq_ok hpre
  obtain rfl := preCheck_covered hpre hcost htotal
  obtain ⟨hfloor, gas, hgas, rfl⟩ := admitMessage_eq_ok hadmitted
  obtain ⟨start, hstart, hleft, hkept, rfl⟩ := runMessage_eq_ok hevm hrun
  have hgl : result.gas ≤ msg.gasLimit.toNat := hleft.trans (sub_le _ _)
  have hsum := s.world.total_setBalance msg.fromAddress
    (s.world.balance msg.fromAddress - gasCost env msg)
  have hkept' : result.world.total = (s.world.setBalance msg.fromAddress
    (s.world.balance msg.fromAddress - gasCost env msg)).total := hkept
  refine ⟨Nat.sub_add_cancel hpool, rfl, rfl, hgl, rfl, by omega, ⟨start, rfl, fun a => ?_⟩, rfl,
    hfloor⟩
  have hbalance : start.balance a = Function.update s.world.balance msg.fromAddress
      (s.world.balance msg.fromAddress - gasCost env msg) a := congrFun hstart a
  rw [hbalance, Function.update_apply]
  split_ifs with ha
  · rw [ha]
    omega
  · rfl

theorem Ran.settled {s₃ s' : St} {result : RunResult} {res : ExecutionResult}
    (h : Ran env msg s floor result s₃) (hbsc : env.isInBSC = true) (hlondon : env.isLondon = true)
    (hprice : msg.gasPrice < 2 ^ 256) (htotal : s.world.total < 2 ^ 256) (hgp : s.gp < 2 ^ 64)
    (hwrapped : s.wrapped = false)
    (hsettle : exec (settle env msg floor result) s₃ = (.ok res, s')) :
    Settled env msg s res s' := by
  obtain ⟨hpool, hinitial, hremaining, hleft, hworld, hsum, ⟨start, hran, hbalances⟩, hkept,
    hfloor⟩ := h
  obtain ⟨hfloorle, hfloorok, hfloorzero⟩ := floorOf_eq_ok hfloor
  have hrule : env.rule env.isPrague = env.isPrague := by simp [Env.rule, hbsc]
  have hlimit := msg.gasLimit.toNat_lt
  have hcost : gasCost env msg =
      msg.gasLimit.toNat * msg.gasPrice + blobFee env msg env.blobBaseFee := rfl
  obtain ⟨refund, hrefund, g, hgle, hg, hexec⟩ := exec_settle (s := s₃) floor result
    hbsc hlondon hprice (by omega) (by omega) (by omega) (by omega)
    (by rw [hworld, hinitial]; omega)
  rw [hexec] at hsettle
  obtain ⟨rfl, rfl⟩ := ok_inj hsettle
  rw [hinitial, hremaining] at hrefund hg
  rw [hinitial] at hgle
  -- without a floor the maximum is the gas after the refund
  have hmax : g = max (msg.gasLimit.toNat - result.gas - refund) floor := by
    rw [hg, charged]
    split_ifs with hprague
    · rfl
    · rw [hfloorzero (by simpa using hprague)]
      omega
  have htip : effectiveTip env msg = msg.gasPrice - env.baseFee := by
    rw [effectiveTip, if_pos hlondon]
  have hsplit := price_split msg.gasPrice env.baseFee
  have hmul : (msg.gasLimit.toNat - g) * msg.gasPrice + g * msg.gasPrice =
      msg.gasLimit.toNat * msg.gasPrice := by
    rw [← Nat.add_mul, Nat.sub_add_cancel hgle]
  have hfee : g * msg.gasPrice =
      g * (msg.gasPrice - env.baseFee) + g * min msg.gasPrice env.baseFee := by
    rw [← mul_add, ← hsplit]
  refine ⟨?_, ⟨start, result, hran, fun a => ?_⟩, ?_, ⟨start, result, hran, refund, hrefund, floor,
    hfloor, hmax⟩, fun hprague => ⟨floor, hfloorok (hrule.trans hprague), ?_⟩, ?_, ?_⟩
  · change ((s₃.returned msg g).world.rewarded env msg g).total + _ = _
    rw [total_rewarded, htip]
    change (s₃.world.pay _ _).total + _ + _ + _ = _
    rw [total_pay, hworld, hinitial]
    dsimp only
    omega
  · have hstart := hbalances a
    have hfinal : (s₃.settled env msg g).world.balance a =
        ((s₃.world.pay msg.fromAddress ((s₃.initialGas - g) * msg.gasPrice)).rewarded
          env msg g).balance a := rfl
    rw [hfinal, balance_rewarded, balance_pay, hworld, hinitial, htip]
    dsimp only
    split_ifs at hstart ⊢ <;> omega
  · change s₃.gp + (s₃.initialGas - g) + g = s.gp
    omega
  · exact hmax ▸ le_max_right _ _
  · dsimp only
    rw [hrule, hinitial, hremaining, hg, charged, hrule]
    split_ifs <;> omega
  · exact hkept.trans hwrapped

/-- The account of an accepted message closes exactly if its sender can pay for the gas and the
blobs. The check of the balance ensures that, except for a call without base fee that offers
nothing for its blobs: it is charged for them without having been checked. -/
theorem fees_conserved_iff (hevm : Conserving evm) (hbsc : env.isInBSC = true)
    (hlondon : env.isLondon = true) (hprice : msg.gasPrice ≤ msg.gasFeeCap) {s s' : St}
    {res : ExecutionResult} (htotal : s.world.total < 2 ^ 256) (hgp : s.gp < 2 ^ 64)
    (hwrapped : s.wrapped = false) (h : exec (execute env evm msg) s = (.ok res, s')) :
    Settled env msg s res s' ↔ BlobsCovered env msg s.world := by
  obtain ⟨⟨⟩, s₁, hpre, h⟩ := exec_bind_eq_ok h
  obtain ⟨floor, s₂, hadmitted, h⟩ := exec_bind_eq_ok h
  obtain ⟨result, s₃, hrun, hsettle⟩ := exec_bind_eq_ok h
  obtain ⟨hpassed, -, -⟩ := preCheck_eq_ok hpre
  constructor
  · intro hsettled hskip hcap
    by_contra hcost
    have h₁ : Noted s₁ := preCheck_uncovered hpre (Nat.not_le.mp hcost)
    have h₂ := admitMessage_keeps env msg s₁ h₁
    rw [hadmitted] at h₂
    have h₃ := runMessage_keeps env evm msg s₂ h₂
    rw [hrun] at h₃
    have h₄ := settle_keeps env msg floor result s₃ h₃
    rw [hsettle] at h₄
    exact absurd hsettled.noWrap (by simp [show s'.wrapped = true from h₄])
  · intro hcovered
    have hran := ran_of_covered hevm (hpassed.gasCost_le hprice hcovered) htotal hpre hadmitted hrun
    exact hran.settled hbsc hlondon (checkFees_eq_ok hlondon hprice hpassed.fees) htotal hgp
      hwrapped hsettle

end account

/-! ## A call that cannot pay for its blobs -/

/-- An EVM that does nothing. -/
def idleEvm : Evm where
  create _ _ gas _ w := ⟨[], gas, false, w⟩
  call _ _ _ gas _ w := ⟨[], gas, false, w⟩

theorem idleEvm_conserving : Conserving idleEvm :=
  ⟨fun _ _ _ _ _ => ⟨le_rfl, rfl⟩, fun _ _ _ _ _ _ => ⟨le_rfl, rfl⟩⟩

def emptyWorld : World := ⟨fun _ => 0, fun _ => 0, fun _ => [], fun _ => false, 0⟩

theorem total_emptyWorld : emptyWorld.total = 0 := by simp [total, emptyWorld]

def cancunEnv (noBaseFee : Bool) : Env where
  chainID := 88888
  coinbase := FixedBytes.ofBytes 20 [0xc0]
  baseFee := 7
  blobBaseFee := 1
  noBaseFee := noBaseFee
  isInBSC := true
  isMerge := false
  isHomestead := true
  isIstanbul := true
  isLondon := true
  isShanghai := true
  isCancun := true
  isPrague := true
  isOsaka := false
  isNano := true
  authority _ := none

def blobSender : Address := FixedBytes.ofBytes 20 [0xaa]

def blobMessage (price blobGasFeeCap : ℕ) : Message where
  toAddress := some (FixedBytes.ofBytes 20 [0xbb])
  fromAddress := blobSender
  nonce := 0
  value := 0
  gasLimit := 30000
  gasPrice := price
  gasFeeCap := price
  gasTipCap := 0
  data := [1]
  accessList := []
  blobGasFeeCap := blobGasFeeCap
  blobHashes := some [FixedBytes.ofBytes 32 (0x01 :: List.replicate 31 0)]
  setCodeAuthorizations := none
  skipNonceChecks := false
  skipTransactionChecks := false

def startWith (w : World) : St := ⟨1000000, 0, 0, w, false, none⟩

/-- A transaction with a blob whose sender can pay. -/
theorem fees_conserved_iff_transaction :
    ∃ res s', exec (execute (cancunEnv false) idleEvm (blobMessage 10 3))
        (startWith (emptyWorld.pay blobSender 1000000)) = (.ok res, s') ∧
      Settled (cancunEnv false) (blobMessage 10 3)
        (startWith (emptyWorld.pay blobSender 1000000)) res s' := by
  obtain ⟨res, s', h⟩ := exists_of_isOk (show (exec (execute (cancunEnv false) idleEvm
    (blobMessage 10 3)) (startWith (emptyWorld.pay blobSender 1000000))).1.isOk = true by
      decide)
  have htotal : (startWith (emptyWorld.pay blobSender 1000000)).world.total < 2 ^ 256 := by
    change (emptyWorld.pay blobSender 1000000).total < 2 ^ 256
    rw [total_pay, total_emptyWorld]
    norm_num
  refine ⟨res, s', h, (fees_conserved_iff idleEvm_conserving rfl rfl le_rfl htotal (by decide) rfl
    h).mpr fun hskip => ?_⟩
  cases hskip

/-- A call without base fee by an account that owns nothing, with a blob it offers nothing for: it
is accepted, and the account ends up with almost `2 ^ 256`. -/
theorem unpaid_blob_wraps_balance :
    Conserving idleEvm ∧ (blobMessage 0 0).gasPrice ≤ (blobMessage 0 0).gasFeeCap ∧
      (startWith emptyWorld).world.total = 0 ∧
      ∃ res s', exec (execute (cancunEnv true) idleEvm (blobMessage 0 0)) (startWith emptyWorld) =
          (.ok res, s') ∧ s'.wrapped = true ∧ s'.world.balance blobSender = 2 ^ 256 - 2 ^ 17 := by
  refine ⟨idleEvm_conserving, le_rfl, total_emptyWorld, ?_⟩
  obtain ⟨res, s', h⟩ := exists_of_isOk (show (exec (execute (cancunEnv true) idleEvm
    (blobMessage 0 0)) (startWith emptyWorld)).1.isOk = true by decide)
  have hwrapped : (exec (execute (cancunEnv true) idleEvm (blobMessage 0 0))
    (startWith emptyWorld)).2.wrapped = true := by decide
  have hbalance : (exec (execute (cancunEnv true) idleEvm (blobMessage 0 0))
    (startWith emptyWorld)).2.world.balance blobSender = 2 ^ 256 - 2 ^ 17 := by decide
  rw [h] at hwrapped hbalance
  exact ⟨res, s', h, hwrapped, hbalance⟩

end ChilizChain.Transition
