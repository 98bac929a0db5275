import ChilizChain.Parlia.Engine
import ChilizChain.Parlia.Selection

/-! Block times. The in-turn validator seals without delay, and every other validator that may sign
waits for a slot of its own, drawn by a shuffle. The producer puts the time of its slot into the
header, in whole seconds before Lorentz and in milliseconds after it, and the verifier works the
slot out again from the header. -/

namespace ChilizChain

open Bytes Snapshot List

namespace Parlia

/-! ## Back-off slots -/

section BackOff

variable {p : Parlia} {s : Snapshot} {parent hd : Header} {turn val other : Address}

/-- The initial delay: none if the in-turn validator may not sign. -/
def initialDelay (p : Parlia) (s : Snapshot) (parent header : Header) (inTurnAddr : Address) : ℕ :=
  if p.c.isPlanck header.number ∧ s.signRecently inTurnAddr then 0
  else if p.c.isLorentz parent.number parent.time then lorentzInitialBackOffTime
  else defaultInitialBackOffTime

/-- The delay of the slot `step`. -/
def slotDelay (p : Parlia) (s : Snapshot) (parent header : Header) (inTurnAddr : Address)
    (step : ℕ) : ℕ :=
  if p.initialDelay s parent header inTurnAddr = 0 ∧ p.c.isLorentz parent.number parent.time then
    if step = 0 then 0 else lorentzInitialBackOffTime + (step - 1) * wiggleTime
  else p.initialDelay s parent header inTurnAddr + step * wiggleTime

/-- The slot of a validator. -/
def slotOf (p : Parlia) (s : Snapshot) (header : Header) (inTurnAddr val : Address) : ℕ :=
  let validators := p.backOffValidators s header inTurnAddr
  let randSeed :=
    if p.c.isBohr header.number header.time then header.number / s.turnLength else s.number
  (p.k.shuffle randSeed validators.length).getD (validators.idxOf val) 0

theorem slotDelay_injective (p : Parlia) (s : Snapshot) (parent hd : Header)
    (turn : Address) : Function.Injective (p.slotDelay s parent hd turn) := by
  intro step step' heq
  simp only [slotDelay, lorentzInitialBackOffTime, wiggleTime] at heq
  split_ifs at heq <;> omega

theorem slotDelay_pos (hmay : s.signRecently turn = false) (step : ℕ) :
    0 < p.slotDelay s parent hd turn step := by
  have hinitial : 0 < p.initialDelay s parent hd turn := by
    rw [initialDelay, if_neg (by simp [hmay])]
    split_ifs <;> decide
  rw [slotDelay, if_neg (by omega)]
  omega

theorem mem_backOffValidators (hval : val ∈ s.validators) (hmay : s.signRecently val = false)
    (hne : val ≠ turn) : val ∈ p.backOffValidators s hd turn := by
  have hlist : val ∈ s.validatorList := Std.ExtTreeMap.mem_keys.mpr hval
  rw [backOffValidators]
  split_ifs
  · refine mem_filter.mpr ⟨hlist, ?_⟩
    simp [hmay, hne]
  · exact hlist

theorem slotOf_ne (hshuffle : ∀ seed n, (p.k.shuffle seed n).Perm (List.range n))
    (hval : val ∈ p.backOffValidators s hd turn)
    (hother : other ∈ p.backOffValidators s hd turn) (hne : val ≠ other) :
    p.slotOf s hd turn val ≠ p.slotOf s hd turn other := by
  have hlt := idxOf_lt_length_of_mem hval
  have hlt' := idxOf_lt_length_of_mem hother
  simp only [slotOf]
  set seed := if p.c.isBohr hd.number hd.time then hd.number / s.turnLength
    else s.number
  have hperm := hshuffle seed (p.backOffValidators s hd turn).length
  have hlength := hperm.length_eq
  rw [length_range] at hlength
  rw [getD_eq_getElem _ _ (by omega), getD_eq_getElem _ _ (by omega)]
  intro heq
  have hnodup := hperm.nodup_iff.mpr nodup_range
  exact hne ((idxOf_inj hval).mp ((hnodup.getElem_inj_iff).mp heq))

section

variable (hturn : s.inturnValidator p.k = .ok turn)
include hturn

theorem backOffTime_of_inturn : p.backOffTime s parent hd turn = .ok 0 := by
  simp [backOffTime, hturn, bind, Except.bind, pure, Except.pure]

theorem backOffTime_of_not_inturn (hval : val ∈ s.validators) (hmay : s.signRecently val = false)
    (hne : val ≠ turn)
    (hseed : p.c.isBohr hd.number hd.time = true → s.turnLength ≠ 0) :
    p.backOffTime s parent hd val =
      .ok (p.slotDelay s parent hd turn (p.slotOf s hd turn val)) := by
  have hmem : val ∈ p.backOffValidators s hd turn := mem_backOffValidators hval hmay hne
  have hguard : ¬(p.c.isBohr hd.number hd.time = true ∧ s.turnLength = 0) :=
    fun h => hseed h.1 h.2
  simp only [backOffTime, hturn, bind, Except.bind, pure, Except.pure, hne.symm, if_false, hmay,
    Bool.false_eq_true, and_false, hmem, not_true, hguard]
  exact (apply_ite Except.ok _ _ _).symm

theorem backOffTime_of_panic (hval : val ∈ s.validators) (hmay : s.signRecently val = false)
    (hne : val ≠ turn)
    (hbohr : p.c.isBohr hd.number hd.time = true) (hzero : s.turnLength = 0) :
    p.backOffTime s parent hd val = .error .panicked := by
  have hmem : val ∈ p.backOffValidators s hd turn := mem_backOffValidators hval hmay hne
  simp [backOffTime, hturn, bind, Except.bind, hne.symm, hmay, hmem, hbohr, hzero, throw, throwThe,
    MonadExceptOf.throw]

end

theorem backOffTime_ok (hval : val ∈ s.validators) (hmay : s.signRecently val = false)
    {delay : ℕ} (h : p.backOffTime s parent hd val = .ok delay) :
    ∃ turn, s.inturnValidator p.k = .ok turn ∧ (val = turn ∧ delay = 0 ∨ val ≠ turn ∧
        delay = p.slotDelay s parent hd turn (p.slotOf s hd turn val)) := by
  cases hturn : s.inturnValidator p.k with
  | error e =>
    simp [backOffTime, hturn, bind, Except.bind] at h
  | ok turn =>
    refine ⟨turn, rfl, ?_⟩
    by_cases hne : val = turn
    · rw [hne, backOffTime_of_inturn hturn] at h
      exact .inl ⟨hne, (Except.ok.inj h).symm⟩
    · refine .inr ⟨hne, ?_⟩
      by_cases hseed : p.c.isBohr hd.number hd.time = true → s.turnLength ≠ 0
      · rw [backOffTime_of_not_inturn hturn hval hmay hne hseed] at h
        exact (Except.ok.inj h).symm
      · rw [Classical.not_imp, not_not] at hseed
        rw [backOffTime_of_panic hturn hval hmay hne hseed.1 hseed.2] at h
        cases h

theorem inturnValidator_ok (k : Crypto) (hval : val ∈ s.validators) (hturn : s.turnLength ≠ 0) :
    ∃ turn, s.inturnValidator k = .ok turn := by
  have hvalidators : s.validators ≠ ∅ := by
    intro hempty
    rw [hempty] at hval
    exact Std.ExtTreeMap.not_mem_empty hval
  obtain ⟨robin, -, hrobin⟩ := selectValidatorRoundRobin_mem hvalidators hturn
  by_cases hround : s.number = 0 ∨ s.isSnake8Fork = false
  · exact ⟨robin, (inturnValidator_of_not_fork hround).trans hrobin⟩
  · rw [not_or, Bool.not_eq_false] at hround
    obtain ⟨-, heq⟩ | ⟨owner, -, heq⟩ :=
      inturnValidator_of_fork (k := k) hround.1 hround.2
    · exact ⟨robin, heq.trans hrobin⟩
    · exact ⟨owner.address, heq⟩

theorem backOffTime_returns (p : Parlia) (parent hd : Header) (hval : val ∈ s.validators)
    (hmay : s.signRecently val = false) (hturn : s.turnLength ≠ 0) :
    ∃ delay, p.backOffTime s parent hd val = .ok delay := by
  obtain ⟨turn, hinturn⟩ := inturnValidator_ok p.k hval hturn
  by_cases hne : val = turn
  · rw [hne]
    exact ⟨0, backOffTime_of_inturn hinturn⟩
  · exact ⟨_, backOffTime_of_not_inturn hinturn hval hmay hne fun _ => hturn⟩

/-- **Back-off separates proposers.** Two validators that may sign have different back-offs; the
in-turn validator has none, and if it may sign, every other one that may sign has one. There are
no back-offs at all only where the code divides by a turn length of zero. -/
theorem backOff_separates (p : Parlia) (s : Snapshot) (parent header : Header)
    (hshuffle : ∀ seed n, (p.k.shuffle seed n).Perm (List.range n)) (val other : Address)
    (hval : val ∈ s.validators) (hother : other ∈ s.validators) (hne : val ≠ other)
    (hmay : s.signRecently val = false) (hmay' : s.signRecently other = false) :
    (s.turnLength ≠ 0 → ∃ delay delay', p.backOffTime s parent header val = .ok delay ∧
      p.backOffTime s parent header other = .ok delay') ∧
    (∀ delay delay', p.backOffTime s parent header val = .ok delay →
      p.backOffTime s parent header other = .ok delay' → delay ≠ delay') ∧
    ∀ inTurnAddr, s.inturnValidator p.k = .ok inTurnAddr →
      p.backOffTime s parent header inTurnAddr = .ok 0 ∧
      (s.signRecently inTurnAddr = false → val ≠ inTurnAddr →
        ∀ delay, p.backOffTime s parent header val = .ok delay → 0 < delay) := by
  refine ⟨fun hturn => ?_, fun delay delay' hdelay hdelay' => ?_,
    fun inTurnAddr hturn => ⟨backOffTime_of_inturn hturn, fun hsigns hnot delay hdelay => ?_⟩⟩
  · obtain ⟨delay, hdelay⟩ := backOffTime_returns p parent header hval hmay hturn
    obtain ⟨delay', hdelay'⟩ := backOffTime_returns p parent header hother hmay' hturn
    exact ⟨delay, delay', hdelay, hdelay'⟩
  · obtain ⟨inTurnAddr, hturn, hcases⟩ := backOffTime_ok hval hmay hdelay
    obtain ⟨inTurnAddr', hturn', hcases'⟩ := backOffTime_ok hother hmay' hdelay'
    obtain rfl : inTurnAddr = inTurnAddr' := Except.ok.inj (hturn.symm.trans hturn')
    rcases hcases with ⟨rfl, rfl⟩ | ⟨hnot, rfl⟩ <;> rcases hcases' with ⟨rfl, rfl⟩ | ⟨hnot', rfl⟩
    · exact absurd rfl hne
    · exact (slotDelay_pos hmay _).ne
    · exact (slotDelay_pos hmay' _).ne'
    · exact (slotDelay_injective p s parent header inTurnAddr).ne
        (slotOf_ne hshuffle (mem_backOffValidators hval hmay hnot)
          (mem_backOffValidators hother hmay' hnot') hne)
  · obtain ⟨inTurnAddr', hturn', hcases⟩ := backOffTime_ok hval hmay hdelay
    obtain rfl : inTurnAddr = inTurnAddr' := Except.ok.inj (hturn.symm.trans hturn')
    obtain ⟨heq, -⟩ | ⟨-, rfl⟩ := hcases
    · exact absurd heq hnot
    · exact slotDelay_pos hsigns _

end BackOff

/-- Two validators, the second in turn, and a shuffle that leaves the slots in order. -/
theorem backOff_separates_two :
    let p : Parlia := ⟨{ (default : Crypto) with shuffle := fun _ n => List.range n }, default, 0,
      false⟩
    let s := Snapshot.newSnapshot default 0 default [.ofBytes 20 [1], .ofBytes 20 [2]] [] false
    ∃ delay delay', p.backOffTime s default default (.ofBytes 20 [1]) = .ok delay ∧
      p.backOffTime s default default (.ofBytes 20 [2]) = .ok delay' ∧ delay ≠ delay' := by
  intro p s
  obtain ⟨hreturns, hne, -⟩ := backOff_separates p s default default (fun _ _ => List.Perm.refl _)
    (.ofBytes 20 [1]) (.ofBytes 20 [2]) (by decide) (by decide) (by decide)
    (by decide) (by decide)
  obtain ⟨delay, delay', hdelay, hdelay'⟩ := hreturns (by decide)
  exact ⟨delay, delay', hdelay, hdelay', hne delay delay' hdelay hdelay'⟩

/-! ## The time of a new block -/

end Parlia

/-- The `int` with the bits of a `uint64`. -/
def toInt64 (n : ℕ) : ℤ := if n < 2 ^ 63 then n else n - 2 ^ 64

/-- The `uint64` with the bits of an `int`. -/
def toUint64 (z : ℤ) : ℕ := (z % 2 ^ 64).toNat

/-- `CeilDiv` on `int`, with a sum that wraps and a quotient truncated towards zero. -/
def ceilDiv (x y : ℤ) : ℤ := if y = 0 then 0 else (toInt64 (toUint64 (x + y - 1))).tdiv y

def millisecondsUnit : ℕ := 50

/-- `SetMilliseconds`. -/
def Header.setMilliseconds (h : Header) (milliseconds : ℕ) : Header :=
  { h with mixDigest := Snapshot.digestOf (milliseconds % 1000) }

namespace Parlia

variable (p : Parlia)

/-- The back-off that goes into the time of a block. -/
def producerBackOff (s : Snapshot) (parent header : Header) (val : Address) : Except Err ℕ :=
  if p.c.isRamanujan header.number then p.backOffTime s parent header val else pure 0

/-- `blockTimeForRamanujanFork` of the validator `val`, with `now` as the clock returns it,
converted to `uint64`. -/
def blockTimeForRamanujanFork (s : Snapshot) (header parent : Header) (val : Address) (now : ℕ) :
    Except Err ℕ := do
  let backOff ← p.producerBackOff s parent header val
  let blockTime := (parent.milliTimestamp + s.blockInterval + backOff) % 2 ^ 64
  if blockTime < now then
    return toUint64 (ceilDiv (toInt64 now) millisecondsUnit) * millisecondsUnit % 2 ^ 64
  return blockTime

/-- The fields that decide over the time, as `Prepare` fills them in. -/
def prepareTime (s : Snapshot) (header parent : Header) (val : Address) (now : ℕ) :
    Except Err Header := do
  let header := { header with coinbase := val }
  let blockTime ← p.blockTimeForRamanujanFork s header parent val now
  let header := { header with time := blockTime / 1000 }
  if p.c.isLorentz header.number header.time then
    return header.setMilliseconds (blockTime % 1000)
  return { header with mixDigest := FixedBytes.zero 32 }

variable {p} {s : Snapshot} {hd header' parent : Header} {val : Address} {now : ℕ}

theorem backOffTime_congr (hnumber : hd.number = header'.number)
    (hbohr : p.c.isBohr header'.number header'.time = p.c.isBohr hd.number hd.time) :
    p.backOffTime s parent header' val = p.backOffTime s parent hd val := by
  simp only [backOffTime, backOffValidators, hbohr, hnumber]

theorem backOffTime_mod {delay : ℕ} (h : p.backOffTime s parent hd val = .ok delay) :
    delay % 1000 = 0 := by
  cases hturn : s.inturnValidator p.k with
  | error e => simp [backOffTime, hturn, bind, Except.bind] at h
  | ok turn =>
    simp only [backOffTime, hturn, bind, Except.bind, pure, Except.pure, throw, throwThe,
      MonadExceptOf.throw, wiggleTime, lorentzInitialBackOffTime, defaultInitialBackOffTime] at h
    split_ifs at h <;> (cases h; omega)

theorem producerBackOff_mod {delay : ℕ} (h : p.producerBackOff s parent hd val = .ok delay) :
    delay % 1000 = 0 := by
  rw [producerBackOff] at h
  split_ifs at h
  · exact backOffTime_mod h
  · cases h
    rfl

theorem toInt64_of_lt {n : ℕ} (h : n < 2 ^ 63) : toInt64 n = n := if_pos h

theorem toUint64_natCast {n : ℕ} (h : n < 2 ^ 64) : toUint64 n = n := by
  rw [toUint64]
  omega

/-- The next multiple of the unit, as long as the clock has a sensible value. -/
theorem ceilDiv_clock (hnow : now + 49 < 2 ^ 63) :
    toUint64 (ceilDiv (toInt64 now) millisecondsUnit) * millisecondsUnit % 2 ^ 64 =
      (now + 49) / 50 * 50 := by
  have hsum : (now : ℤ) + (millisecondsUnit : ℤ) - 1 = (now + 49 : ℕ) := by
    rw [millisecondsUnit]
    omega
  have hclock : toInt64 now = now := toInt64_of_lt (by omega)
  rw [ceilDiv, if_neg (by decide), hclock, hsum, toUint64_natCast (by omega), toInt64_of_lt hnow,
    Int.tdiv_eq_ediv_of_nonneg (Int.natCast_nonneg _), millisecondsUnit,
    ← Int.natCast_ediv, toUint64_natCast (by omega)]
  omega

theorem blockTime_eq {backOff : ℕ} (hnow : now + 49 < 2 ^ 63)
    (hbackOff : p.producerBackOff s parent hd val = .ok backOff) :
    ∃ blockTime, p.blockTimeForRamanujanFork s hd parent val now = .ok blockTime ∧
      (parent.milliTimestamp + s.blockInterval + backOff) % 2 ^ 64 ≤ blockTime ∧
      blockTime < 2 ^ 64 := by
  have hclock := ceilDiv_clock hnow
  simp only [blockTimeForRamanujanFork, hbackOff, bind, Except.bind, pure, Except.pure]
  split_ifs with hlate
  · refine ⟨_, rfl, ?_, Nat.mod_lt _ (by decide)⟩
    rw [hclock]
    omega
  · exact ⟨_, rfl, le_rfl, Nat.mod_lt _ (by decide)⟩

theorem milliTimestamp_of_milliseconds {h : Header} {blockTime : ℕ} (hlt : blockTime < 2 ^ 64)
    (htime : h.time = blockTime / 1000) (hmix : h.mixDigest = digestOf (blockTime % 1000 % 1000)) :
    h.milliTimestamp = blockTime := by
  have hdigest : beNat (digestOf (blockTime % 1000 % 1000)).bytes =
      blockTime % 1000 % 1000 :=
    beNat_digestOf ((Nat.mod_lt _ (by decide)).trans (by decide))
  rw [Header.milliTimestamp, htime, hmix, hdigest]
  omega

theorem milliTimestamp_of_seconds {h : Header} {blockTime : ℕ} (hlt : blockTime < 2 ^ 64)
    (htime : h.time = blockTime / 1000) (hmix : h.mixDigest = FixedBytes.zero 32) :
    h.milliTimestamp = blockTime / 1000 * 1000 := by
  rw [Header.milliTimestamp, htime, hmix, show beNat (FixedBytes.zero 32).bytes = 0 by decide]
  omega

theorem isLorentz_of_parent (hchild : hd.number = parent.number + 1)
    (hparent : p.c.isLorentz parent.number parent.time = true) {time : ℕ}
    (htime : parent.time ≤ time) : p.c.isLorentz hd.number time = true := by
  rw [ChainConfig.isLorentz, Bool.and_eq_true] at hparent ⊢
  exact ⟨isForked_mono (by omega) hparent.1, isForked_mono htime hparent.2⟩

/-- **Producer and verifier agree on time.** The time that a producer puts into a header is not
too early for the verifier, if the block interval is a whole number of seconds as long as the
header carries no milliseconds, the clock stands between 1970 and the end of `int64`, and no sum
of times overflows. -/
theorem producer_meets_verifier (p : Parlia) (s : Snapshot) (header parent : Header)
    (val : Address) (now backOff : ℕ) (hchild : header.number = parent.number + 1)
    (hbackOff : p.producerBackOff s parent { header with coinbase := val } val = .ok backOff)
    (hparent : p.c.isLorentz parent.number parent.time = false →
      parent.mixDigest = FixedBytes.zero 32)
    (hclock : now + 49 < 2 ^ 63)
    (hfits : parent.time * 1000 + beNat parent.mixDigest.bytes % 2 ^ 64 + s.blockInterval +
      backOff < 2 ^ 64) :
    ∃ header', p.prepareTime s header parent val now = .ok header' ∧
      (p.c.isBohr header'.number header'.time = p.c.isBohr header.number header.time →
        (p.c.isLorentz header'.number header'.time = false → s.blockInterval % 1000 = 0) →
        p.blockTimeVerifyForRamanujanFork s header' parent = .ok ()) := by
  obtain ⟨blockTime, hblockTime, hlow, hhigh⟩ := blockTime_eq hclock hbackOff
  have hmilli : parent.milliTimestamp =
      parent.time * 1000 + beNat parent.mixDigest.bytes % 2 ^ 64 := by
    rw [Header.milliTimestamp]
    omega
  have hsum : (parent.milliTimestamp + s.blockInterval + backOff) % 2 ^ 64 =
      parent.milliTimestamp + s.blockInterval + backOff := by omega
  -- the verifier asks for the back-off that the producer has used
  have hverifier : ∀ header' : Header, header'.number = header.number → header'.coinbase = val →
      p.c.isBohr header'.number header'.time = p.c.isBohr header.number header.time →
      parent.milliTimestamp + s.blockInterval + backOff ≤ header'.milliTimestamp →
      p.blockTimeVerifyForRamanujanFork s header' parent = .ok () := by
    intro header' hnumber hcoinbase hbohr hle
    rw [blockTimeVerifyForRamanujanFork]
    split_ifs with hramanujan
    · have hsame : p.backOffTime s parent header' val = .ok backOff := by
        rw [producerBackOff, if_pos (by rwa [hnumber] at hramanujan)] at hbackOff
        rw [← hbackOff]
        exact backOffTime_congr hnumber.symm hbohr
      simp only [hcoinbase, hsame, bind, Except.bind, hsum]
      rw [if_neg (by omega)]
      rfl
    · rfl
  rw [hsum] at hlow
  simp only [prepareTime, hblockTime, bind, Except.bind, pure, Except.pure]
  split_ifs with hlorentz
  · refine ⟨_, rfl, fun hbohr _ => hverifier _ rfl rfl hbohr ?_⟩
    exact hlow.trans (milliTimestamp_of_milliseconds hhigh rfl rfl).ge
  · refine ⟨_, rfl, fun hbohr hinterval => hverifier _ rfl rfl hbohr ?_⟩
    have hbefore : p.c.isLorentz parent.number parent.time = false := by
      by_contra hparentLorentz
      rw [Bool.not_eq_false] at hparentLorentz
      exact hlorentz (isLorentz_of_parent hchild hparentLorentz (by omega))
    have hseconds : parent.milliTimestamp = parent.time * 1000 := by
      rw [hmilli, hparent hbefore, show beNat (FixedBytes.zero 32).bytes = 0 by decide,
        Nat.zero_mod, Nat.add_zero]
    have hwhole := hinterval (Bool.eq_false_iff.mpr hlorentz)
    have hslot := producerBackOff_mod hbackOff
    refine le_trans ?_ (milliTimestamp_of_seconds hhigh rfl rfl).ge
    omega

/-- An engine on a network with Ramanujan from the genesis block and no later fork. -/
def early : Parlia := ⟨default, { (default : ChainConfig) with ramanujanBlock := some 0 }, 0, false⟩

/-- A single validator on top of a genesis block of time 1000, with this block interval. -/
def soleProducer (blockInterval : ℕ) : Snapshot :=
  { Snapshot.newSnapshot default 0 default [.ofBytes 20 [1]] [] false with
    blockInterval := blockInterval }

/-- The default interval of three seconds, with a clock that is late. -/
theorem producer_meets_verifier_default :
    ∃ header', early.prepareTime (soleProducer defaultBlockInterval)
        { (default : Header) with number := 1 } { (default : Header) with time := 1000 }
        (.ofBytes 20 [1]) 2000001 = .ok header' ∧
      early.blockTimeVerifyForRamanujanFork (soleProducer defaultBlockInterval) header'
        { (default : Header) with time := 1000 } = .ok () := by
  obtain ⟨header', hprepare, hverify⟩ := producer_meets_verifier early
    (soleProducer defaultBlockInterval) { (default : Header) with number := 1 }
    { (default : Header) with time := 1000 } (.ofBytes 20 [1]) 2000001 0 rfl (by decide)
    (fun _ => rfl) (by decide) (by decide)
  exact ⟨header', hprepare, hverify rfl fun _ => rfl⟩

/-- An interval of 450 milliseconds while headers carry whole seconds: the producer's time is
rounded down to that of the parent, and the verifier refuses it. -/
theorem producer_fails_verifier :
    (soleProducer fermiBlockInterval).signRecently (.ofBytes 20 [1]) = false ∧
    ∃ header', early.prepareTime (soleProducer fermiBlockInterval)
        { (default : Header) with number := 1 } { (default : Header) with time := 1000 }
        (.ofBytes 20 [1]) 0 = .ok header' ∧
      early.blockTimeVerifyForRamanujanFork (soleProducer fermiBlockInterval) header'
        { (default : Header) with time := 1000 } = .error .errFutureBlock := by
  refine ⟨by decide,
    { (default : Header) with number := 1, coinbase := .ofBytes 20 [1], time := 1000 }, ?_, ?_⟩
  · decide
  · decide

end Parlia

end ChilizChain
