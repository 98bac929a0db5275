import ChilizChain.Parlia.Header

/-! # Admission of bids

`CheckPending`, `AddPending` and the deletion in `clearLoop` take the lock one after the other, in
any order. The maps that the check makes can be gone when the bid is added, and checks that passed
together can add more bids than each of them alone was allowed. -/

namespace ChilizChain

open Function Option List

structure Bid where
  blockNumber : UInt64
  builder : Address
  hash : Hash
  deriving DecidableEq

/-- The bids by block number and builder; what is absent is a missing map. -/
structure BidSimulator where
  pending : UInt64 → Option (Address → Option (Finset Hash))
  maxBidsPerBuilder : UInt32

inductive BidError
  | alreadyExists
  | tooManyBids

namespace BidSimulator

variable (b : BidSimulator) (bid : Bid)

def setBids (builders : Address → Option (Finset Hash)) (bids : Finset Hash) : BidSimulator :=
  { b with pending := update b.pending bid.blockNumber (update builders bid.builder bids) }

/-- Missing maps are made before the bid is looked up. -/
def checkPending : Option BidError × BidSimulator :=
  let builders := (b.pending bid.blockNumber).getD fun _ => none
  let bids := (builders bid.builder).getD ∅
  (if bid.hash ∈ bids then some .alreadyExists
    else if b.maxBidsPerBuilder.toNat ≤ bids.card then some .tooManyBids else none,
    b.setBids bid builders bids)

/-- A write into a missing map panics. -/
def addPending : Option BidSimulator := do
  let builders ← b.pending bid.blockNumber
  let bids ← builders bid.builder
  return b.setBids bid builders (insert bid.hash bids)

/-- What `clearLoop` deletes at a chain head. -/
def clear (blockNumber : UInt64) : BidSimulator :=
  { b with pending := update b.pending blockNumber none }

/-- The bids of a builder for a block number, if the maps are there. -/
def bidsOf (number : UInt64) (builder : Address) : Option (Finset Hash) :=
  (b.pending number).bind fun builders => builders builder

def Bounded : Prop :=
  ∀ number builder, ∀ bids ∈ b.bidsOf number builder, bids.card ≤ b.maxBidsPerBuilder.toNat

/-- The maps of the bid are there, with the bid or with room for it. -/
def Admits : Prop :=
  ∃ bids ∈ b.bidsOf bid.blockNumber bid.builder,
    bid.hash ∈ bids ∨ bids.card < b.maxBidsPerBuilder.toNat

variable {b bid} {number : UInt64} {builder : Address}

theorem bidsOf_setBids {builders : Address → Option (Finset Hash)} (bids : Finset Hash)
    (hbuilders : (b.pending bid.blockNumber).getD (fun _ => none) = builders) :
    (b.setBids bid builders bids).bidsOf number builder =
      if number = bid.blockNumber ∧ builder = bid.builder then some bids
      else b.bidsOf number builder := by
  subst hbuilders
  by_cases hnumber : number = bid.blockNumber
  · by_cases hbuilder : builder = bid.builder
    · simp [bidsOf, setBids, hnumber, hbuilder]
    · cases hp : b.pending bid.blockNumber <;> simp [bidsOf, setBids, hnumber, hbuilder, hp]
  · simp [bidsOf, setBids, hnumber]

theorem bidsOf_checkPending : (b.checkPending bid).2.bidsOf number builder =
    if number = bid.blockNumber ∧ builder = bid.builder then
      some ((b.bidsOf number builder).getD ∅)
    else b.bidsOf number builder := by
  rw [checkPending, bidsOf_setBids _ rfl]
  refine ite_congr rfl (fun h => ?_) fun _ => rfl
  rw [h.1, h.2, bidsOf]
  cases b.pending bid.blockNumber <;> rfl

theorem checkPending_none (h : (b.checkPending bid).1 = none) :
    ((b.bidsOf bid.blockNumber bid.builder).getD ∅).card < b.maxBidsPerBuilder.toNat := by
  have hbids : ((b.pending bid.blockNumber).getD (fun _ => none) bid.builder).getD ∅ =
      (b.bidsOf bid.blockNumber bid.builder).getD ∅ := by
    rw [bidsOf]
    cases b.pending bid.blockNumber <;> rfl
  rw [checkPending, hbids] at h
  dsimp only at h
  split_ifs at h with hmem hmany
  exact not_le.mp hmany

theorem addPending_eq_some {b' : BidSimulator} : b.addPending bid = some b' ↔
    ∃ builders, b.pending bid.blockNumber = some builders ∧
      ∃ bids, b.bidsOf bid.blockNumber bid.builder = some bids ∧
        b.setBids bid builders (insert bid.hash bids) = b' := by
  cases hp : b.pending bid.blockNumber with
  | none => simp [addPending, hp]
  | some builders =>
    cases hb : builders bid.builder with
    | none => simp [addPending, bidsOf, hp, hb]
    | some bids => simp [addPending, bidsOf, hp, hb]

theorem bidsOf_clear (blockNumber : UInt64) : (b.clear blockNumber).bidsOf number builder =
    if number = blockNumber then none else b.bidsOf number builder := by
  by_cases h : number = blockNumber <;> simp [bidsOf, clear, h]

end BidSimulator

/-- What takes the lock: a submission that checks or adds its bid, or a chain head. -/
inductive BidEvent
  | check (submission : ℕ)
  | add (submission : ℕ)
  | head (blockNumber : UInt64)
  deriving DecidableEq

/-- The simulator, and the submissions that passed the check and did not add their bid yet. -/
structure Submissions where
  simulator : BidSimulator
  passed : List ℕ

open BidSimulator

namespace Submissions

def start (maxBidsPerBuilder : UInt32) : Submissions := ⟨⟨fun _ => none, maxBidsPerBuilder⟩, []⟩

section Steps

variable (bid : ℕ → Bid) (s : Submissions)

def step : BidEvent → Option Submissions
  | .check i =>
    let checked := s.simulator.checkPending (bid i)
    some ⟨checked.2, if checked.1.isNone then i :: s.passed else s.passed⟩
  | .add i => (s.simulator.addPending (bid i)).map (⟨·, s.passed.erase i⟩)
  | .head number => some { s with simulator := s.simulator.clear number }

/-- Every submission adds its bid in a state that meets `P`. -/
def Along (P : Submissions → ℕ → Prop) : Submissions → List BidEvent → Prop
  | _, [] => True
  | s, e :: es => (∀ i, e = .add i → P s i) ∧ ∀ s' ∈ s.step bid e, Along P s' es

/-- Only submissions whose check has passed add their bid. -/
def Interleaves : Submissions → List BidEvent → Prop := Along bid fun s i => i ∈ s.passed

/-- The maps of the bid of `i` are deleted, or another bid is added to them. -/
def Disturbs (i : ℕ) : BidEvent → Prop
  | .check _ => False
  | .add j => (bid i).blockNumber = (bid j).blockNumber ∧ (bid i).builder = (bid j).builder ∧
      (bid i).hash ≠ (bid j).hash
  | .head number => (bid i).blockNumber = number

/-- Nothing disturbs a submission between its check and its add. -/
def Undisturbed (events : List BidEvent) : Prop :=
  ∀ i e, Disturbs bid i e → ¬ [.check i, e, .add i] <+ events

/-- No step panics, and no builder ever has too many bids. -/
def Safe : Submissions → List BidEvent → Prop
  | s, [] => s.simulator.Bounded
  | s, e :: es => s.simulator.Bounded ∧ ∃ s' ∈ s.step bid e, Safe s' es

end Steps

variable {bid : ℕ → Bid} {s s' : Submissions} {e : BidEvent} {es : List BidEvent}

/-! ## Where bids are admitted -/

theorem bounded_step (h : s.simulator.Bounded)
    (hadmits : ∀ i, e = .add i → s.simulator.Admits (bid i)) :
    ∃ s' ∈ s.step bid e, s'.simulator.Bounded := by
  cases e with
  | check i =>
    refine ⟨_, rfl, fun number builder bids hbids => ?_⟩
    change (s.simulator.checkPending (bid i)).2.bidsOf number builder = some bids at hbids
    rw [bidsOf_checkPending] at hbids
    split_ifs at hbids
    · change bids.card ≤ s.simulator.maxBidsPerBuilder.toNat
      cases hold : s.simulator.bidsOf number builder with
      | none => simp [← Option.some.inj hbids, hold]
      | some old => simpa [← Option.some.inj hbids, hold] using h number builder old hold
    · exact h number builder bids hbids
  | head blockNumber =>
    refine ⟨_, rfl, fun number builder bids hbids => ?_⟩
    rw [mem_def, bidsOf_clear] at hbids
    split_ifs at hbids
    exact h number builder bids hbids
  | add i =>
    obtain ⟨bids, hbids, hroom⟩ := hadmits i rfl
    obtain ⟨builders, hbuilders, -⟩ := bind_eq_some_iff.mp hbids
    have hadd := addPending_eq_some.mpr ⟨builders, hbuilders, bids, hbids, rfl⟩
    refine ⟨_, by rw [step, hadd]; rfl, fun number builder bids' hbids' => ?_⟩
    rw [mem_def, bidsOf_setBids _ (by rw [hbuilders]; rfl)] at hbids'
    split_ifs at hbids' with heq
    · obtain rfl := Option.some.inj hbids'
      rcases hroom with hmem | hlt
      · rw [Finset.insert_eq_of_mem hmem]
        exact h _ _ bids hbids
      · exact (Finset.card_insert_le _ _).trans hlt
    · exact h number builder bids' hbids'

theorem safe_of_along (h : s.simulator.Bounded)
    (hadmits : Along bid (fun s i => s.simulator.Admits (bid i)) s es) : Safe bid s es := by
  induction es generalizing s with
  | nil => exact h
  | cons e es ih =>
    obtain ⟨s', hstep, hbounded⟩ := bounded_step h hadmits.1
    exact ⟨h, s', hstep, ih hbounded (hadmits.2 s' hstep)⟩

/-! ## Undisturbed submissions -/

theorem admits_step {i : ℕ} (hstep : s.step bid e = some s') (hquiet : ¬ Disturbs bid i e)
    (h : s.simulator.Admits (bid i)) : s'.simulator.Admits (bid i) := by
  obtain ⟨bids, hbids, hroom⟩ := h
  cases e with
  | check j =>
    obtain rfl := Option.some.inj hstep
    refine ⟨bids, ?_, hroom⟩
    change (s.simulator.checkPending (bid j)).2.bidsOf _ _ = some bids
    rw [bidsOf_checkPending, mem_def.mp hbids]
    exact ite_self _
  | head number =>
    obtain rfl := Option.some.inj hstep
    refine ⟨bids, ?_, hroom⟩
    exact bidsOf_clear _ ▸ (if_neg hquiet).trans hbids
  | add j =>
    obtain ⟨b, hadd, rfl⟩ := map_eq_some_iff.mp hstep
    obtain ⟨builders, hbuilders, old, hold, rfl⟩ := addPending_eq_some.mp hadd
    have hset : (s.simulator.setBids (bid j) builders (insert (bid j).hash old)).bidsOf
        (bid i).blockNumber (bid i).builder = _ := bidsOf_setBids _ (by rw [hbuilders]; rfl)
    split_ifs at hset with hsame
    · -- the same bid once more
      have hhash : (bid i).hash = (bid j).hash :=
        not_not.mp fun hne => hquiet ⟨hsame.1, hsame.2, hne⟩
      exact ⟨_, hset, .inl (hhash ▸ Finset.mem_insert_self _ _)⟩
    · exact ⟨bids, hset.trans hbids, hroom⟩

theorem admits_check {i : ℕ} (hpassed : (s.simulator.checkPending (bid i)).1 = none) :
    (s.simulator.checkPending (bid i)).2.Admits (bid i) :=
  ⟨_, bidsOf_checkPending.trans (if_pos ⟨rfl, rfl⟩), .inr (checkPending_none hpassed)⟩

/-- The bids of the submissions that have passed and were not disturbed are admitted. -/
def Waiting (bid : ℕ → Bid) (before : List BidEvent) (s : Submissions) : Prop :=
  ∀ i ∈ s.passed, .check i ∈ before ∧
    ((∀ e, Disturbs bid i e → ¬ [.check i, e] <+ before) → s.simulator.Admits (bid i))

theorem Waiting.next {before : List BidEvent} (h : Waiting bid before s)
    (hstep : s.step bid e = some s') : Waiting bid (before ++ [e]) s' := by
  have hkeep : ∀ i ∈ s.passed, .check i ∈ before ++ [e] ∧
      ((∀ e', Disturbs bid i e' → ¬ [.check i, e'] <+ before ++ [e]) →
        s'.simulator.Admits (bid i)) := by
    intro i hi
    obtain ⟨hchecked, hadmits⟩ := h i hi
    refine ⟨mem_append_left _ hchecked, fun hquiet => admits_step hstep (fun he => ?_) (hadmits ?_)⟩
    · exact hquiet e he ((singleton_sublist.mpr hchecked).append (Sublist.refl [e]))
    · exact fun e' he' hsub => hquiet e' he' (hsub.trans (sublist_append_left _ _))
  intro i hi
  cases e with
  | check j =>
    obtain rfl := Option.some.inj hstep
    dsimp only at hi
    split_ifs at hi with hpassed
    · rcases mem_cons.mp hi with rfl | hi
      · exact ⟨mem_append_right _ mem_cons_self,
          fun _ => admits_check (isNone_iff_eq_none.mp hpassed)⟩
      · exact hkeep i hi
    · exact hkeep i hi
  | head number =>
    obtain rfl := Option.some.inj hstep
    exact hkeep i hi
  | add j =>
    obtain ⟨b, -, rfl⟩ := map_eq_some_iff.mp hstep
    exact hkeep i (mem_of_mem_erase hi)

theorem Waiting.along {before : List BidEvent} (h : Waiting bid before s)
    (hquiet : Undisturbed bid (before ++ es)) (hruns : Interleaves bid s es) :
    Along bid (fun s i => s.simulator.Admits (bid i)) s es := by
  induction es generalizing before s with
  | nil => trivial
  | cons e es ih =>
    refine ⟨fun i he => ?_, fun s' hstep => ?_⟩
    · refine (h i (hruns.1 i he)).2 fun e' he' hsub => hquiet i e' he' ?_
      rw [he]
      exact hsub.append (singleton_sublist.mpr mem_cons_self)
    · exact ih (h.next hstep) (by rwa [append_assoc]) (hruns.2 s' hstep)

/-- Whatever the order of the steps, no step panics and no builder ever has too many bids, as long
as nothing disturbs a submission between its check and its add. -/
theorem bid_admission_safe (bid : ℕ → Bid) (maxBidsPerBuilder : UInt32) (events : List BidEvent)
    (hruns : Interleaves bid (start maxBidsPerBuilder) events)
    (hquiet : Undisturbed bid events) : Safe bid (start maxBidsPerBuilder) events := by
  have hwaiting : Waiting bid [] (start maxBidsPerBuilder) := by simp [Waiting, start]
  refine safe_of_along ?_ (hwaiting.along hquiet hruns)
  simp [start, Bounded, bidsOf]

/-- One bid is allowed: the second submission passes as well but does not add its bid, the third one
is refused, and the fourth one is admitted after a head. -/
theorem bid_admission_safe_refused :
    let bid (i : ℕ) : Bid := ⟨7, default, .ofBytes 32 [.ofNat i]⟩
    let events : List BidEvent :=
      [.check 1, .check 2, .add 1, .check 3, .head 7, .check 4, .add 4]
    (events.foldlM (step bid) (start 1)).map passed = some [2] ∧ Safe bid (start 1) events := by
  intro bid events
  refine ⟨rfl, bid_admission_safe bid 1 events ?_ fun i e he hsub => ?_⟩
  · simp [Interleaves, Along, events, step, checkPending, start, setBids, addPending, clear, bid]
  · have hi : .add i ∈ events := hsub.subset (by simp)
    have hmem : e ∈ events := hsub.subset (by simp)
    cases e with
    | check j => exact he
    | head number =>
      obtain rfl : number = 7 := by simpa [events] using hmem
      obtain rfl | rfl : i = 1 ∨ i = 4 := by simpa [events] using hi
      all_goals exact absurd hsub (by decide)
    | add j =>
      obtain rfl | rfl : i = 1 ∨ i = 4 := by simpa [events] using hi
      all_goals
        obtain rfl | rfl : j = 1 ∨ j = 4 := by simpa [events] using hmem
        all_goals exact absurd hsub (by decide)

/-- A head between check and add, and two checks before the adds, with one bid allowed. -/
theorem bid_admission_unsafe :
    let bid (i : ℕ) : Bid := ⟨7, default, .ofBytes 32 [.ofNat i]⟩
    let cleared : List BidEvent := [.check 1, .head 7, .add 1]
    let crowded : List BidEvent := [.check 1, .check 2, .add 1, .add 2]
    (Interleaves bid (start 1) cleared ∧ cleared.foldlM (step bid) (start 1) = none) ∧
      Interleaves bid (start 1) crowded ∧
        ∃ s ∈ crowded.foldlM (step bid) (start 1), ¬ s.simulator.Bounded := by
  intro bid cleared crowded
  refine ⟨⟨?_, ?_⟩, ?_, ?_⟩
  · simp [Interleaves, Along, cleared, step, checkPending, start]
  · rfl
  · simp [Interleaves, Along, crowded, step, checkPending, start, setBids,
      addPending, bid]
  · refine ⟨_, rfl, fun h => ?_⟩
    have := h 7 default _ rfl
    revert this
    decide

end Submissions

end ChilizChain
