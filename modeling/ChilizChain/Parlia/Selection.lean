import ChilizChain.Parlia.Snapshot

/-! Who is in turn. Round robin always names a validator of the snapshot. The frequency data
divide `[0, validatorFrequencyPrecision)` into consecutive shares, one for each candidate in
ascending order of address, and the digest of the block number falls into one of them; nothing
compares the candidates with the validator set. -/

namespace ChilizChain

open Bytes List

namespace CandidateEntry

/-! ## Shares -/

def total (candidates : List CandidateEntry) : ℕ := (candidates.map frequency).sum

@[simp] theorem total_nil : total [] = 0 := rfl

@[simp] theorem total_cons (entry : CandidateEntry) (rest : List CandidateEntry) :
    total (entry :: rest) = entry.frequency + total rest := rfl

/-- The share of `entry` contains `target`; the last candidate also owns what lies beyond all
shares. `cumulative` is the left end of the first share. -/
def Owns (target cumulative : ℕ) (candidates : List CandidateEntry) (entry : CandidateEntry) :
    Prop :=
  ∃ before after, candidates = before ++ entry :: after ∧ cumulative + total before ≤ target ∧
    (target < cumulative + total before + entry.frequency ∨ after = [])

variable {target : ℕ}

theorem exists_owns : ∀ {candidates : List CandidateEntry} {cumulative : ℕ},
    candidates ≠ [] → cumulative ≤ target → ∃ entry, Owns target cumulative candidates entry
  | [], _, hne, _ => absurd rfl hne
  | entry :: rest, cumulative, _, hle => by
    by_cases hown : target < cumulative + entry.frequency ∨ rest = []
    · exact ⟨entry, [], rest, rfl, by simpa using hle, by simpa using hown⟩
    · rw [not_or, Nat.not_lt] at hown
      obtain ⟨owner, before, after, hsplit, hlow, hhigh⟩ := exists_owns hown.2 hown.1
      refine ⟨owner, entry :: before, after, by rw [hsplit, cons_append], ?_, ?_⟩
      · rw [total_cons]
        omega
      · rw [total_cons]
        exact hhigh.imp_left (by omega)

variable {candidates : List CandidateEntry} {entry : CandidateEntry}

theorem Owns.mem {cumulative : ℕ} (h : Owns target cumulative candidates entry) :
    entry ∈ candidates := by
  obtain ⟨before, after, rfl, -⟩ := h
  simp

theorem pick_eq_of_owns {cumulative : ℕ} (last : Address)
    (h : Owns target cumulative candidates entry) :
    pick target cumulative last candidates = entry.address := by
  obtain ⟨before, after, rfl, hlow, hhigh⟩ := h
  induction before generalizing cumulative last with
  | nil =>
    rw [total_nil, Nat.add_zero] at hhigh
    rw [nil_append, pick]
    split_ifs with hlt
    · rfl
    · rw [hhigh.resolve_left hlt]
      rfl
  | cons first before ih =>
    rw [total_cons] at hlow hhigh
    rw [cons_append, pick, if_neg (by omega)]
    apply ih
    · omega
    · exact hhigh.imp_left fun hlt => by omega

/-- Some target below the precision selects `entry`: its share starts below the precision, and it
is not empty unless `entry` is the last candidate. -/
def CanBeDrawn (candidates : List CandidateEntry) (entry : CandidateEntry) : Prop :=
  ∃ before after, candidates = before ++ entry :: after ∧
    total before < validatorFrequencyPrecision ∧ (0 < entry.frequency ∨ after = [])

theorem canBeDrawn_iff : CanBeDrawn candidates entry ↔
      ∃ target < validatorFrequencyPrecision, Owns target 0 candidates entry := by
  constructor
  · rintro ⟨before, after, hsplit, hlow, hshare⟩
    exact ⟨total before, hlow, before, after, hsplit, by omega, hshare.imp_left (by omega)⟩
  · rintro ⟨target, hlt, before, after, hsplit, hlow, hhigh⟩
    exact ⟨before, after, hsplit, by omega, hhigh.imp_left (by omega)⟩

theorem CanBeDrawn.mem (h : CanBeDrawn candidates entry) : entry ∈ candidates := by
  obtain ⟨target, -, hown⟩ := canBeDrawn_iff.mp h
  exact hown.mem

/-- The candidates in the order of their addresses. -/
def ascending (candidates : List CandidateEntry) : List CandidateEntry :=
  candidates.insertionSort fun a b => (compare a.address b.address).isLE = true

end CandidateEntry

namespace Snapshot

open CandidateEntry

variable {k : Crypto} {s : Snapshot}

/-- The candidates that the frequency data announce. -/
def candidates (freqRLP : Bytes) : List CandidateEntry :=
  match Rlp.decodeExact (Rlp.decodeSlice CandidateEntry.decode) freqRLP with
  | .error _ => []
  | .ok entries => ascending entries

/-- The point of `[0, validatorFrequencyPrecision)` that the next block number is mapped to. -/
def drawnTarget (k : Crypto) (s : Snapshot) : ℕ :=
  beNat (k.sha256 (leBytes 8 (s.number + 1))).bytes % validatorFrequencyPrecision

theorem candidates_nil : candidates [] = [] := by decide

/-! ## What the selection returns -/

theorem selectValidatorRoundRobin_mem (hvalidators : s.validators ≠ ∅) (hturn : s.turnLength ≠ 0) :
    ∃ validator ∈ s.validators, s.selectValidatorRoundRobin = .ok validator := by
  have hlength : 0 < s.validatorList.length := by
    rw [List.length_pos_iff, validatorList, Ne, ← List.isEmpty_iff,
      Std.ExtTreeMap.isEmpty_keys, Std.ExtTreeMap.isEmpty_iff]
    exact hvalidators
  have hlt := Nat.mod_lt (add64 s.number 1 / s.turnLength) hlength
  refine ⟨s.validatorList[add64 s.number 1 / s.turnLength % s.validatorList.length], ?_, ?_⟩
  · exact Std.ExtTreeMap.mem_keys.mp (getElem_mem hlt)
  · rw [selectValidatorRoundRobin, if_neg hturn, getElem?_eq_getElem hlt]
    rfl

theorem inturnValidator_of_not_fork (h : s.number = 0 ∨ s.isSnake8Fork = false) :
    s.inturnValidator k = s.selectValidatorRoundRobin := by
  rw [inturnValidator, if_pos (by simpa using h)]

theorem selectValidatorFromFrequencyRLP_eq (k : Crypto) (s : Snapshot) (freqRLP : Bytes) :
    (candidates freqRLP = [] ∧
      s.selectValidatorFromFrequencyRLP k freqRLP = s.selectValidatorRoundRobin) ∨
    ∃ entry, Owns (drawnTarget k s) 0 (candidates freqRLP) entry ∧
      s.selectValidatorFromFrequencyRLP k freqRLP = .ok entry.address := by
  unfold selectValidatorFromFrequencyRLP candidates
  cases Rlp.decodeExact (Rlp.decodeSlice CandidateEntry.decode) freqRLP with
  | error e => exact .inl ⟨rfl, rfl⟩
  | ok entries =>
    dsimp only
    cases hsorted : entries.insertionSort
        (fun a b => (compare a.address b.address).isLE = true) with
    | nil => exact .inl ⟨hsorted, rfl⟩
    | cons first rest =>
      rw [ascending, hsorted]
      obtain ⟨entry, hown⟩ : ∃ entry, Owns (drawnTarget k s) 0 (first :: rest) entry :=
        exists_owns (cons_ne_nil first rest) (Nat.zero_le _)
      exact .inr ⟨entry, hown, congrArg Except.ok (pick_eq_of_owns first.address hown)⟩

/-- After the fork the owner of the drawn target is in turn, and round robin decides when there
are no candidates. -/
theorem inturnValidator_of_fork (hnumber : s.number ≠ 0) (hfork : s.isSnake8Fork = true) :
    (candidates s.frequencyRLP = [] ∧ s.inturnValidator k = s.selectValidatorRoundRobin) ∨
    ∃ entry, Owns (drawnTarget k s) 0 (candidates s.frequencyRLP) entry ∧
      s.inturnValidator k = .ok entry.address := by
  rw [inturnValidator, if_neg (by simp [hnumber, hfork])]
  split_ifs with hempty
  · exact .inl ⟨by rw [hempty]; exact candidates_nil, rfl⟩
  · exact selectValidatorFromFrequencyRLP_eq k s s.frequencyRLP

/-- A digest whose number is `target`. -/
def digestOf (target : ℕ) : Hash := ⟨(leBytes 32 target).reverse, by simp⟩

theorem beNat_digestOf {target : ℕ} (h : target < 256 ^ 32) :
    beNat (digestOf target).bytes = target := by
  rw [digestOf, beNat, reverse_reverse]
  exact leNat_leBytes 32 target h

/-- **Who can be in turn.** Whatever the block number and the digest function, a validator of the
snapshot is in turn, if and only if the turn length is not zero and, after the fork, every
candidate of the frequency data that can be drawn is a validator. -/
theorem inturnValidator_mem_iff (s : Snapshot) (hvalidators : s.validators ≠ ∅) :
    (∀ (k : Crypto) (number : ℕ), ∃ validator ∈ s.validators,
      { s with number := number }.inturnValidator k = .ok validator) ↔
    s.turnLength ≠ 0 ∧ (s.isSnake8Fork = true →
      ∀ entry, CanBeDrawn (candidates s.frequencyRLP) entry → entry.address ∈ s.validators) := by
  constructor
  · intro h
    refine ⟨fun hzero => ?_, fun hfork entry hdrawn => ?_⟩
    · -- block zero is decided by round robin, which divides by the turn length
      obtain ⟨validator, -, hturn⟩ := h default 0
      rw [inturnValidator_of_not_fork (.inl rfl), selectValidatorRoundRobin, if_pos hzero] at hturn
      cases hturn
    · obtain ⟨target, hlt, hown⟩ := canBeDrawn_iff.mp hdrawn
      let k : Crypto := { (default : Crypto) with sha256 := fun _ => digestOf target }
      have htarget : drawnTarget k { s with number := 1 } = target := by
        show beNat (digestOf target).bytes % validatorFrequencyPrecision = target
        rw [beNat_digestOf (hlt.trans (by decide)), Nat.mod_eq_of_lt hlt]
      obtain ⟨validator, hmem, hturn⟩ := h k 1
      obtain ⟨hnone, -⟩ | ⟨owner, howner, heq⟩ :=
        inturnValidator_of_fork (k := k) (s := { s with number := 1 }) Nat.one_ne_zero hfork
      · obtain ⟨before, after, hsplit, -⟩ := hown
        rw [show candidates s.frequencyRLP = [] from hnone] at hsplit
        simp at hsplit
      · rw [htarget] at howner
        have haddress : owner.address = entry.address := by
          rw [← pick_eq_of_owns default hown, ← pick_eq_of_owns default howner]
        rw [heq, Except.ok.injEq, haddress] at hturn
        rw [hturn]
        exact hmem
  · rintro ⟨hturn, hdrawn⟩ k number
    have hrobin := selectValidatorRoundRobin_mem
      (s := { s with number := number }) hvalidators hturn
    by_cases hround : number = 0 ∨ s.isSnake8Fork = false
    · rw [inturnValidator_of_not_fork hround]
      exact hrobin
    · rw [not_or, Bool.not_eq_false] at hround
      obtain ⟨-, heq⟩ | ⟨owner, howner, heq⟩ :=
        inturnValidator_of_fork (k := k) (s := { s with number := number }) hround.1 hround.2
      · rw [heq]
        exact hrobin
      · refine ⟨owner.address, hdrawn hround.2 owner (canBeDrawn_iff.mpr ⟨_, ?_, howner⟩), heq⟩
        exact Nat.mod_lt _ (by decide)

/-- A snapshot with the single validator `validator` and frequency data for `candidate` alone. -/
def sole (validator candidate : Address) : Snapshot :=
  { newSnapshot default 1 default [validator] [] true with
    frequencyRLP := Rlp.encodeList
      (CandidateEntry.encode ⟨candidate, validatorFrequencyPrecision⟩) }

/-- A validator that is its own only candidate is in turn. -/
theorem inturnValidator_mem_iff_sole :
    (sole (.ofBytes 20 [1]) (.ofBytes 20 [1])).validators ≠ ∅ ∧
    ∀ (k : Crypto) (number : ℕ),
      ∃ validator ∈ (sole (.ofBytes 20 [1]) (.ofBytes 20 [1])).validators,
        { sole (.ofBytes 20 [1]) (.ofBytes 20 [1]) with number := number }.inturnValidator k =
          .ok validator := by
  have hvalidators : (sole (.ofBytes 20 [1]) (.ofBytes 20 [1])).validators ≠ ∅ := by
    decide
  refine ⟨hvalidators, (inturnValidator_mem_iff _ hvalidators).mpr
    ⟨by decide, fun _ entry hdrawn => ?_⟩⟩
  have hcandidates : candidates (sole (.ofBytes 20 [1]) (.ofBytes 20 [1])).frequencyRLP =
      [⟨.ofBytes 20 [1], validatorFrequencyPrecision⟩] := by decide
  rw [hcandidates] at hdrawn
  obtain rfl := List.mem_singleton.mp hdrawn.mem
  decide

/-- A producer that puts a single address with the whole frequency into its header makes it the
in-turn proposer, whatever the digest: here one that is no validator. -/
theorem stranger_in_turn : (sole (.ofBytes 20 [1]) (.ofBytes 20 [2])).validators ≠ ∅ ∧
    .ofBytes 20 [2] ∉ (sole (.ofBytes 20 [1]) (.ofBytes 20 [2])).validators ∧
    ∀ k : Crypto, (sole (.ofBytes 20 [1]) (.ofBytes 20 [2])).inturnValidator k =
      .ok (.ofBytes 20 [2]) := by
  refine ⟨by decide, by decide, fun k => ?_⟩
  have hcandidates : candidates (sole (.ofBytes 20 [1]) (.ofBytes 20 [2])).frequencyRLP =
      [⟨.ofBytes 20 [2], validatorFrequencyPrecision⟩] := by decide
  obtain ⟨hnone, -⟩ | ⟨owner, howner, hturn⟩ := inturnValidator_of_fork (k := k)
    (s := sole (.ofBytes 20 [1]) (.ofBytes 20 [2])) Nat.one_ne_zero rfl
  · rw [hcandidates] at hnone
    cases hnone
  · rw [hcandidates] at howner
    obtain rfl := List.mem_singleton.mp howner.mem
    exact hturn

end Snapshot

end ChilizChain
