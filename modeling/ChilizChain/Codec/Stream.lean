import ChilizChain.Lib.RlpTree
import ChilizChain.Lib.Stateful

/-! # The stream decoder

`Stream` reads values piecemeal from a reader. It keeps the sizes of the lists it is inside of,
the number of bytes it may still read, and the kind and size of the value ahead once they were
asked for. Sizes are `uint64`; the one subtraction that is not guarded by a comparison is the one
in `list`, and it may wrap.

The effect of every step is told by `Moved`: which bytes it took from the reader, and how that
shows in the limits. -/

namespace ChilizChain.Codec

open Bytes Stateful List Option Rlp Nat

/-! ## Model -/

inductive StreamError
  | eof
  | unexpectedEOF
  | eol
  | elemTooLarge
  | valueTooLarge
  | canonSize
  | expectedList
  | expectedString
  | notInList
  | notAtEOL
  | moreThanOneValue
  | outOfFuel
deriving DecidableEq, Repr

inductive Kind
  | byte
  | string
  | list
deriving DecidableEq, Repr

structure Stream where
  /-- What the reader has not handed out yet. -/
  r : Bytes
  remaining : ℕ
  size : ℕ
  kinderr : Option StreamError
  /-- The list sizes, the innermost list first. -/
  stack : List ℕ
  /-- No kind stands for the value -1. -/
  kind : Option Kind
  byteval : UInt8
  limited : Bool

abbrev StreamM := Stateful Stream StreamError

/-- Subtraction of `uint64`. -/
def sub64 (a b : ℕ) : ℕ := (a + (2 ^ 64 - b % 2 ^ 64)) % 2 ^ 64

/-- Take bytes off the innermost list. -/
def lower (stack : List ℕ) (n : ℕ) : List ℕ :=
  match stack with
  | [] => []
  | limit :: outer => sub64 limit n :: outer

/-- `Reset` for a reader over the bytes `r`. Some readers tell their length (`sized`), which is
then the limit unless one is given. -/
def reset (r : Bytes) (inputLimit : ℕ) (sized : Bool) : Stream where
  r := r
  remaining := if 0 < inputLimit then inputLimit else if sized then r.length else 0
  limited := 0 < inputLimit || sized
  stack := []
  size := 0
  kind := none
  kinderr := none
  byteval := 0

def rearm : StreamM Unit := modify fun s => { s with kind := none }

def listLimit : StreamM (Option ℕ) := return (← get).stack.head?

def willRead (n : ℕ) : StreamM Unit := do
  rearm
  match ← listLimit with
  | none => pure ()
  | some limit =>
    if limit < n then throw .elemTooLarge
    else modify fun s => { s with stack := lower s.stack n }
  let s ← get
  if s.limited then
    if s.remaining < n then throw .valueTooLarge
    else set { s with remaining := s.remaining - n }

def readFull (n : ℕ) : StreamM Bytes := do
  willRead n
  let s ← get
  set { s with r := s.r.drop n }
  if s.r.length < n then throw .unexpectedEOF
  else return s.r.take n

def readByte : StreamM UInt8 := do
  willRead 1
  let s ← get
  match s.r with
  | [] => throw .unexpectedEOF
  | b :: rest =>
    set { s with r := rest }
    return b

/-- A big-endian number of at most eight bytes. -/
def readUint (size : ℕ) : StreamM ℕ := do
  if size = 0 then
    rearm
    return 0
  else if size = 1 then return (← readByte).toNat
  else
    let buffer ← readFull size
    if buffer.head? = some 0 then throw .canonSize
    else return beNat buffer

/-- The two long forms of `readKind`, which return kind and size next to an error. -/
def readLong (kind : Kind) (sizeSize : ℕ) : StreamM (Kind × ℕ × Option StreamError) := do
  match ← attempt (readUint sizeSize) with
  | .error e => return (kind, 0, some e)
  | .ok size => return (kind, size, if size < 56 then some .canonSize else none)

/-- At top level the end of the input is not an error of its own. -/
def atTop (e : StreamError) : StreamError :=
  match e with
  | .unexpectedEOF => .eof
  | .valueTooLarge => .eof
  | e => e

def readKind : StreamM (Kind × ℕ × Option StreamError) := do
  match ← attempt readByte with
  | .error e =>
    let s ← get
    return (.byte, 0, some (if s.stack = [] then atTop e else e))
  | .ok b =>
    modify fun s => { s with byteval := 0 }
    if b.toNat < 0x80 then
      modify fun s => { s with byteval := b }
      return (.byte, 0, none)
    else if b.toNat < 0xB8 then return (.string, b.toNat - 0x80, none)
    else if b.toNat < 0xC0 then readLong .string (b.toNat - 0xB7)
    else if b.toNat < 0xF8 then return (.list, b.toNat - 0xC0, none)
    else readLong .list (b.toNat - 0xF7)

/-- `Kind`. The size of the value ahead is compared with what was left of the list before its
head was read. -/
def kind : StreamM (Kind × ℕ) := do
  let s ← get
  match s.kind with
  | some k =>
    match s.kinderr with
    | some e => throw e
    | none => return (k, s.size)
  | none =>
    let limit ← listLimit
    if limit = some 0 then throw .eol
    else
      let (k, size, err) ← readKind
      let s ← get
      let kinderr :=
        match err with
        | some e => some e
        | none =>
          if limit.any (· < size) then some .elemTooLarge
          else if s.limited && s.remaining < size then some .valueTooLarge
          else none
      set { s with kind := some k, size := size, kinderr := kinderr }
      match kinderr with
      | some e => throw e
      | none => return (k, size)

def bytes : StreamM Bytes := do
  match ← kind with
  | (.byte, _) =>
    let s ← get
    rearm
    return [s.byteval]
  | (.string, size) =>
    let b ← readFull size
    if size = 1 ∧ b.all (·.toNat < 128) then throw .canonSize
    else return b
  | (.list, _) => throw .expectedString

def list : StreamM ℕ := do
  match ← kind with
  | (.list, size) =>
    modify fun s => { s with stack := size :: lower s.stack size, kind := none, size := 0 }
    return size
  | _ => throw .expectedList

def listEnd : StreamM Unit := do
  match ← listLimit with
  | none => throw .notInList
  | some limit =>
    if 0 < limit then throw .notAtEOL
    else modify fun s => { s with stack := s.stack.tail, kind := none, size := 0 }

/-! ## What a step takes from the reader -/

/-- Bytes read from a stream, with the limits lowered by their number. -/
structure Moved (s s' : Stream) (bs : Bytes) : Prop where
  input : s.r = bs ++ s'.r
  stack : s'.stack = lower s.stack bs.length
  limited : s'.limited = s.limited
  remaining : s.limited = true → s.remaining = bs.length + s'.remaining

/-- The limits allow for `n` more bytes. -/
structure Room (s : Stream) (n : ℕ) : Prop where
  stack : ∀ limit ∈ s.stack.head?, n ≤ limit
  remaining : s.limited = true → n ≤ s.remaining

theorem sub64_sub64 (l a b : ℕ) : sub64 (sub64 l a) b = sub64 l (a + b) := by
  simp only [sub64]
  omega

variable {n : ℕ}

theorem sub64_of_le {l : ℕ} (h : n ≤ l) (hl : l < 2 ^ 64) : sub64 l n = l - n := by
  simp only [sub64]
  omega

/-- A size is used up only by as many bytes: fewer than `2 ^ 64` cannot wrap around to zero. -/
theorem sub64_eq_zero {l : ℕ} (hl : l < 2 ^ 64) (hn : n < 2 ^ 64) (h : sub64 l n = 0) : n = l := by
  simp only [sub64] at h
  omega

theorem lower_lower (stack : List ℕ) (a b : ℕ) : lower (lower stack a) b = lower stack (a + b) := by
  cases stack with
  | nil => rfl
  | cons limit outer => simp [lower, sub64_sub64]

variable {s s' : Stream}

theorem Moved.trans {s'' : Stream} {a b : Bytes} (h : Moved s s' a) (h' : Moved s' s'' b) :
    Moved s s'' (a ++ b) where
  input := by rw [h.input, h'.input, append_assoc]
  stack := by rw [h'.stack, h.stack, lower_lower, length_append]
  limited := h'.limited.trans h.limited
  remaining hl := by
    have h1 := h.remaining hl
    have h2 := h'.remaining (h.limited.trans hl)
    rw [length_append]
    omega

variable {bs : Bytes}

theorem Room.of_moved (hmoved : Moved s s' bs) (hroom : Room s (bs.length + n))
    (hlt : ∀ limit ∈ s.stack.head?, limit < 2 ^ 64) :
    Room s' n where
  stack := by
    rw [hmoved.stack]
    cases hs : s.stack with
    | nil => simp [lower]
    | cons limit outer =>
      have h1 := hroom.stack limit (by simp [hs])
      have h2 := hlt limit (by simp [hs])
      simp only [lower, head?_cons, mem_some_iff, forall_eq']
      rw [sub64_of_le (by omega) h2]
      omega
  remaining hl := by
    have h1 := hmoved.limited ▸ hl
    have h2 := hmoved.remaining h1
    have h3 := hroom.remaining h1
    omega

/-! ## The primitive reads -/

/-- The limits after `willRead`. -/
def Stream.claim (s : Stream) (n : ℕ) : Stream :=
  { s with
    kind := none
    stack := lower s.stack n
    remaining := if s.limited then s.remaining - n else s.remaining }

theorem willRead_ok (h : Room s n) : exec (willRead n) s = (.ok ⟨⟩, s.claim n) := by
  obtain ⟨r, remaining, size, kinderr, stack, kind, byteval, limited⟩ := s
  have hrem := h.remaining
  cases stack with
  | nil =>
    cases limited with
    | false => simp [willRead, rearm, listLimit, exec_bind, Stream.claim, lower]
    | true => simp [willRead, rearm, listLimit, exec_bind, Stream.claim, lower,
      not_lt.mpr (hrem rfl)]
  | cons limit outer =>
    have hlim := h.stack limit (by simp)
    cases limited with
    | false => simp [willRead, rearm, listLimit, exec_bind, Stream.claim, lower, not_lt.mpr hlim]
    | true =>
      simp [willRead, rearm, listLimit, exec_bind, Stream.claim, lower, not_lt.mpr hlim,
        not_lt.mpr (hrem rfl)]

theorem willRead_eq_ok {u : Unit} (h : exec (willRead n) s = (.ok u, s')) :
    Room s n ∧ s' = s.claim n := by
  have hroom : Room s n := by
    obtain ⟨r, remaining, size, kinderr, stack, kind, byteval, limited⟩ := s
    cases stack with
    | nil =>
      cases limited with
      | false => exact ⟨by simp, by simp⟩
      | true =>
        by_cases hlt : remaining < n
        · simp [willRead, rearm, listLimit, exec_bind, hlt] at h
        · exact ⟨by simp, fun _ => not_lt.mp hlt⟩
    | cons limit outer =>
      by_cases hlim : limit < n
      · simp [willRead, rearm, listLimit, exec_bind, hlim] at h
      cases limited with
      | false => exact ⟨by simpa using hlim, by simp⟩
      | true =>
        by_cases hlt : remaining < n
        · simp [willRead, rearm, listLimit, exec_bind, hlim, hlt] at h
        · exact ⟨by simpa using hlim, fun _ => not_lt.mp hlt⟩
  refine ⟨hroom, ?_⟩
  rw [willRead_ok hroom] at h
  exact (Prod.mk.inj h).2.symm

/-- The stream after `n` bytes were handed out. -/
def Stream.advance (s : Stream) (n : ℕ) : Stream := { s.claim n with r := s.r.drop n }

theorem moved_advance (hroom : Room s n) (hlen : n ≤ s.r.length) :
    Moved s (s.advance n) (s.r.take n) where
  input := by simp [Stream.advance]
  stack := by simp [Stream.advance, Stream.claim, min_eq_left hlen]
  limited := rfl
  remaining hl := by
    have := hroom.remaining hl
    simp [Stream.advance, Stream.claim, hl, min_eq_left hlen]
    omega

theorem readFull_ok (hroom : Room s n) (hlen : n ≤ s.r.length) :
    exec (readFull n) s = (.ok (s.r.take n), s.advance n) := by
  rw [readFull, exec_bind_ok (willRead_ok hroom)]
  have hr : ¬ (s.claim n).r.length < n := not_lt.mpr hlen
  simp only [exec_bind, exec_get, exec_set, if_neg hr, exec_pure]
  rfl

theorem readFull_eq_ok (h : exec (readFull n) s = (.ok bs, s')) :
    Room s n ∧ n ≤ s.r.length ∧ bs = s.r.take n ∧ s' = s.advance n := by
  obtain ⟨⟨⟩, s₁, hwill, hrest⟩ := exec_bind_eq_ok h
  obtain ⟨hroom, rfl⟩ := willRead_eq_ok hwill
  have hlen : n ≤ s.r.length := by
    by_contra hlt
    have hr : (s.claim n).r.length < n := not_le.mp hlt
    simp [exec_bind, hr] at hrest
  rw [readFull_ok hroom hlen] at h
  obtain ⟨hbs, hs⟩ := Prod.mk.inj h
  exact ⟨hroom, hlen, (Except.ok.inj hbs).symm, hs.symm⟩

variable {b : UInt8} {rest : Bytes}

theorem readByte_ok (hroom : Room s 1) (hr : s.r = b :: rest) :
    exec readByte s = (.ok b, s.advance 1) := by
  rw [readByte, exec_bind_ok (willRead_ok hroom)]
  have hclaim : (s.claim 1).r = b :: rest := hr
  simp only [exec_bind, exec_get, hclaim, exec_set, exec_pure]
  simp [Stream.advance, hr]

theorem readByte_eq_ok (h : exec readByte s = (.ok b, s')) :
    Room s 1 ∧ (∃ rest, s.r = b :: rest) ∧ s' = s.advance 1 := by
  obtain ⟨⟨⟩, s₁, hwill, hrest⟩ := exec_bind_eq_ok h
  obtain ⟨hroom, rfl⟩ := willRead_eq_ok hwill
  cases hr : s.r with
  | nil =>
    have hclaim : (s.claim 1).r = [] := hr
    simp [exec_bind, hclaim] at hrest
  | cons c rest =>
    rw [readByte_ok hroom hr] at h
    obtain ⟨hb, hs⟩ := Prod.mk.inj h
    obtain rfl := Except.ok.inj hb
    exact ⟨hroom, ⟨rest, rfl⟩, hs.symm⟩

/-! ## Heads -/

/-- The tags of the two kinds with a size: the short form counts from `smallTag`, the long form
from `largeTag`. -/
inductive Tags : Kind → ℕ → ℕ → Prop
  | string : Tags .string 0x80 0xB7
  | list : Tags .list 0xC0 0xF7

theorem Tags.cases (b : UInt8) : b.toNat < 0x80 ∨ ∃ k small large, Tags k small large ∧
      (small ≤ b.toNat ∧ b.toNat < small + 56 ∨ large < b.toNat ∧ b.toNat ≤ large + 8) := by
  have hlt := b.toNat_lt
  by_cases h80 : b.toNat < 0x80
  · exact .inl h80
  refine .inr ?_
  by_cases hC0 : b.toNat < 0xC0
  · exact ⟨_, _, _, .string, by omega⟩
  · exact ⟨_, _, _, .list, by omega⟩

/-- The head of a value in the one form the encoder gives it, with the value itself if it is a
single byte. -/
inductive Head : Kind → ℕ → UInt8 → Bytes → Prop
  | byte (b : UInt8) (h : b.toNat < 0x80) : Head .byte 0 b [b]
  | sized {k : Kind} {smallTag largeTag size : ℕ} (htags : Tags k smallTag largeTag)
      (h : size < 2 ^ 64) : Head k size 0 (Rlp.encodeHead smallTag largeTag size)

theorem ofNat_add_sub {tag : ℕ} (h : tag ≤ b.toNat) : UInt8.ofNat (tag + (b.toNat - tag)) = b := by
  rw [Nat.add_sub_cancel' h, UInt8.ofNat_toNat]

variable {small : ℕ}

theorem encodeHead_short (large : ℕ) (hle : small ≤ b.toNat) (hlt : b.toNat < small + 56) :
    encodeHead small large (b.toNat - small) = [b] := by
  rw [encodeHead, if_pos (by omega), ofNat_add_sub hle]

/-- The size bytes after a tag. -/
structure SizeBytes (n size : ℕ) (bs : Bytes) : Prop where
  length : bs.length = n
  value : beNat bs = size
  lead : bs.head? ≠ some 0
  large : 56 ≤ size

variable {large size : ℕ}

theorem SizeBytes.encodeHead (h : SizeBytes n size bs) (small : ℕ) (hle : large ≤ b.toNat)
    (hn : n = b.toNat - large) : encodeHead small large size = b :: bs := by
  have hlarge := h.large
  rw [← h.value] at hlarge ⊢
  rw [encodeHead_long hlarge h.lead, h.length, hn, ofNat_add_sub hle]

theorem SizeBytes.lt (h : SizeBytes n size bs) (hn : n ≤ 8) : size < 2 ^ 64 := by
  calc size = beNat bs := h.value.symm
    _ < 256 ^ bs.length := beNat_lt bs
    _ ≤ 256 ^ 8 := Nat.pow_le_pow_right (by decide) (h.length.trans_le hn)
    _ = 2 ^ 64 := by norm_num

variable {k : Kind}

theorem encodeHead_of_lt (htags : Tags k small large) (h56 : size < 56) :
    ∃ b, encodeHead small large size = [b] ∧ b.toNat = small + size := by
  refine ⟨_, by rw [encodeHead, if_pos h56], ?_⟩
  simp only [UInt8.toNat_ofNat']
  cases htags <;> omega

theorem encodeHead_of_ge (htags : Tags k small large) (h56 : 56 ≤ size) (h : size < 2 ^ 64) :
    ∃ b bs, encodeHead small large size = b :: bs ∧
      b.toNat = large + bs.length ∧ 1 ≤ bs.length ∧ bs.length ≤ 8 ∧
      SizeBytes bs.length size bs := by
  have h0 : size ≠ 0 := by omega
  have hle : (beBytes size).length ≤ 8 := beBytes_length_le (by norm_num; omega)
  refine ⟨_, _, by rw [encodeHead, if_neg (by omega)], ?_, beBytes_length_pos h0, hle, rfl,
    beNat_beBytes size, ?_, h56⟩
  · simp only [UInt8.toNat_ofNat']
    cases htags <;> omega
  · obtain ⟨b, rest, heq, hb⟩ := beBytes_head h0
    simpa [heq] using hb

theorem readUint_eq_ok (hn : 1 ≤ n) (h56 : 56 ≤ size) (h : exec (readUint n) s = (.ok size, s')) :
    ∃ bs, SizeBytes n size bs ∧ Moved s s' bs ∧ s'.byteval = s.byteval := by
  rw [readUint, if_neg (by omega)] at h
  by_cases h1 : n = 1
  · rw [if_pos h1] at h
    obtain ⟨b, s₁, hread, hrest⟩ := exec_bind_eq_ok h
    obtain ⟨hroom, ⟨rest, hr⟩, rfl⟩ := readByte_eq_ok hread
    rw [exec_pure] at hrest
    obtain ⟨hsize, rfl⟩ := Prod.mk.inj hrest
    obtain rfl := Except.ok.inj hsize
    have hmoved := moved_advance hroom (by simp [hr])
    rw [hr, take_succ_cons, take_zero] at hmoved
    refine ⟨[b], ⟨h1.symm, by simp [beNat], ?_, h56⟩, hmoved, rfl⟩
    rintro ⟨⟩
    exact absurd h56 (by decide)
  · rw [if_neg h1] at h
    obtain ⟨bs, s₁, hread, hrest⟩ := exec_bind_eq_ok h
    obtain ⟨hroom, hlen, rfl, rfl⟩ := readFull_eq_ok hread
    by_cases hzero : (s.r.take n).head? = some 0
    · rw [if_pos hzero] at hrest
      simp at hrest
    · rw [if_neg hzero, exec_pure] at hrest
      obtain ⟨hsize, rfl⟩ := Prod.mk.inj hrest
      exact ⟨_, ⟨by simp [hlen], Except.ok.inj hsize, hzero, h56⟩, moved_advance hroom hlen, rfl⟩

theorem readUint_ok (hn : 1 ≤ n) (hsize : SizeBytes n size bs) (hr : s.r = bs ++ rest)
    (hroom : Room s bs.length) : exec (readUint n) s = (.ok size, s.advance bs.length) := by
  obtain ⟨rfl, rfl, hlead, -⟩ := hsize
  have htake : s.r.take bs.length = bs := by simp [hr]
  rw [readUint, if_neg (by omega)]
  by_cases h1 : bs.length = 1
  · obtain ⟨b, rfl⟩ := length_eq_one_iff.mp h1
    rw [if_pos h1, exec_bind_ok (readByte_ok hroom hr)]
    simp [beNat]
  · rw [if_neg h1, exec_bind_ok (readFull_ok hroom (by simp [hr])), htake, if_neg hlead]
    rfl

theorem readLong_eq_ok {k' : Kind} (hn : 1 ≤ n)
    (h : exec (readLong k n) s = (.ok (k', size, none), s')) :
    k' = k ∧ ∃ bs, SizeBytes n size bs ∧ Moved s s' bs ∧ s'.byteval = s.byteval := by
  rw [readLong, exec_bind, exec_attempt] at h
  rcases hread : exec (readUint n) s with ⟨e | v, s₁⟩
  · simp [hread] at h
  · simp only [hread, exec_pure, Prod.mk.injEq, Except.ok.injEq] at h
    obtain ⟨⟨rfl, rfl, herr⟩, rfl⟩ := h
    have h56 : 56 ≤ v := by
      by_contra hlt
      simp [not_le.mp hlt] at herr
    exact ⟨rfl, readUint_eq_ok hn h56 hread⟩

theorem readLong_ok (k : Kind) (hn : 1 ≤ n) (hsize : SizeBytes n size bs) (hr : s.r = bs ++ rest)
    (hroom : Room s bs.length) :
    exec (readLong k n) s = (.ok (k, size, none), s.advance bs.length) := by
  rw [readLong, exec_bind, exec_attempt, readUint_ok hn hsize hr hroom]
  simp [not_lt.mpr hsize.large]

/-- The value of a single byte in the tag. -/
def Stream.withByte (s : Stream) (b : UInt8) : Stream := { s with byteval := b }

theorem Moved.withByte (h : Moved s s' bs) (b : UInt8) :
    Moved s (s'.withByte b) bs := ⟨h.input, h.stack, h.limited, h.remaining⟩

/-! `readKind` after its first byte, by the three forms of a head. -/

section tag

variable {s : Stream} {b : UInt8} {rest : Bytes} {k : Kind} {small large : ℕ}
variable (hroom : Room s 1) (hr : s.r = b :: rest)
include hroom hr

private theorem exec_readKind : exec readKind s =
      if b.toNat < 0x80 then (.ok (.byte, 0, none), (s.advance 1).withByte b)
      else if b.toNat < 0xB8 then
        (.ok (.string, b.toNat - 0x80, none), (s.advance 1).withByte 0)
      else if b.toNat < 0xC0 then
        exec (readLong .string (b.toNat - 0xB7)) ((s.advance 1).withByte 0)
      else if b.toNat < 0xF8 then
        (.ok (.list, b.toNat - 0xC0, none), (s.advance 1).withByte 0)
      else exec (readLong .list (b.toNat - 0xF7)) ((s.advance 1).withByte 0) := by
  rw [readKind, exec_bind, exec_attempt, readByte_ok hroom hr]
  simp only [exec_bind, exec_modify]
  split_ifs <;> rfl

theorem readKind_byte (h : b.toNat < 0x80) :
    exec readKind s = (.ok (.byte, 0, none), (s.advance 1).withByte b) := by
  rw [exec_readKind hroom hr, if_pos h]

theorem readKind_short (htags : Tags k small large) (hge : small ≤ b.toNat)
    (hlt : b.toNat < small + 56) :
    exec readKind s = (.ok (k, b.toNat - small, none), (s.advance 1).withByte 0) := by
  rw [exec_readKind hroom hr]
  cases htags with
  | string => rw [if_neg (by omega), if_pos (by omega)]
  | list => rw [if_neg (by omega), if_neg (by omega), if_neg (by omega), if_pos (by omega)]

theorem readKind_long (htags : Tags k small large) (hgt : large < b.toNat)
    (hle : b.toNat ≤ large + 8) :
    exec readKind s = exec (readLong k (b.toNat - large)) ((s.advance 1).withByte 0) := by
  rw [exec_readKind hroom hr]
  cases htags with
  | string => rw [if_neg (by omega), if_neg (by omega), if_pos (by omega)]
  | list => rw [if_neg (by omega), if_neg (by omega), if_neg (by omega), if_neg (by omega)]

theorem moved_tag : Moved s (s.advance 1) [b] := by
  simpa [hr] using moved_advance hroom (by simp [hr])

end tag

theorem readKind_eq_ok (h : exec readKind s = (.ok (k, size, none), s')) :
    ∃ hd, Head k size s'.byteval hd ∧ Moved s s' hd := by
  rcases hread : exec readByte s with ⟨e | b, s₁⟩
  · rw [readKind, exec_bind, exec_attempt, hread] at h
    simp only [exec_bind, exec_get, exec_pure] at h
    cases h
  obtain ⟨hroom, ⟨rest, hr⟩, rfl⟩ := readByte_eq_ok hread
  have htag := moved_tag hroom hr
  rcases Tags.cases b with h80 | ⟨kind, small, large, htags, ⟨hge, hlt⟩ | ⟨hgt, hle⟩⟩
  · rw [readKind_byte hroom hr h80] at h
    cases h
    exact ⟨[b], .byte b h80, htag.withByte b⟩
  · rw [readKind_short hroom hr htags hge hlt] at h
    cases h
    refine ⟨_, .sized htags (by omega), ?_⟩
    rw [encodeHead_short large hge hlt]
    exact htag.withByte 0
  · rw [readKind_long hroom hr htags hgt hle] at h
    obtain ⟨rfl, bs, hsize, hmoved, hbyte⟩ := readLong_eq_ok (by omega) h
    have hzero : s'.byteval = 0 := hbyte
    refine ⟨_, hzero ▸ Head.sized htags (hsize.lt (by omega)), ?_⟩
    rw [hsize.encodeHead small hgt.le rfl]
    exact (htag.withByte 0).trans hmoved

theorem Room.mono {m : ℕ} (h : Room s n) (hmn : m ≤ n) : Room s m :=
  ⟨fun l hl => hmn.trans (h.stack l hl), fun hl => hmn.trans (h.remaining hl)⟩

variable {hd : Bytes}

theorem readKind_ok {v : UInt8} (hhead : Head k size v hd) (hr : s.r = hd ++ rest)
    (hroom : Room s hd.length) (hlt : ∀ limit ∈ s.stack.head?, limit < 2 ^ 64) :
    ∃ s', exec readKind s = (.ok (k, size, none), s') ∧ Moved s s' hd ∧ s'.byteval = v := by
  cases hhead with
  | byte b h80 =>
    exact ⟨_, readKind_byte hroom hr h80, (moved_tag hroom hr).withByte _, rfl⟩
  | @sized _ small large _ htags hsize =>
    by_cases h56 : size < 56
    · obtain ⟨b, heq, hb⟩ := encodeHead_of_lt htags h56
      rw [heq] at hr hroom ⊢
      refine ⟨_, ?_, (moved_tag hroom hr).withByte 0, rfl⟩
      rw [readKind_short hroom hr htags (by omega) (by omega), hb, Nat.add_sub_cancel_left]
    · obtain ⟨b, bs, heq, hb, hpos, hle, hbytes⟩ :=
        encodeHead_of_ge htags (not_lt.mp h56) hsize
      rw [heq] at hr hroom ⊢
      have hone : Room s 1 := hroom.mono (by simp)
      have hmoved := (moved_tag hone hr).withByte 0
      have hr' : ((s.advance 1).withByte 0).r = bs ++ rest := by
        simp [Stream.withByte, Stream.advance, hr]
      have hroom' : Room ((s.advance 1).withByte 0) bs.length :=
        .of_moved hmoved (by simpa [add_comm] using hroom) hlt
      have hmore := moved_advance hroom' (by simp [hr'])
      rw [hr', take_left] at hmore
      refine ⟨_, ?_, hmoved.trans hmore, rfl⟩
      rw [readKind_long hone hr htags (by omega) (by omega), hb, Nat.add_sub_cancel_left,
        readLong_ok k hpos hbytes hr' hroom']

/-! ## The value ahead -/

/-- Kind and size of the value ahead are known. -/
structure Ahead (s : Stream) (k : Kind) (size : ℕ) : Prop where
  kind : s.kind = some k
  size : s.size = size
  kinderr : s.kinderr = none

theorem kind_ahead (h : Ahead s k size) : exec kind s = (.ok (k, size), s) := by
  simp only [kind, exec_bind, exec_get, h.kind, h.kinderr, h.size, exec_pure]

theorem kind_eol (harmed : s.kind = none) (hend : s.stack.head? = some 0) :
    exec kind s = (.error .eol, s) := by
  simp only [kind, listLimit, exec_bind, exec_get, harmed, exec_pure, hend, if_pos]
  rfl

theorem head?_ne_of_kind {r : Except StreamError (Kind × ℕ)} (harmed : s.kind = none)
    (h : exec kind s = (r, s')) (hr : r ≠ .error .eol) : s.stack.head? ≠ some 0 := by
  intro hend
  rw [kind_eol harmed hend] at h
  exact hr (Prod.mk.inj h).1.symm

/-- The error that `kind` adds to the one of `readKind`. -/
def sizeError (limit : Option ℕ) (size : ℕ) (s : Stream) : Option StreamError :=
  if limit.any (· < size) then some .elemTooLarge
  else if s.limited && s.remaining < size then some .valueTooLarge
  else none

theorem exec_kind {s₁ : Stream} {err : Option StreamError} (harmed : s.kind = none)
    (hend : s.stack.head? ≠ some 0) (hread : exec readKind s = (.ok (k, size, err), s₁)) :
    exec kind s =
      ((match err.or (sizeError s.stack.head? size s₁) with
        | some e => .error e
        | none => .ok (k, size)),
        { s₁ with
          kind := some k
          size := size
          kinderr := err.or (sizeError s.stack.head? size s₁) }) := by
  simp only [kind, listLimit, exec_bind, exec_get, harmed, exec_pure, if_neg hend, hread, exec_set]
  cases err with
  | some e => rfl
  | none =>
    simp only [none_or, sizeError]
    split_ifs <;> rfl

theorem exec_readKind_fst (s : Stream) : ∃ r s', exec readKind s = (.ok r, s') := by
  have hlong : ∀ k n (t : Stream), ∃ r s', exec (readLong k n) t = (.ok r, s') := by
    intro k n t
    rw [readLong, exec_bind, exec_attempt]
    rcases exec (readUint n) t with ⟨e | v, t'⟩ <;> exact ⟨_, _, rfl⟩
  rcases hread : exec readByte s with ⟨e | b, s₁⟩
  · rw [readKind, exec_bind, exec_attempt, hread]
    exact ⟨_, _, rfl⟩
  obtain ⟨hroom, ⟨rest, hr⟩, rfl⟩ := readByte_eq_ok hread
  rcases Tags.cases b with h80 | ⟨kind, small, large, htags, ⟨hge, hlt⟩ | ⟨hgt, hle⟩⟩
  · exact ⟨_, _, readKind_byte hroom hr h80⟩
  · exact ⟨_, _, readKind_short hroom hr htags hge hlt⟩
  · rw [readKind_long hroom hr htags hgt hle]
    exact hlong ..

theorem kind_eq_ok (harmed : s.kind = none) (h : exec kind s = (.ok (k, size), s')) :
    ∃ hd, Head k size s'.byteval hd ∧ Moved s s' hd ∧ Ahead s' k size := by
  have hend := head?_ne_of_kind harmed h nofun
  obtain ⟨⟨k', size', err⟩, s₁, hread⟩ := exec_readKind_fst s
  rw [exec_kind harmed hend hread] at h
  cases herr : err.or (sizeError s.stack.head? size' s₁) with
  | some e => simp [herr] at h
  | none =>
    simp only [herr, Prod.mk.injEq, Except.ok.injEq] at h
    obtain ⟨⟨rfl, rfl⟩, rfl⟩ := h
    obtain rfl : err = none := by cases err <;> simp_all
    obtain ⟨hd, hhead, hmoved⟩ := readKind_eq_ok hread
    exact ⟨hd, hhead, ⟨hmoved.input, hmoved.stack, hmoved.limited, hmoved.remaining⟩, rfl, rfl, rfl⟩

theorem kind_ok {v : UInt8} (harmed : s.kind = none) (hhead : Head k size v hd)
    (hr : s.r = hd ++ rest) (hroom : Room s (hd.length + size))
    (hlt : ∀ limit ∈ s.stack.head?, limit < 2 ^ 64) :
    ∃ s', exec kind s = (.ok (k, size), s') ∧ Moved s s' hd ∧ Ahead s' k size ∧ s'.byteval = v := by
  have hpos : 0 < hd.length := by
    cases hhead with
    | byte => simp
    | sized => exact encodeHead_length_pos ..
  have hend : s.stack.head? ≠ some 0 := by
    intro h0
    have := hroom.stack 0 h0
    omega
  obtain ⟨s₁, hread, hmoved, hbyte⟩ := readKind_ok hhead hr (hroom.mono (by omega)) hlt
  have hlimit : s.stack.head?.any (fun limit => decide (limit < size)) = false := by
    rw [any_eq_false_iff_get]
    intro hsome
    have := hroom.stack _ (get_mem hsome)
    simp only [decide_eq_false_iff_not]
    omega
  have hremaining : (s₁.limited && decide (s₁.remaining < size)) = false := by
    cases hl : s₁.limited with
    | false => rfl
    | true =>
      have hl' := hmoved.limited ▸ hl
      have h1 := hmoved.remaining hl'
      have h2 := hroom.remaining hl'
      simp only [Bool.true_and, decide_eq_false_iff_not]
      omega
  have herr : sizeError s.stack.head? size s₁ = none := by
    simp [sizeError, hlimit, hremaining]
  have hexec := exec_kind harmed hend hread
  simp only [herr, none_or] at hexec
  exact ⟨_, hexec, ⟨hmoved.input, hmoved.stack, hmoved.limited, hmoved.remaining⟩,
    ⟨rfl, rfl, rfl⟩, hbyte⟩

/-! ## Errors -/

/-- The errors of a read; the end of a list is not among them. -/
def ReadError (e : StreamError) : Prop :=
  e = .elemTooLarge ∨ e = .valueTooLarge ∨ e = .unexpectedEOF ∨ e = .canonSize

theorem willRead_raises (n : ℕ) : Raises ReadError (willRead n) := by
  refine .bind (.update _) fun _ => .bind (.bind .get fun _ => .pure _) fun limit => ?_
  have hrest : Raises ReadError (do
      let s : Stream ← get
      if s.limited then
        if s.remaining < n then throw .valueTooLarge
        else set { s with remaining := s.remaining - n }
      else pure PUnit.unit : StreamM Unit) := by
    refine .bind .get fun s => ?_
    split_ifs
    · exact .throw (.inr (.inl rfl))
    · exact .write _
    · exact .pure _
  cases limit with
  | none => exact hrest
  | some limit =>
    by_cases h : limit < n
    · simp only [if_pos h]
      exact .bind (.throw (.inl rfl)) fun _ => hrest
    · simp only [if_neg h]
      exact .bind (.update _) fun _ => hrest

theorem readFull_raises (n : ℕ) : Raises ReadError (readFull n) := by
  refine .bind (willRead_raises n) fun _ => .bind .get fun s => .bind (.write _) fun _ => ?_
  split_ifs
  · exact .throw (.inr (.inr (.inl rfl)))
  · exact .pure _

theorem readByte_raises : Raises ReadError readByte := by
  refine .bind (willRead_raises 1) fun _ => .bind .get fun s => ?_
  cases s.r with
  | nil => exact .throw (.inr (.inr (.inl rfl)))
  | cons b rest => exact .bind (.write _) fun _ => .pure _

theorem readUint_raises (n : ℕ) : Raises ReadError (readUint n) := by
  rw [readUint]
  split_ifs
  · exact .bind (.update _) fun _ => .pure _
  · exact .bind readByte_raises fun _ => .pure _
  · refine .bind (readFull_raises n) fun bs => ?_
    split_ifs
    · exact .throw (.inr (.inr (.inr rfl)))
    · exact .pure _

theorem readLong_error {k' : Kind} {e : StreamError}
    (h : exec (readLong k n) s = (.ok (k', size, some e), s')) : ReadError e := by
  rw [readLong, exec_bind, exec_attempt] at h
  rcases hread : exec (readUint n) s with ⟨e' | v, s₁⟩
  · simp only [hread, exec_pure, Prod.mk.injEq, Except.ok.injEq, Option.some.injEq] at h
    exact h.1.2.2 ▸ readUint_raises n _ _ _ hread
  · simp only [hread, exec_pure, Prod.mk.injEq, Except.ok.injEq] at h
    obtain ⟨⟨-, -, herr⟩, -⟩ := h
    split_ifs at herr
    exact .inr (.inr (.inr (Option.some.inj herr).symm))

theorem readKind_error {e : StreamError} (h : exec readKind s = (.ok (k, size, some e), s')) :
    ReadError e ∨ e = .eof ∧ ¬ (Room s 1 ∧ s.r ≠ []) := by
  rcases hread : exec readByte s with ⟨e' | b, s₁⟩
  · have hnot : ¬ (Room s 1 ∧ s.r ≠ []) := by
      rintro ⟨hroom, hne⟩
      obtain ⟨b, rest, hr⟩ := exists_cons_of_ne_nil hne
      rw [readByte_ok hroom hr] at hread
      cases hread
    have hraised := readByte_raises _ _ _ hread
    rw [readKind, exec_bind, exec_attempt, hread] at h
    simp only [exec_bind, exec_get, exec_pure, Prod.mk.injEq, Except.ok.injEq,
      Option.some.injEq] at h
    obtain ⟨⟨-, -, rfl⟩, -⟩ := h
    split_ifs
    · rcases hraised with rfl | rfl | rfl | rfl
      · exact .inl (.inl rfl)
      · exact .inr ⟨rfl, hnot⟩
      · exact .inr ⟨rfl, hnot⟩
      · exact .inl (.inr (.inr (.inr rfl)))
    · exact .inl hraised
  obtain ⟨hroom, ⟨rest, hr⟩, rfl⟩ := readByte_eq_ok hread
  refine .inl ?_
  rcases Tags.cases b with h80 | ⟨kind, small, large, htags, ⟨hge, hlt⟩ | ⟨hgt, hle⟩⟩
  · rw [readKind_byte hroom hr h80] at h
    cases h
  · rw [readKind_short hroom hr htags hge hlt] at h
    cases h
  · rw [readKind_long hroom hr htags hgt hle] at h
    exact readLong_error h

theorem kind_eq_eol (harmed : s.kind = none) (h : exec kind s = (.error .eol, s')) :
    s' = s ∧ s.stack.head? = some 0 := by
  by_cases hend : s.stack.head? = some 0
  · rw [kind_eol harmed hend] at h
    exact ⟨(Prod.mk.inj h).2.symm, hend⟩
  obtain ⟨⟨k, size, err⟩, s₁, hread⟩ := exec_readKind_fst s
  rw [exec_kind harmed hend hread] at h
  cases err with
  | some e =>
    simp only [some_or, Prod.mk.injEq, Except.error.injEq] at h
    rcases readKind_error hread with (he | he | he | he) | ⟨he, -⟩ <;> simp [he] at h
  | none =>
    simp only [none_or, sizeError] at h
    split_ifs at h <;> cases h

theorem kind_eq_eof (harmed : s.kind = none) (hstack : s.stack = [])
    (hremaining : s.remaining = s.r.length) (h : exec kind s = (.error .eof, s')) : s.r = [] := by
  have hend := head?_ne_of_kind harmed h nofun
  obtain ⟨⟨k, size, err⟩, s₁, hread⟩ := exec_readKind_fst s
  rw [exec_kind harmed hend hread] at h
  cases err with
  | none =>
    simp only [none_or, sizeError] at h
    split_ifs at h <;> cases h
  | some e =>
    simp only [some_or, Prod.mk.injEq, Except.error.injEq] at h
    obtain ⟨rfl, -⟩ := h
    rcases readKind_error hread with (he | he | he | he) | ⟨-, hnot⟩
    any_goals cases he
    by_contra hne
    refine hnot ⟨⟨by simp [hstack], fun _ => ?_⟩, hne⟩
    exact hremaining ▸ length_pos_iff.mpr hne

/-! ## Strings and lists -/

/-- A value was read: its bytes are gone, and the kind of the next one is not known. -/
structure Consumed (s s' : Stream) (bs : Bytes) : Prop extends Moved s s' bs where
  armed : s'.kind = none

/-- The kind of a string: a small byte is its own encoding. -/
def leafKind (content : Bytes) : Kind :=
  if content.length = 1 ∧ content.all (·.toNat < 128) then .byte else .string

theorem leafKind_ne_list (content : Bytes) : leafKind content ≠ .list := by
  rw [leafKind]
  split <;> simp

variable {content : Bytes}

theorem bytes_eq_ok {s₀ : Stream} (hmoved : Moved s₀ s hd) (hahead : Ahead s k size)
    (hhead : Head k size s.byteval hd) (h : exec bytes s = (.ok content, s')) :
    k = leafKind content ∧ Consumed s₀ s' (encodeBytes content) := by
  rw [bytes, exec_bind_ok (kind_ahead hahead)] at h
  generalize hv : s.byteval = v at hhead
  cases hhead with
  | byte b h80 =>
    simp only [rearm, exec_bind, exec_get, exec_modify, exec_pure, Prod.mk.injEq,
      Except.ok.injEq] at h
    obtain ⟨rfl, rfl⟩ := h
    have henc : encodeBytes [s.byteval] = [v] := by simp [encodeBytes, hv, h80]
    rw [henc]
    exact ⟨by simp [leafKind, hv, h80],
      ⟨hmoved.input, hmoved.stack, hmoved.limited, hmoved.remaining⟩, rfl⟩
  | sized htags hsize =>
    cases htags with
    | list => simp at h
    | string =>
      obtain ⟨bs, s₁, hread, hrest⟩ := exec_bind_eq_ok h
      obtain ⟨hroom, hlen, rfl, rfl⟩ := readFull_eq_ok hread
      split_ifs at hrest with hcanon
      · simp at hrest
      obtain ⟨rfl, rfl⟩ := ok_inj hrest
      have htake : (s.r.take size).length = size := by simp [hlen]
      rw [encodeBytes, leafKind, htake, if_neg hcanon, if_neg hcanon]
      exact ⟨rfl, hmoved.trans (moved_advance hroom hlen), rfl⟩

theorem encodeBytes_head (hlen : content.length < 2 ^ 64) :
    (∃ b, content = [b] ∧ encodeBytes content = [b] ∧ b.toNat < 0x80) ∨
      ∃ hd, encodeBytes content = hd ++ content ∧ Head .string content.length 0 hd ∧
        ¬ (content.length = 1 ∧ content.all (·.toNat < 128)) := by
  by_cases hone : content.length = 1 ∧ content.all (·.toNat < 128)
  · obtain ⟨b, rfl⟩ := length_eq_one_iff.mp hone.1
    have hb : b.toNat < 128 := by simpa using hone.2
    exact .inl ⟨b, rfl, by simp [encodeBytes, hb], hb⟩
  · exact .inr ⟨_, by rw [encodeBytes, if_neg hone], .sized .string hlen, hone⟩

theorem bytes_ok (harmed : s.kind = none) (hr : s.r = encodeBytes content ++ rest)
    (hlen : content.length < 2 ^ 64) (hroom : Room s (encodeBytes content).length)
    (hlt : ∀ limit ∈ s.stack.head?, limit < 2 ^ 64) :
    ∃ size s₁ s', exec kind s = (.ok (leafKind content, size), s₁) ∧
      exec bytes s₁ = (.ok content, s') ∧ Consumed s s' (encodeBytes content) := by
  rcases encodeBytes_head hlen with ⟨b, rfl, henc, h80⟩ | ⟨hd, henc, hhead, hcanon⟩
  · rw [henc] at hr hroom ⊢
    obtain ⟨s₁, hkind, hmoved, hahead, hbyte⟩ :=
      kind_ok harmed (.byte b h80) hr hroom hlt
    have hleaf : leafKind [b] = .byte := by simp [leafKind, h80]
    refine ⟨_, s₁, { s₁ with kind := none }, hleaf ▸ hkind, ?_,
      ⟨hmoved.input, hmoved.stack, hmoved.limited, hmoved.remaining⟩, rfl⟩
    rw [bytes, exec_bind_ok (kind_ahead hahead)]
    simp only [rearm, exec_bind, exec_get, exec_modify, exec_pure, hbyte]
  · rw [henc, append_assoc] at hr
    rw [henc, length_append] at hroom
    rw [henc]
    obtain ⟨s₁, hkind, hmoved, hahead, -⟩ := kind_ok harmed hhead hr hroom hlt
    have hr₁ : s₁.r = content ++ rest :=
      append_cancel_left (hmoved.input.symm.trans hr)
    have hroom₁ : Room s₁ content.length := .of_moved hmoved hroom hlt
    have hle : content.length ≤ s₁.r.length := by simp [hr₁]
    have hmore := moved_advance hroom₁ hle
    rw [hr₁, take_left] at hmore
    have hleaf : leafKind content = .string := if_neg hcanon
    refine ⟨_, s₁, s₁.advance content.length, hleaf ▸ hkind, ?_, hmoved.trans hmore, rfl⟩
    rw [bytes, exec_bind_ok (kind_ahead hahead)]
    dsimp only
    rw [exec_bind_ok (readFull_ok hroom₁ hle), hr₁, take_left, if_neg hcanon, exec_pure]

theorem list_ahead (hahead : Ahead s .list size) :
    exec list s = (.ok size,
      { s with stack := size :: lower s.stack size, kind := none, size := 0 }) := by
  rw [list, exec_bind_ok (kind_ahead hahead)]
  simp only [exec_bind, exec_modify, exec_pure]

theorem listEnd_eq_ok {u : Unit} (h : exec listEnd s = (.ok u, s')) :
    s.stack.head? = some 0 ∧ s' = { s with stack := s.stack.tail, kind := none, size := 0 } := by
  rw [listEnd, listLimit] at h
  simp only [exec_bind, exec_get, exec_pure] at h
  cases hhead : s.stack.head? with
  | none => simp [hhead] at h
  | some limit =>
    simp only [hhead] at h
    split_ifs at h with hpos
    · simp at h
    · simp only [exec_modify, Prod.mk.injEq] at h
      exact ⟨by simp only [Option.some.injEq]; omega, h.2.symm⟩

theorem listEnd_ok (h : s.stack.head? = some 0) :
    exec listEnd s = (.ok ⟨⟩, { s with stack := s.stack.tail, kind := none, size := 0 }) := by
  simp only [listEnd, listLimit, exec_bind, exec_get, exec_pure, h, lt_irrefl, if_false,
    exec_modify]

end ChilizChain.Codec
