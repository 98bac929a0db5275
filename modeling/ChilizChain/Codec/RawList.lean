import ChilizChain.Codec.Raw

/-! Lists that are kept in encoded form. The buffer has nine bytes before the content, where the
header is written when it is asked for. An item is counted as one value whatever its encoder has
written, so the number of items is right as long as that was one value. -/

namespace ChilizChain.Codec

open Bytes Stateful Rlp List Nat

inductive ListError
  | stream (e : StreamError)
  | encode
  | trailingBytes
  /-- A slice of this length cannot be made: the call panics. -/
  | outOfRange

structure RawList where
  enc : Option Bytes
  length : ℕ

namespace RawList

section Buffer

variable (r : RawList)

def content : Bytes := (r.enc.getD []).drop 9

/-- `Bytes`, and the list with the header in its buffer. -/
def bytes : Bytes × RawList :=
  match r.enc with
  | none => ([0xC0], r)
  | some enc =>
    let head := encodeHead 0xC0 0xF7 r.content.length
    let n := head.length
    -- the header is put at the front of the buffer and copied to the content
    let enc := head ++ enc.drop n
    let enc := enc.take (9 - n) ++ (enc.take n ++ enc.drop 9)
    (enc.drop (9 - n), { r with enc := some enc })

/-- The buffer, which is made if there is none. -/
def buffer : Bytes := r.enc.getD (List.replicate 9 0)

def grow (b : Bytes) : Option ListError × RawList :=
  if 2 ^ 63 ≤ r.buffer.length + b.length then (some .outOfRange, { r with enc := some r.buffer })
  else (none, ⟨some (r.buffer ++ b), r.length + 1⟩)

end Buffer

variable {T : Type} (encode : T → Option Bytes) (r : RawList)

def append (item : T) : Option ListError × RawList :=
  match encode item with
  | none => (some .encode, { r with enc := some r.buffer })
  | some b => r.grow b

def appendRaw (b : Bytes) : Option ListError × RawList :=
  match rawReadKind b with
  | .error e => (some (.stream e), r)
  | .ok (_, tagsize, contentsize) =>
    if tagsize + contentsize ≠ b.length then (some .trailingBytes, r) else r.grow b

def decodeRLP (s : Stream) : Option ListError × RawList :=
  match exec kind s with
  | (.error e, _) => (some (.stream e), r)
  | (.ok (k, size), s) =>
    if k ≠ .list then (some (.stream .expectedList), r)
    else if 2 ^ 63 ≤ 9 + size then (some .outOfRange, r)
    else
      match (exec (readFull size) s).1 with
      | .error e => (some (.stream e), r)
      | .ok content =>
        match countValues content with
        | .error e => (some (.stream (if e = .valueTooLarge then .elemTooLarge else e)), r)
        | .ok n => (none, ⟨some (List.replicate 9 0 ++ content), n⟩)

inductive Call (T : Type)
  | append (item : T)
  | appendRaw (b : Bytes)
  | decodeRLP (s : Stream)
  | bytes

def call : Call T → Option ListError × RawList
  | .append item => r.append encode item
  | .appendRaw b => r.appendRaw b
  | .decodeRLP s => r.decodeRLP s
  | .bytes => (none, r.bytes.2)

/-- What the list should hold after a call that succeeds. -/
def Call.items (items : List Bytes) : Call T → List Bytes
  | .append item => items ++ (encode item).toList
  | .appendRaw b => items ++ [b]
  | .decodeRLP s =>
    match exec kind s with
    | (.ok (_, size), s) => [s.r.take size]
    | _ => items
  | .bytes => items

/-- A list and the items that it should hold. -/
def next (state : RawList × List Bytes) (c : Call T) : RawList × List Bytes :=
  ((state.1.call encode c).2,
    if (state.1.call encode c).1.isNone then c.items encode state.2 else state.2)

def run (calls : List (Call T)) : RawList × List Bytes := calls.foldl (next encode) (⟨none, 0⟩, [])

end RawList

/-! ## Integers -/

inductive IntError
  | stream (e : StreamError)
  | canonInt
  | uintOverflow

def splitUint64 (b : Bytes) : Except IntError (UInt64 × Bytes) :=
  match splitString b with
  | .error e => .error (.stream e)
  | .ok ([], rest) => .ok (0, rest)
  | .ok ([c], rest) => if c = 0 then .error .canonInt else .ok (.ofNat c.toNat, rest)
  | .ok (content, rest) =>
    if 8 < content.length then .error .uintOverflow
    else
      match readSize content content.length with
      | .error _ => .error .canonInt
      | .ok x => .ok (.ofNat x, rest)

/-- The cases of the switch are the numbers of bytes. -/
def appendUint64 (b : Bytes) (i : UInt64) : Bytes :=
  if i = 0 then b ++ [0x80]
  else if i < 128 then b ++ [.ofNat i.toNat]
  else b ++ .ofNat (0x80 + (beBytes i.toNat).length) :: beBytes i.toNat

def intSize (x : UInt64) : ℕ := if x < 0x80 then 1 else 1 + (Nat.log2 x.toNat + 1 + 7) / 8

theorem appendUint64_eq (b : Bytes) (x : UInt64) : appendUint64 b x = b ++ encodeUint64 x := by
  have hlen : (beBytes x.toNat).length ≤ 8 := beBytes_length_le x.toNat_lt
  rw [appendUint64, encodeUint64]
  split_ifs with h0 h128
  · rw [h0]
    rfl
  · have hne : x.toNat ≠ 0 := by simpa using UInt64.toNat_inj.not.mpr h0
    rw [encodeBigInt_small hne h128]
  · have hge : 128 ≤ x.toNat := not_lt.mp h128
    rw [encodeBigInt_string (.inr hge), encodeHead, if_pos (by omega), singleton_append]

theorem beBytes_length {n : ℕ} (h : n ≠ 0) : (beBytes n).length = (log2 n + 1 + 7) / 8 := by
  refine eq_of_forall_ge_iff fun w => ?_
  rw [beBytes, length_reverse, length_map, digits_length_le_iff (by decide),
    show 256 = 2 ^ 8 from rfl, ← pow_mul, ← log2_lt h]
  omega

theorem encodeUint64_length (x : UInt64) : (encodeUint64 x).length = intSize x := by
  rw [← nil_append (encodeUint64 x), ← appendUint64_eq, appendUint64, intSize]
  by_cases h0 : x = 0
  · rw [h0]
    rfl
  rw [if_neg h0]
  split_ifs with h128
  · rfl
  · have hge : 128 ≤ x.toNat := not_lt.mp h128
    rw [nil_append, length_cons, beBytes_length (by omega), add_comm]

theorem splitUint64_encodeUint64 (x : UInt64) (rest : Bytes) :
    splitUint64 (encodeUint64 x ++ rest) = .ok (x, rest) := by
  have hlen : (beBytes x.toNat).length ≤ 8 := beBytes_length_le x.toNat_lt
  have hsplit : splitString (encodeUint64 x ++ rest) = .ok (beBytes x.toNat, rest) :=
    splitString_of_split (leafKind_ne_list _) (split_encodeBytes (by omega))
  have hvalue := beNat_beBytes x.toNat
  rw [splitUint64, hsplit]
  by_cases h0 : x.toNat = 0
  · rw [h0, ← UInt64.ofNat_toNat (x := x), h0]
    rfl
  obtain ⟨c, cs, hcs, hc⟩ := beBytes_head h0
  rw [hcs] at hvalue hlen ⊢
  cases cs with
  | nil =>
    have hx : c.toNat = x.toNat := by simpa [beNat] using hvalue
    simp only [if_neg hc, hx, UInt64.ofNat_toNat]
  | cons d cs =>
    have hlarge : 56 ≤ x.toNat := by
      by_contra hlt
      rw [beBytes_of_lt h0 (by omega)] at hcs
      cases hcs
    have hread : readSize (c :: d :: cs ++ []) _ = .ok x.toNat :=
      readSize_ok ⟨rfl, hvalue, by simpa using hc, hlarge⟩
    rw [append_nil] at hread
    simp only [if_neg (not_lt.mpr hlen), hread, UInt64.ofNat_toNat]

/-! ## Counting -/

variable {a b content rest : Bytes} {k : Kind} {n : ℕ}

/-- Exactly one value. -/
def OneValue (b : Bytes) : Prop := ∃ k content, split b = .ok (k, content, [])

theorem split_append (more : Bytes) (hlen : b.length < 2 ^ 64)
    (h : split b = .ok (k, content, rest)) :
    split (b ++ more) = .ok (k, content, rest ++ more) := by
  rcases split_eq_ok h with ⟨rfl, rfl⟩ | ⟨rfl, rfl⟩
  · have hle := length_le_encodeBytes content
    rw [length_append] at hlen
    rw [append_assoc, split_encodeBytes (by omega)]
  · have hlt := length_lt_encodeList content
    rw [length_append] at hlen
    rw [append_assoc, split_encodeList (by omega)]

theorem split_ne_nil (h : split b = .ok (k, content, rest)) : b ≠ [] := by
  rintro rfl
  cases h

theorem countFrom_append {fuel fuel' i : ℕ} (hlen : a.length < 2 ^ 64)
    (h : countFrom fuel i a = .ok n) (hb : OneValue b) (hfuel : fuel < fuel') :
    countFrom fuel' i (a ++ b) = .ok (n + 1) := by
  induction fuel' generalizing fuel i a with
  | zero => cases hfuel
  | succ fuel' ih =>
    cases a with
    | nil =>
      obtain ⟨k, content, hsplit⟩ := hb
      rw [nil_append, countFrom_split fuel' i (split_ne_nil hsplit) hsplit, countFrom]
      cases fuel <;> cases h <;> rfl
    | cons c a =>
      cases fuel with
      | zero => cases h
      | succ fuel =>
        rw [countFrom] at h
        · obtain ⟨⟨k, ts, cs⟩, hkind, h⟩ := Except.bind_eq_ok.mp h
          have hfirst : split (c :: a) = .ok (k, slice (c :: a) ts (ts + cs),
              (c :: a).drop (ts + cs)) := by
            rw [split, hkind]
            rfl
          have hle : ((c :: a).drop (ts + cs)).length ≤ (c :: a).length := by simp
          rw [countFrom_split fuel' i (by simp) (split_append b hlen hfirst)]
          exact ih (hle.trans_lt hlen) h (by omega)
        · simp

/-! ## The list -/

namespace RawList

variable {r : RawList}

/-- What every list keeps. -/
structure Sound (r : RawList) : Prop where
  reserved : ∀ enc ∈ r.enc, 9 ≤ enc.length
  count : countValues r.content = .ok r.length
  size : 9 + r.content.length < 2 ^ 63

theorem Sound.buffer (h : Sound r) :
    ∃ pad : Bytes, pad.length = 9 ∧ r.buffer = pad ++ r.content := by
  refine ⟨r.buffer.take 9, ?_, ?_⟩
  · rcases r with ⟨_ | enc, len⟩
    · rfl
    · exact length_take_of_le (h.reserved enc rfl)
  · have hcontent : r.content = r.buffer.drop 9 := by
      rcases r with ⟨_ | enc, len⟩ <;> rfl
    rw [hcontent, take_append_drop]

theorem content_padded {pad : Bytes} (hpad : pad.length = 9) (content : Bytes) (n : ℕ) :
    RawList.content ⟨some (pad ++ content), n⟩ = content := by
  simp [RawList.content, ← hpad]

/-- Another list with the same content. -/
theorem Sound.padded (h : Sound r) {pad : Bytes} (hpad : pad.length = 9) :
    Sound ⟨some (pad ++ r.content), r.length⟩ where
  reserved := by
    rintro enc ⟨⟩
    simp [hpad]
  count := by rw [content_padded hpad, h.count]
  size := by rw [content_padded hpad]; exact h.size

theorem Sound.bytes (h : Sound r) : r.bytes.1 = encodeList r.content ∧ Sound r.bytes.2 ∧
    r.bytes.2.content = r.content ∧ r.bytes.2.length = r.length := by
  obtain ⟨pad, hpad, hbuffer⟩ := h.buffer
  rcases hr : r.enc with _ | enc
  · have hcontent : r.content = [] := by simp [RawList.content, hr]
    have hbytes : r.bytes = ([0xC0], r) := by simp only [RawList.bytes, hr]
    rw [hbytes, hcontent]
    exact ⟨rfl, h, rfl, rfl⟩
  · have henc : enc = pad ++ r.content := by simpa [RawList.buffer, hr] using hbuffer
    generalize hhead : encodeHead 0xC0 0xF7 r.content.length = head
    have hn : head.length ≤ 9 := by
      rw [← hhead]
      exact encodeHead_length_le (by have := h.size; omega)
    -- what is left of the bytes before the content
    generalize hfront : (head ++ enc.drop head.length).take (9 - head.length) = front
    have hfrontlen : front.length = 9 - head.length := by
      rw [← hfront, henc]
      simp only [length_take, length_append, length_drop]
      omega
    have hrest : (head ++ enc.drop head.length).drop 9 = r.content := by
      rw [← Nat.add_sub_cancel' hn, ← drop_drop, drop_left, drop_drop,
        Nat.add_sub_cancel' hn, henc, ← hpad, drop_left]
    have hnine : (front ++ head).length = 9 := by
      rw [length_append]
      omega
    have hbytes : r.bytes =
        (head ++ r.content, ⟨some (front ++ head ++ r.content), r.length⟩) := by
      simp only [RawList.bytes, hr, hhead, hfront, hrest, take_left, append_assoc]
      rw [← hfrontlen, drop_left]
    rw [hbytes, encodeList, hhead]
    exact ⟨rfl, h.padded hnine, content_padded hnine _ _, rfl⟩

/-- What a call gives: the list is as it should be, or as it was. -/
structure Gives (r : RawList) (result : Option ListError × RawList) (content : Bytes) : Prop where
  sound : Sound result.2
  done : result.1 = none → result.2.content = content
  failed : result.1 ≠ none → result.2.content = r.content ∧ result.2.length = r.length

theorem Sound.refuse (h : Sound r) (e : ListError) (content : Bytes) :
    Gives r (some e, r) content ∧ Gives r (some e, { r with enc := some r.buffer }) content := by
  obtain ⟨pad, hpad, hbuffer⟩ := h.buffer
  rw [hbuffer]
  exact ⟨⟨h, nofun, fun _ => ⟨rfl, rfl⟩⟩,
    ⟨h.padded hpad, nofun, fun _ => ⟨content_padded hpad _ _, rfl⟩⟩⟩

theorem Sound.grow (h : Sound r) {b : Bytes} (hb : OneValue b) :
    Gives r (r.grow b) (r.content ++ b) := by
  rw [RawList.grow]
  split_ifs with hlen
  · exact (h.refuse _ _).2
  · obtain ⟨pad, hpad, hbuffer⟩ := h.buffer
    have hcontent : RawList.content ⟨some (r.buffer ++ b), r.length + 1⟩ = r.content ++ b := by
      rw [hbuffer, append_assoc]
      exact content_padded hpad _ _
    have hsize := h.size
    have hpos : 0 < b.length := by
      obtain ⟨k, content, hsplit⟩ := hb
      exact length_pos_iff.mpr (split_ne_nil hsplit)
    refine ⟨⟨?_, ?_, ?_⟩, fun _ => hcontent, nofun⟩
    · rintro enc ⟨⟩
      simp [hbuffer, hpad]
    · rw [hcontent, countValues]
      exact countFrom_append (by omega) h.count hb (by rw [length_append]; omega)
    · rw [hcontent]
      simp only [hbuffer, length_append] at hlen ⊢
      omega

theorem Sound.appendRaw (h : Sound r) (b : Bytes) : Gives r (r.appendRaw b) (r.content ++ b) := by
  rw [RawList.appendRaw]
  rcases hkind : rawReadKind b with e | ⟨k, ts, cs⟩
  · exact (h.refuse _ _).1
  · dsimp only
    split_ifs with hlen
    · exact (h.refuse _ _).1
    · refine h.grow ⟨k, slice b ts (ts + cs), ?_⟩
      rw [split, hkind]
      simp [not_not.mp hlen]

variable {T : Type} {encode : T → Option Bytes} {items : List Bytes}

theorem Sound.decodeRLP (h : Sound r) (s : Stream) :
    Gives r (r.decodeRLP s) ((Call.decodeRLP s : Call T).items encode items).flatten := by
  rcases hkind : exec kind s with ⟨e | ⟨k, size⟩, s₁⟩
  · simp only [RawList.decodeRLP, hkind]
    exact (h.refuse _ _).1
  simp only [RawList.decodeRLP, Call.items, hkind]
  split_ifs with hlist hsize
  · exact (h.refuse _ _).1
  · exact (h.refuse _ _).1
  rcases hread : exec (readFull size) s₁ with ⟨e | content, s₂⟩
  · exact (h.refuse _ _).1
  obtain ⟨-, hlen, rfl, -⟩ := readFull_eq_ok hread
  rcases hcount : countValues (s₁.r.take size) with e | n
  · simp only [hcount]
    exact (h.refuse _ _).1
  · simp only [hcount]
    refine ⟨⟨?_, ?_, ?_⟩, fun _ => ?_, nofun⟩
    · rintro enc ⟨⟩
      simp
    · exact hcount
    · simpa [RawList.content, hlen] using hsize
    · simp [RawList.content]

variable (encode) in
/-- An item is encoded as one value. -/
def Call.Single : Call T → Prop
  | .append item => ∀ b ∈ encode item, OneValue b
  | _ => True

theorem Sound.call (h : Sound r) (hitems : r.content = items.flatten) {c : Call T}
    (hc : c.Single encode) : Gives r (r.call encode c) (c.items encode items).flatten := by
  cases c with
  | append item =>
    rw [RawList.call, RawList.append]
    rcases henc : encode item with _ | b
    · exact (h.refuse _ _).2
    · simpa [Call.items, henc, hitems] using h.grow (hc b henc)
  | appendRaw b => simpa [Call.items, hitems, RawList.call] using h.appendRaw b
  | decodeRLP s => exact h.decodeRLP s
  | bytes =>
    obtain ⟨-, hsound, hcontent, -⟩ := h.bytes
    exact ⟨hsound, fun _ => hcontent.trans hitems, nofun⟩

theorem run_sound {calls : List (Call T)} (hcalls : ∀ c ∈ calls, c.Single encode) :
    Sound (run encode calls).1 ∧ (run encode calls).1.content = (run encode calls).2.flatten := by
  induction calls using List.reverseRecOn with
  | nil => exact ⟨⟨nofun, rfl, by simp [run, content]⟩, rfl⟩
  | append_singleton calls c ih =>
    obtain ⟨hsound, hitems⟩ := ih fun c hc => hcalls c (by simp [hc])
    have hgives := hsound.call hitems (hcalls c (by simp))
    rw [run, foldl_append, foldl_cons, foldl_nil, ← run, next]
    refine ⟨hgives.sound, ?_⟩
    cases hresult : ((run encode calls).1.call encode c).1 with
    | none => exact hgives.done hresult
    | some e => exact (hgives.failed (by simp [hresult])).1.trans hitems

theorem decodeRLP_encodeList (r : RawList) {payload : Bytes} {n : ℕ}
    (hcount : countValues payload = .ok n) (hsize : 9 + payload.length < 2 ^ 63) :
    r.decodeRLP (reset (encodeList payload) 0 true) =
      (none, ⟨some (List.replicate 9 0 ++ payload), n⟩) := by
  have hlen : (encodeList payload).length =
      (encodeHead 0xC0 0xF7 payload.length).length + payload.length := length_append
  obtain ⟨s, hkind, hmoved, -, -⟩ := kind_ok (s := reset (encodeList payload) 0 true) rfl
    (.sized .list (by omega : payload.length < 2 ^ 64)) rfl ⟨nofun, fun _ => hlen.ge⟩ nofun
  have hr : payload = s.r := append_cancel_left hmoved.input
  have hroom : Room s payload.length := by
    refine ⟨by simp [hmoved.stack, reset, lower], fun hlimited => ?_⟩
    have hremaining : (encodeList payload).length = _ := hmoved.remaining rfl
    omega
  have hread := readFull_ok hroom (by rw [← hr])
  simp only [decodeRLP, hkind, ne_eq, not_true, if_false, not_le.mpr hsize, hread, ← hr,
    take_length, hcount]

/-- What holds of a list whose items are `items`. -/
structure WellFormed (encode : T → Option Bytes) (r : RawList) (items : List Bytes) : Prop where
  bytes : r.bytes.1 = encodeList items.flatten
  count : countValues r.content = .ok r.length
  decode : ∀ r₀ : RawList, ∃ r', r₀.decodeRLP (reset r.bytes.1 0 true) = (none, r') ∧
    r'.content = r.content ∧ r'.length = r.length
  failed : ∀ c : Call T, c.Single encode → (r.call encode c).1 ≠ none →
    (r.call encode c).2.content = r.content ∧ (r.call encode c).2.length = r.length

/-- Whatever the calls are, if every item that is appended is encoded as one value, the list has
the items and their number; and an integer that is appended is read back. -/
theorem rawList_wellFormed (encode : T → Option Bytes) (calls : List (Call T))
    (hcalls : ∀ c ∈ calls, c.Single encode) :
    WellFormed encode (run encode calls).1 (run encode calls).2 ∧
      ∀ (b : Bytes) (x : UInt64), ∃ enc, appendUint64 b x = b ++ enc ∧ enc.length = intSize x ∧
        ∀ rest, splitUint64 (enc ++ rest) = .ok (x, rest) := by
  refine ⟨?_, fun b x => ⟨_, appendUint64_eq b x, encodeUint64_length x,
    splitUint64_encodeUint64 x⟩⟩
  obtain ⟨hsound, hitems⟩ := run_sound hcalls
  have hbytes := hsound.bytes.1
  refine ⟨hitems ▸ hbytes, hsound.count, fun r₀ => ?_, fun c hc => (hsound.call hitems hc).failed⟩
  rw [hbytes, decodeRLP_encodeList r₀ hsound.count hsound.size]
  exact ⟨_, rfl, by simp [content], rfl⟩

/-- A byte and an empty list. -/
theorem rawList_wellFormed_two : WellFormed some
    (run some [.append [0x05], .appendRaw [0xC0], .bytes]).1 [[0x05], [0xC0]] := by
  refine (rawList_wellFormed some [.append [0x05], .appendRaw [0xC0], .bytes] ?_).1
  intro c hc
  simp only [mem_cons, not_mem_nil, or_false] at hc
  rcases hc with rfl | rfl | rfl
  · rintro b ⟨⟩
    exact ⟨_, _, rfl⟩
  all_goals trivial

/-- An item whose encoder writes nothing is counted. -/
theorem unwritten_item_counted :
    let r := (run (fun _ : Unit => some []) [.append ()]).1
    r.length = 1 ∧ countValues r.content = .ok 0 := by
  decide

end RawList

end ChilizChain.Codec
