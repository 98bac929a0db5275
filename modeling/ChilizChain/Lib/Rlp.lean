import ChilizChain.Lib.Bytes
import ChilizChain.Lib.Result

/-! Recursive length prefix encoding with the canonical-form checks of a strict decoder.
A decoder reads from a window of bytes: the rest of the enclosing list, or of the whole
input when it is not inside a list (`inList` tells the two apart, because they end in
different errors). Every decoder comes with its round trip: it reads back exactly what
the encoder of the same type wrote and leaves the bytes after it. -/

namespace Rlp

open Bytes List

inductive Error
  | eof
  | eol
  | elemTooLarge
  | valueTooLarge
  | canonSize
  | canonInt
  | expectedList
  | expectedString
  | uintOverflow
  | inputTooLong
  | inputTooShort
  | tooFewElements
  | notAtEOL
  | moreThanOneValue
deriving DecidableEq, Repr

inductive Kind
  | byte (value : UInt8)
  | string
  | list
deriving DecidableEq, Repr

/-! ## Decoding -/

/-- The error of a read past the end of the window. -/
def tooLarge (inList : Bool) : Error := if inList then .elemTooLarge else .valueTooLarge

/-- A big-endian number of `n` bytes; more than one byte may not start with zero. -/
def readUint (inList : Bool) (n : ℕ) (bs : Bytes) : Except Error (ℕ × Bytes) :=
  if bs.length < n then .error (tooLarge inList)
  else if 1 < n ∧ bs.head? = some 0 then .error .canonSize
  else .ok (beNat (bs.take n), bs.drop n)

/-- The value ahead must fit into the window. -/
def sized (inList : Bool) (kind : Kind) (size : ℕ) (rest : Bytes) :
    Except Error (Kind × ℕ × Bytes) :=
  if rest.length < size then .error (tooLarge inList) else .ok (kind, size, rest)

/-- A size given by its own big-endian bytes; sizes below 56 have a shorter form. -/
def longSized (inList : Bool) (kind : Kind) (sizeSize : ℕ) (rest : Bytes) :
    Except Error (Kind × ℕ × Bytes) := do
  let (size, rest) ← readUint inList sizeSize rest
  if size < 56 then throw .canonSize
  sized inList kind size rest

/-- Kind and size of the next value, and the bytes from its content on. -/
def readKind (inList : Bool) : Bytes → Except Error (Kind × ℕ × Bytes)
  | [] => .error (if inList then .eol else .eof)
  | b :: rest =>
    if b.toNat < 0x80 then .ok (.byte b, 0, rest)
    else if b.toNat < 0xB8 then sized inList .string (b.toNat - 0x80) rest
    else if b.toNat < 0xC0 then longSized inList .string (b.toNat - 0xB7) rest
    else if b.toNat < 0xF8 then sized inList .list (b.toNat - 0xC0) rest
    else longSized inList .list (b.toNat - 0xF7) rest

def decodeUint64 (inList : Bool) (bs : Bytes) : Except Error (UInt64 × Bytes) := do
  match ← readKind inList bs with
  | (.byte b, _, rest) =>
    if b = 0 then throw .canonInt
    return (UInt64.ofNat b.toNat, rest)
  | (.string, size, rest) =>
    if 8 < size then throw .uintOverflow
    match readUint inList size rest with
    | .error .canonSize => throw .canonInt
    | .error e => throw e
    | .ok (v, rest) =>
      if 0 < size ∧ v < 128 then throw .canonSize
      return (UInt64.ofNat v, rest)
  | (.list, _, _) => throw .expectedString

/-- A byte array of exactly `n` bytes. -/
def decodeByteArray (n : ℕ) (inList : Bool) (bs : Bytes) :
    Except Error (FixedBytes n × Bytes) := do
  match ← readKind inList bs with
  | (.byte b, _, rest) =>
    if n = 0 then throw .inputTooLong
    if 1 < n then throw .inputTooShort
    return (.ofBytes n [b], rest)
  | (.string, size, rest) =>
    if n < size then throw .inputTooLong
    if size < n then throw .inputTooShort
    let content := rest.take size
    if size = 1 ∧ content.all (·.toNat < 128) then throw .canonSize
    return (.ofBytes n content, rest.drop size)
  | (.list, _, _) => throw .expectedString

def decodeBytes (inList : Bool) (bs : Bytes) : Except Error (Bytes × Bytes) := do
  match ← readKind inList bs with
  | (.byte b, _, rest) => return ([b], rest)
  | (.string, size, rest) =>
    let content := rest.take size
    if size = 1 ∧ content.all (·.toNat < 128) then throw .canonSize
    return (content, rest.drop size)
  | (.list, _, _) => throw .expectedString

/-- A natural number of any size, without leading zero bytes. -/
def decodeBigInt (inList : Bool) (bs : Bytes) : Except Error (ℕ × Bytes) := do
  let (content, rest) ← decodeBytes inList bs
  if content.head? = some 0 then throw .canonInt
  return (beNat content, rest)

/-- A list whose content `body` has to read to the end. -/
def decodeList {α : Type} (body : Bytes → Except Error (α × Bytes)) (inList : Bool)
    (bs : Bytes) : Except Error (α × Bytes) := do
  match ← readKind inList bs with
  | (.list, size, rest) =>
    let (a, left) ← body (rest.take size)
    if left ≠ [] then throw .notAtEOL
    return (a, rest.drop size)
  | _ => throw .expectedList

/-- A struct field: the list may not end before it. -/
def field {α : Type} (result : Except Error α) : Except Error α :=
  match result with
  | .error .eol => .error .tooFewElements
  | r => r

/-- Elements up to the end of the window. Each one consumes a byte, so the window's length
is enough fuel. -/
def decodeElems {α : Type} (elem : Bool → Bytes → Except Error (α × Bytes)) :
    ℕ → Bytes → Except Error (List α × Bytes)
  | _, [] => .ok ([], [])
  | 0, bs => .ok ([], bs)
  | fuel + 1, bs => do
    let (a, rest) ← elem true bs
    let (as, rest) ← decodeElems elem fuel rest
    return (a :: as, rest)

def decodeSlice {α : Type} (elem : Bool → Bytes → Except Error (α × Bytes)) (inList : Bool)
    (bs : Bytes) : Except Error (List α × Bytes) :=
  decodeList (fun window => decodeElems elem window.length window) inList bs

/-- `Decode`: the first value of the input, whatever follows it. -/
def decode {α : Type} (decoder : Bool → Bytes → Except Error (α × Bytes)) (bs : Bytes) :
    Except Error α :=
  Prod.fst <$> decoder false bs

/-- `DecodeBytes`: the input is exactly one value. -/
def decodeExact {α : Type} (decoder : Bool → Bytes → Except Error (α × Bytes)) (bs : Bytes) :
    Except Error α := do
  let (a, rest) ← decoder false bs
  if rest ≠ [] then throw .moreThanOneValue
  return a

/-! ## Encoding -/

def encodeHead (smallTag largeTag size : ℕ) : Bytes :=
  if size < 56 then [UInt8.ofNat (smallTag + size)]
  else UInt8.ofNat (largeTag + (beBytes size).length) :: beBytes size

def encodeBytes (bs : Bytes) : Bytes :=
  if bs.length = 1 ∧ bs.all (·.toNat < 128) then bs
  else encodeHead 0x80 0xB7 bs.length ++ bs

def encodeBigInt (n : ℕ) : Bytes := encodeBytes (beBytes n)

def encodeUint64 (v : UInt64) : Bytes := encodeBigInt v.toNat

def encodeList (payload : Bytes) : Bytes := encodeHead 0xC0 0xF7 payload.length ++ payload

/-! ## Round trips

The tag byte of a head selects the branch of `readKind` again; everything else follows
from `readKind_encodeHead`. -/

variable {inList : Bool}

variable {n : ℕ}

private theorem toNat_ofNat_lt (h : n < 256) : (UInt8.ofNat n).toNat = n := by
  simp [Nat.mod_eq_of_lt h]

theorem readUint_beBytes (n : ℕ) (rest : Bytes) :
    readUint inList (beBytes n).length (beBytes n ++ rest) = .ok (n, rest) := by
  have hhead : ¬(1 < (beBytes n).length ∧ (beBytes n ++ rest).head? = some 0) := by
    rintro ⟨hlen, hzero⟩
    by_cases hn : n = 0
    · simp [hn, beBytes] at hlen
    · obtain ⟨b, tail, heq, hb⟩ := beBytes_head hn
      simp [heq, hb] at hzero
  rw [readUint, if_neg (by simp), if_neg hhead]
  simp

variable {size : ℕ} {rest : Bytes}

private theorem longSized_beBytes {kind : Kind} (h56 : 56 ≤ size) (hfit : size ≤ rest.length) :
    longSized inList kind (beBytes size).length (beBytes size ++ rest) =
      .ok (kind, size, rest) := by
  simp only [longSized, readUint_beBytes, sized]
  simp [Nat.not_lt.mpr h56, Nat.not_lt.mpr hfit]

/-- The two families of heads, for strings and for lists, as `readKind` tells them apart. -/
inductive HeadOf : Kind → ℕ → ℕ → Prop
  | string : HeadOf .string 0x80 0xB7
  | list : HeadOf .list 0xC0 0xF7

theorem readKind_encodeHead {kind : Kind} {smallTag largeTag : ℕ}
    (hkind : HeadOf kind smallTag largeTag) (hsize : size < 2 ^ 64) (hfit : size ≤ rest.length) :
    readKind inList (encodeHead smallTag largeTag size ++ rest) = .ok (kind, size, rest) := by
  by_cases h56 : size < 56
  · rw [encodeHead, if_pos h56]
    cases hkind with
    | string =>
      have ht : (UInt8.ofNat (0x80 + size)).toNat = 0x80 + size := toNat_ofNat_lt (by omega)
      simp only [cons_append, nil_append, readKind, ht, sized]
      rw [if_neg (by omega), if_pos (by omega), if_neg (by omega), Nat.add_sub_cancel_left]
    | list =>
      have ht : (UInt8.ofNat (0xC0 + size)).toNat = 0xC0 + size := toNat_ofNat_lt (by omega)
      simp only [cons_append, nil_append, readKind, ht, sized]
      rw [if_neg (by omega), if_neg (by omega), if_neg (by omega), if_pos (by omega),
        if_neg (by omega), Nat.add_sub_cancel_left]
  · have h0 : size ≠ 0 := by omega
    have hpos := beBytes_length_pos h0
    have hle : (beBytes size).length ≤ 8 := beBytes_length_le (by norm_num; omega)
    rw [encodeHead, if_neg h56]
    have hlong : longSized inList kind (beBytes size).length (beBytes size ++ rest) =
        .ok (kind, size, rest) := longSized_beBytes (Nat.not_lt.mp h56) hfit
    generalize hL : (beBytes size).length = L at *
    cases hkind with
    | string =>
      have ht : (UInt8.ofNat (0xB7 + L)).toNat = 0xB7 + L := toNat_ofNat_lt (by omega)
      simp only [cons_append, readKind, ht]
      rw [if_neg (by omega), if_neg (by omega), if_pos (by omega), Nat.add_sub_cancel_left]
      exact hlong
    | list =>
      have ht : (UInt8.ofNat (0xF7 + L)).toNat = 0xF7 + L := toNat_ofNat_lt (by omega)
      simp only [cons_append, readKind, ht]
      rw [if_neg (by omega), if_neg (by omega), if_neg (by omega), if_neg (by omega),
        Nat.add_sub_cancel_left]
      exact hlong

variable {bs : Bytes}

private theorem decodeBytes_string (hlen : bs.length < 2 ^ 64)
    (hcanon : ¬(bs.length = 1 ∧ bs.all (·.toNat < 128))) :
    decodeBytes inList (encodeHead 0x80 0xB7 bs.length ++ (bs ++ rest)) = .ok (bs, rest) := by
  simp only [decodeBytes,
    readKind_encodeHead .string hlen (by simp : bs.length ≤ (bs ++ rest).length),
    Except.ok_bind, take_left, drop_left]
  rw [if_neg hcanon]
  rfl

theorem decodeBytes_encodeBytes (rest : Bytes) (hlen : bs.length < 2 ^ 64) :
    decodeBytes inList (encodeBytes bs ++ rest) = .ok (bs, rest) := by
  by_cases hone : bs.length = 1 ∧ bs.all (·.toNat < 128)
  · -- a single small byte is its own encoding
    obtain ⟨b, rfl⟩ := length_eq_one_iff.mp hone.1
    have hb : b.toNat < 128 := by simpa using hone.2
    simp [encodeBytes, hb, decodeBytes, readKind]
  · rw [encodeBytes, if_neg hone, append_assoc]
    exact decodeBytes_string hlen hone

theorem encodeBigInt_small (h0 : n ≠ 0) (h : n < 128) : encodeBigInt n = [UInt8.ofNat n] := by
  have hb : (UInt8.ofNat n).toNat = n := toNat_ofNat_lt (by omega)
  rw [encodeBigInt, beBytes_of_lt h0 (by omega), encodeBytes, if_pos]
  simp only [length_singleton, all_cons, all_nil, hb, h]
  simp

theorem encodeBigInt_string (h : n = 0 ∨ 128 ≤ n) :
    encodeBigInt n = encodeHead 0x80 0xB7 (beBytes n).length ++ beBytes n := by
  rw [encodeBigInt, encodeBytes, if_neg]
  rintro ⟨hlen, hall⟩
  obtain ⟨b, hb⟩ := length_eq_one_iff.mp hlen
  have hsmall : b.toNat < 128 := by simpa [hb] using hall
  have hn : n = b.toNat := by
    rw [← beNat_beBytes n, hb]
    simp [beNat, Nat.ofDigits_singleton]
  rcases h with h0 | h128
  · simp [h0, beBytes] at hb
  · omega

theorem decodeUint64_encodeUint64 (v : UInt64) (rest : Bytes) :
    decodeUint64 inList (encodeUint64 v ++ rest) = .ok (v, rest) := by
  have hle : (beBytes v.toNat).length ≤ 8 := beBytes_length_le (by simpa using v.toNat_lt)
  by_cases hsmall : v.toNat ≠ 0 ∧ v.toNat < 128
  · have hb : (UInt8.ofNat v.toNat).toNat = v.toNat := toNat_ofNat_lt (by omega)
    have hne : UInt8.ofNat v.toNat ≠ 0 := by
      intro h
      rw [h] at hb
      exact hsmall.1 hb.symm
    rw [encodeUint64, encodeBigInt_small hsmall.1 hsmall.2]
    simp only [cons_append, nil_append, decodeUint64, readKind, hb, if_pos hsmall.2,
      Except.ok_bind, if_neg hne, UInt64.ofNat_toNat]
    rfl
  · have hstring : v.toNat = 0 ∨ 128 ≤ v.toNat := by omega
    have hkind : readKind inList
        (encodeHead 0x80 0xB7 (beBytes v.toNat).length ++ (beBytes v.toNat ++ rest)) =
        .ok (.string, (beBytes v.toNat).length, beBytes v.toNat ++ rest) :=
      readKind_encodeHead .string (by omega) (by simp)
    have hcanon : ¬(0 < (beBytes v.toNat).length ∧ v.toNat < 128) := by
      rintro ⟨hpos, hlt⟩
      have h0 : v.toNat = 0 := by omega
      simp [h0, beBytes] at hpos
    rw [encodeUint64, encodeBigInt_string hstring, append_assoc]
    simp only [decodeUint64, hkind, Except.ok_bind, if_neg (Nat.not_lt.mpr hle), readUint_beBytes,
      if_neg hcanon, UInt64.ofNat_toNat]
    rfl

theorem decodeByteArray_encodeBytes (a : FixedBytes n) (rest : Bytes) (hn : 1 < n)
    (hlen : n < 2 ^ 64) :
    decodeByteArray n inList (encodeBytes a.bytes ++ rest) = .ok (a, rest) := by
  have hkind : readKind inList (encodeHead 0x80 0xB7 n ++ (a.bytes ++ rest)) =
      .ok (.string, n, a.bytes ++ rest) := readKind_encodeHead .string hlen (by simp)
  have htake : (a.bytes ++ rest).take n = a.bytes := take_left' a.length_eq
  have hdrop : (a.bytes ++ rest).drop n = rest := drop_left' a.length_eq
  rw [encodeBytes, if_neg (by simp; omega), append_assoc, a.length_bytes]
  simp only [decodeByteArray, hkind, Except.ok_bind, Nat.lt_irrefl, htake, hdrop,
    FixedBytes.ofBytes_bytes, if_false]
  rw [if_neg (by omega)]
  rfl

theorem decodeList_encodeList {α : Type} {body : Bytes → Except Error (α × Bytes)} {a : α}
    {payload : Bytes} (rest : Bytes) (hlen : payload.length < 2 ^ 64)
    (hbody : body payload = .ok (a, [])) :
    decodeList body inList (encodeList payload ++ rest) = .ok (a, rest) := by
  have hkind : readKind inList (encodeHead 0xC0 0xF7 payload.length ++ (payload ++ rest)) =
      .ok (.list, payload.length, payload ++ rest) := readKind_encodeHead .list hlen (by simp)
  simp only [encodeList, append_assoc, decodeList, hkind, Except.ok_bind, take_left,
    hbody, drop_left]
  rfl

theorem decodeList_of_lt {α : Type} {body : Bytes → Except Error (α × Bytes)} {b : UInt8}
    (h : b.toNat < 0x80) : decodeList body inList (b :: rest) = .error .expectedList := by
  simp [decodeList, readKind, h]

@[simp] theorem field_ok {α : Type} (a : α) : field (.ok a) = .ok a := rfl

/-! ## Lengths of encodings -/

theorem encodeHead_length_le {smallTag largeTag : ℕ} (h : size < 2 ^ 64) :
    (encodeHead smallTag largeTag size).length ≤ 9 := by
  have hle : (beBytes size).length ≤ 8 := beBytes_length_le (by norm_num; omega)
  rw [encodeHead]
  split_ifs
  · simp
  · simp only [length_cons]
    omega

theorem encodeBytes_length_le (h : bs.length < 2 ^ 64) :
    (encodeBytes bs).length ≤ bs.length + 9 := by
  rw [encodeBytes]
  split_ifs
  · omega
  · have hhead : (encodeHead 0x80 0xB7 bs.length).length ≤ 9 := encodeHead_length_le h
    rw [length_append]
    omega

theorem encodeUint64_length_le (v : UInt64) : (encodeUint64 v).length ≤ 17 := by
  have hle : (beBytes v.toNat).length ≤ 8 := beBytes_length_le (by simpa using v.toNat_lt)
  have hbytes : (encodeBytes (beBytes v.toNat)).length ≤ (beBytes v.toNat).length + 9 :=
    encodeBytes_length_le (by omega)
  simp only [encodeUint64, encodeBigInt]
  omega

theorem encodeList_length_le {payload : Bytes} (h : payload.length < 2 ^ 64) :
    (encodeList payload).length ≤ payload.length + 9 := by
  have hhead : (encodeHead 0xC0 0xF7 payload.length).length ≤ 9 := encodeHead_length_le h
  rw [encodeList, length_append]
  omega

theorem encodeList_ne_nil (payload : Bytes) : encodeList payload ≠ [] := by
  rw [encodeList, encodeHead]
  split_ifs <;> simp

end Rlp
