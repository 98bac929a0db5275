import ChilizChain.Codec.Canonical

/-! # The raw readers

`Split`, `SplitString`, `SplitList` and `CountValues` work on slices and parse heads on their
own. Applied to a whole input, and again to the content of every list, they give the same values
as a `Stream`: the same kinds, sizes and contents, and they fail on the same inputs. -/

namespace ChilizChain.Codec

open Bytes Stateful Rlp List Except Nat

/-! ## Model -/

variable (b : Bytes)

def readSize (slen : ℕ) : Except StreamError ℕ :=
  if b.length < slen then .error .unexpectedEOF
  else if beNat (b.take slen) < 56 ∨ b.head? = some 0 then .error .canonSize
  else .ok (beNat (b.take slen))

/-- Values may not be larger than the slice. -/
def fitting (buf : Bytes) (k : Kind) (tagsize contentsize : ℕ) :
    Except StreamError (Kind × ℕ × ℕ) :=
  if buf.length - tagsize < contentsize then .error .valueTooLarge
  else .ok (k, tagsize, contentsize)

/-- `readKind` on a slice: kind, size of the tag, size of the content. -/
def rawReadKind (buf : Bytes) : Except StreamError (Kind × ℕ × ℕ) :=
  match buf with
  | [] => .error .unexpectedEOF
  | b :: rest =>
    if b.toNat < 0x80 then fitting buf .byte 0 1
    else if b.toNat < 0xB8 then
      if b.toNat - 0x80 = 1 ∧ (rest.take 1).any (·.toNat < 128) then .error .canonSize
      else fitting buf .string 1 (b.toNat - 0x80)
    else if b.toNat < 0xC0 then do
      let size ← readSize rest (b.toNat - 0xB7)
      fitting buf .string (b.toNat - 0xB7 + 1) size
    else if b.toNat < 0xF8 then fitting buf .list 1 (b.toNat - 0xC0)
    else do
      let size ← readSize rest (b.toNat - 0xF7)
      fitting buf .list (b.toNat - 0xF7 + 1) size

/-- Kind and content of the first value, and the bytes after it. -/
def split : Except StreamError (Kind × Bytes × Bytes) := do
  let (k, ts, cs) ← rawReadKind b
  return (k, slice b ts (ts + cs), b.drop (ts + cs))

def splitString : Except StreamError (Bytes × Bytes) := do
  let (k, content, rest) ← split b
  if k = .list then throw .expectedString
  return (content, rest)

def splitList : Except StreamError (Bytes × Bytes) := do
  let (k, content, rest) ← split b
  if k ≠ .list then throw .expectedList
  return (content, rest)

/-- The loop of `CountValues`. Every value takes a byte, so the length is enough fuel. -/
def countFrom : ℕ → ℕ → Bytes → Except StreamError ℕ
  | _, i, [] => .ok i
  | 0, _, _ => .error .outOfFuel
  | fuel + 1, i, b => do
    let (_, tagsize, size) ← rawReadKind b
    countFrom fuel (i + 1) (b.drop (tagsize + size))

def countValues : Except StreamError ℕ := countFrom b.length 0 b

/-- A value as a reader reports it: its kind, how many bytes it takes, and its content. A list
also has the size of its content and the number of its items. -/
inductive Report
  | leaf (kind : Kind) (total : ℕ) (content : Bytes)
  | list (total size count : ℕ) (items : List Report)

/-- Splitting item by item, and the content of every list again. -/
def rawItems : ℕ → Bytes → Except StreamError (List Report)
  | _, [] => .ok []
  | 0, _ => .error .outOfFuel
  | fuel + 1, b => do
    let (k, _, rest) ← split b
    let report ←
      if k = .list then do
        let (content, _) ← splitList b
        let count ← countValues content
        let items ← rawItems fuel content
        pure (.list (b.length - rest.length) content.length count items)
      else do
        let (content, _) ← splitString b
        pure (.leaf k (b.length - rest.length) content)
    let reports ← rawItems fuel rest
    return report :: reports

/-- The bytes that the reader has not handed out. -/
def left : StreamM ℕ := return (← get).r.length

/-- A value with a stream, from the position `start` on: `Kind`, then `Bytes`, or `List`, the
items and `ListEnd`. -/
def streamValue (item : StreamM Report) (fuel start : ℕ) : StreamM Report := do
  let ahead ← kind
  if ahead.1 = .list then
    let size ← list
    let items ← decodeSliceElems item fuel
    listEnd
    return .list (start - (← left)) size items.length items
  else
    let content ← bytes
    return .leaf ahead.1 (start - (← left)) content

def streamItem : ℕ → StreamM Report
  | 0 => throw .outOfFuel
  | fuel + 1 => do
    let start ← left
    streamValue (streamItem fuel) fuel start

/-- The items up to the end of the input. -/
def streamItems : ℕ → StreamM (List Report)
  | 0 => throw .outOfFuel
  | fuel + 1 => do
    let start ← left
    match ← attempt kind with
    | .error .eof => return []
    | .error e => throw e
    | .ok _ =>
      let item ← streamValue (streamItem fuel) fuel start
      return item :: (← streamItems fuel)

def readRaw : Except StreamError (List Report) := rawItems (b.length + 1) b

/-- The input is read through a reader that tells its length. -/
def readStream : Except StreamError (List Report) :=
  (exec (streamItems (b.length + 2)) (reset b 0 true)).1

/-! ## Heads on a slice -/

section slices

variable {b : UInt8} {rest : Bytes} {k : Kind} {small large : ℕ}

theorem rawReadKind_byte (h : b.toNat < 0x80) : rawReadKind (b :: rest) = .ok (.byte, 0, 1) := by
  simp [rawReadKind, h, fitting]

theorem rawReadKind_short (htags : Tags k small large) (hge : small ≤ b.toNat)
    (hlt : b.toNat < small + 56)
    (hcanon : k = .string → ¬ (b.toNat - small = 1 ∧ (rest.take 1).any (·.toNat < 128))) :
    rawReadKind (b :: rest) = fitting (b :: rest) k 1 (b.toNat - small) := by
  rw [rawReadKind]
  cases htags with
  | string => rw [if_neg (by omega), if_pos (by omega), if_neg (hcanon rfl)]
  | list => rw [if_neg (by omega), if_neg (by omega), if_neg (by omega), if_pos (by omega)]

theorem rawReadKind_long (htags : Tags k small large) (hgt : large < b.toNat)
    (hle : b.toNat ≤ large + 8) : rawReadKind (b :: rest) = readSize rest (b.toNat - large) >>=
      fitting (b :: rest) k (b.toNat - large + 1) := by
  rw [rawReadKind]
  cases htags with
  | string => rw [if_neg (by omega), if_neg (by omega), if_pos (by omega)]
  | list => rw [if_neg (by omega), if_neg (by omega), if_neg (by omega), if_neg (by omega)]

end slices

variable {b : Bytes} {size : ℕ}

theorem readSize_eq_ok {slen : ℕ} (h : readSize b slen = .ok size) :
    slen ≤ b.length ∧ SizeBytes slen size (b.take slen) := by
  rw [readSize] at h
  split_ifs at h with hlen hcanon
  obtain rfl := Except.ok.inj h
  have hle : slen ≤ b.length := not_lt.mp hlen
  push Not at hcanon
  refine ⟨hle, by simp [hle], rfl, ?_, hcanon.1⟩
  intro hzero
  apply hcanon.2
  cases slen with
  | zero => simp at hzero
  | succ n =>
    cases b with
    | nil => simp at hzero
    | cons c b => simpa using hzero

variable {bs rest : Bytes}

theorem readSize_ok (h : SizeBytes bs.length size bs) :
    readSize (bs ++ rest) bs.length = .ok size := by
  have hlead : (bs ++ rest).head? ≠ some 0 := by
    cases bs with
    | nil => exact absurd (h.value ▸ h.large) (by simp [beNat])
    | cons c bs => simpa using h.lead
  have hcanon : ¬ (size < 56 ∨ (bs ++ rest).head? = some 0) := by
    rintro (hlt | hzero)
    · exact absurd h.large (not_le.mpr hlt)
    · exact hlead hzero
  rw [readSize, if_neg (by simp), take_left, h.value, if_neg hcanon]

/-- A slice starts with a head of kind `k` and size `size`, and the content fits behind it. -/
structure HeadAt (buf : Bytes) (k : Kind) (size : ℕ) (hd tail : Bytes) : Prop where
  head : Head k size 0 hd
  sized : k ≠ .byte
  eq : buf = hd ++ tail
  fits : size ≤ tail.length
  canon : k = .string → ¬ (size = 1 ∧ (tail.take 1).any (·.toNat < 128))

variable {buf : Bytes} {k : Kind}

theorem fitting_eq_ok {k' : Kind} {ts ts' cs cs' : ℕ}
    (h : fitting buf k ts cs = .ok (k', ts', cs')) :
    k' = k ∧ ts' = ts ∧ cs' = cs ∧ cs ≤ buf.length - ts := by
  rw [fitting] at h
  split_ifs at h with hlt
  simp only [Except.ok.injEq, Prod.mk.injEq] at h
  exact ⟨h.1.symm, h.2.1.symm, h.2.2.symm, not_lt.mp hlt⟩

theorem rawReadKind_eq_ok {ts cs : ℕ} (h : rawReadKind buf = .ok (k, ts, cs)) :
    (∃ c tail, buf = c :: tail ∧ c.toNat < 0x80 ∧ k = .byte ∧ ts = 0 ∧ cs = 1) ∨
      ∃ hd tail, HeadAt buf k cs hd tail ∧ ts = hd.length := by
  cases buf with
  | nil => simp [rawReadKind] at h
  | cons b rest =>
    rcases Tags.cases b with h80 | ⟨kind, small, large, htags, ⟨hge, hlt⟩ | ⟨hgt, hle⟩⟩
    · rw [rawReadKind_byte h80] at h
      simp only [Except.ok.injEq, Prod.mk.injEq] at h
      exact .inl ⟨b, rest, rfl, h80, h.1.symm, h.2.1.symm, h.2.2.symm⟩
    · have hcanon : kind = .string →
          ¬ (b.toNat - small = 1 ∧ (rest.take 1).any (·.toNat < 128)) := by
        rintro rfl hnot
        cases htags
        rw [rawReadKind, if_neg (by omega), if_pos (by omega), if_pos hnot] at h
        cases h
      rw [rawReadKind_short htags hge hlt hcanon] at h
      obtain ⟨rfl, rfl, rfl, hfits⟩ := fitting_eq_ok h
      have heq := encodeHead_short large hge hlt
      refine .inr ⟨[b], rest, ⟨?_, ?_, rfl, by simpa using hfits, hcanon⟩, rfl⟩
      · rw [← heq]
        exact .sized htags (by omega)
      · cases htags <;> simp
    · rw [rawReadKind_long htags hgt hle] at h
      obtain ⟨size, hsize, hfit⟩ := bind_eq_ok.mp h
      obtain ⟨rfl, rfl, rfl, hfits⟩ := fitting_eq_ok hfit
      obtain ⟨hslen, hbytes⟩ := readSize_eq_ok hsize
      have heq := hbytes.encodeHead small hgt.le rfl
      have hlen := hbytes.length
      have hlarge := hbytes.large
      refine .inr ⟨b :: rest.take (b.toNat - large), rest.drop (b.toNat - large),
        ⟨?_, ?_, ?_, ?_, ?_⟩, ?_⟩
      · rw [← heq]
        exact .sized htags (hbytes.lt (by omega))
      · cases htags <;> simp
      · simp
      · rw [length_cons] at hfits
        rw [length_drop]
        omega
      · intro _ hone
        omega
      · rw [length_cons, hlen]

variable {hd : Bytes}

theorem rawReadKind_ok {tail : Bytes} (h : HeadAt buf k size hd tail) :
    rawReadKind buf = .ok (k, hd.length, size) := by
  obtain ⟨hhead, hk, rfl, hfits, hcanon⟩ := h
  generalize hv : (0 : UInt8) = v at hhead
  cases hhead with
  | byte => exact absurd rfl hk
  | @sized _ small large _ htags hsize =>
    by_cases h56 : size < 56
    · obtain ⟨b, heq, hb⟩ := encodeHead_of_lt htags h56
      have hsub : b.toNat - small = size := by omega
      rw [heq, cons_append, nil_append,
        rawReadKind_short htags (by omega) (by omega) (by rwa [hsub]), hsub, fitting,
        if_neg (by simpa using hfits)]
      rfl
    · obtain ⟨b, bs, heq, hb, hpos, hle, hbytes⟩ :=
        encodeHead_of_ge htags (not_lt.mp h56) hsize
      have hsub : b.toNat - large = bs.length := by omega
      rw [heq, cons_append, rawReadKind_long htags (by omega) (by omega), hsub,
        readSize_ok hbytes, ok_bind, fitting, if_neg (by simp; omega)]
      rfl

/-! ## Splitting -/

theorem slice_tail (hd tail : Bytes) (n : ℕ) :
    slice (hd ++ tail) hd.length (hd.length + n) = tail.take n := by
  simp [slice, take_append, take_of_length_le]

theorem drop_tail (hd tail : Bytes) (n : ℕ) : (hd ++ tail).drop (hd.length + n) = tail.drop n := by
  simp [drop_append]

theorem take_one_canon {tail : Bytes} (hfits : size ≤ tail.length) :
    (tail.take size).length = 1 ∧ (tail.take size).all (·.toNat < 128) ↔
      size = 1 ∧ (tail.take 1).any (·.toNat < 128) := by
  rw [length_take, min_eq_left hfits]
  constructor
  · rintro ⟨rfl, hall⟩
    obtain ⟨c, tail, rfl⟩ := exists_cons_of_length_pos hfits
    exact ⟨rfl, by simpa using hall⟩
  · rintro ⟨rfl, hany⟩
    obtain ⟨c, tail, rfl⟩ := exists_cons_of_length_pos hfits
    exact ⟨rfl, by simpa using hany⟩

theorem Head.list_eq (h : Head .list size 0 hd) : hd = encodeHead 0xC0 0xF7 size := by
  generalize (0 : UInt8) = v at h
  cases h with
  | sized htags => cases htags; rfl

theorem Head.string_eq (h : Head .string size 0 hd) : hd = encodeHead 0x80 0xB7 size := by
  generalize (0 : UInt8) = v at h
  cases h with
  | sized htags => cases htags; rfl

variable {content : Bytes}

theorem split_eq_ok (h : split b = .ok (k, c, rest)) : k = leafKind c ∧ b = encodeBytes c ++ rest ∨
      k = .list ∧ b = encodeList c ++ rest := by
  obtain ⟨⟨k', ts, cs⟩, hkind, hpure⟩ := bind_eq_ok.mp h
  cases hpure
  rcases rawReadKind_eq_ok hkind with ⟨c, tail, rfl, hc, rfl, rfl, rfl⟩ | ⟨hd, tail, hat, rfl⟩
  · exact .inl ⟨by simp [slice, leafKind, hc], by simp [slice, encodeBytes, hc]⟩
  obtain ⟨hhead, hk, rfl, hfits, hcanon⟩ := hat
  have hlen : (tail.take cs).length = cs := by simp [hfits]
  rw [slice_tail, drop_tail]
  cases k with
  | byte => exact absurd rfl hk
  | string =>
    have hnot := mt (take_one_canon hfits).mp (hcanon rfl)
    refine .inl ⟨(if_neg hnot).symm, ?_⟩
    rw [encodeBytes, if_neg hnot, hlen, hhead.string_eq, append_assoc, take_append_drop]
  | list =>
    refine .inr ⟨rfl, ?_⟩
    rw [encodeList, hlen, hhead.list_eq, append_assoc, take_append_drop]

theorem split_of_headAt (h : HeadAt buf k c.length hd (c ++ rest)) :
    split buf = .ok (k, c, rest) := by
  rw [split, rawReadKind_ok h, ok_bind, h.eq]
  simp only [slice_tail, drop_tail, take_left, drop_left]
  rfl

theorem split_encodeBytes (hlen : c.length < 2 ^ 64) :
    split (encodeBytes c ++ rest) = .ok (leafKind c, c, rest) := by
  by_cases hone : c.length = 1 ∧ c.all (·.toNat < 128)
  · obtain ⟨b, rfl⟩ := length_eq_one_iff.mp hone.1
    have hb : b.toNat < 128 := by simpa using hone.2
    rw [encodeBytes, if_pos hone, leafKind, if_pos hone, split, singleton_append,
      rawReadKind_byte hb]
    simp [slice]
  · rw [leafKind, if_neg hone]
    refine split_of_headAt ⟨.sized .string hlen, by simp, ?_, by simp, fun _ hcanon => hone ?_⟩
    · rw [encodeBytes, if_neg hone, append_assoc]
    · have hle : c.length ≤ (c ++ rest).length := by simp
      have hiff := take_one_canon hle
      rw [take_left] at hiff
      exact hiff.mpr hcanon

theorem split_encodeList {payload : Bytes} (hlen : payload.length < 2 ^ 64) :
    split (encodeList payload ++ rest) = .ok (.list, payload, rest) := by
  refine split_of_headAt ⟨.sized .list hlen, by simp, ?_, by simp, by simp⟩
  rw [encodeList, append_assoc]

/-! ## What both readers report -/

mutual

/-- The report of a value in its canonical form. -/
def report : Item → Report
  | .string content => .leaf (leafKind content) (encodeBytes content).length content
  | .list items =>
    .list (encodeList (encodeItems items)).length (encodeItems items).length items.length
      (reports items)

def reports : List Item → List Report
  | [] => []
  | item :: items => report item :: reports items

end

theorem encodeItems_ne_nil (item : Item) (items : List Item) :
    encodeItems (item :: items) ≠ [] := by
  have := encodeItem_length_pos item
  intro h
  rw [encodeItems] at h
  rw [(append_eq_nil_iff.mp h).1] at this
  exact absurd this (by simp)

theorem split_encodeItem (item : Item) (rest : Bytes) (hlen : (encodeItem item).length < 2 ^ 64) :
    ∃ k c, split (encodeItem item ++ rest) = .ok (k, c, rest) ∧
      c.length ≤ (encodeItem item).length := by
  cases item with
  | string c =>
    rw [encodeItem] at hlen ⊢
    have hle := length_le_encodeBytes c
    exact ⟨_, _, split_encodeBytes (by omega), hle⟩
  | list items =>
    rw [encodeItem] at hlen ⊢
    have hlt := length_lt_encodeList (encodeItems items)
    exact ⟨_, _, split_encodeList (by omega), hlt.le⟩

theorem countFrom_split (fuel i : ℕ) (hne : b ≠ []) (h : split b = .ok (k, c, rest)) :
    countFrom (fuel + 1) i b = countFrom fuel (i + 1) rest := by
  obtain ⟨⟨k', ts, cs⟩, hkind, hpure⟩ := bind_eq_ok.mp h
  simp only [pure_eq_ok, Except.ok.injEq, Prod.mk.injEq] at hpure
  rw [countFrom, hkind, ok_bind]
  · dsimp only
    rw [hpure.2.2]
  · exact hne

variable {items : List Item} {fuel : ℕ}

theorem countFrom_encodeItems (i : ℕ) (hlen : (encodeItems items).length < 2 ^ 64)
    (hfuel : (encodeItems items).length ≤ fuel) :
    countFrom fuel i (encodeItems items) = .ok (i + items.length) := by
  induction items generalizing fuel i with
  | nil => simp [encodeItems, countFrom]
  | cons item items ih =>
    have hpos := encodeItem_length_pos item
    have hne := encodeItems_ne_nil item items
    rw [encodeItems] at hne hlen hfuel ⊢
    rw [length_append] at hlen hfuel
    obtain ⟨fuel, rfl⟩ : ∃ n, fuel = n + 1 := ⟨fuel - 1, by omega⟩
    obtain ⟨k, c, hsplit, -⟩ := split_encodeItem item (encodeItems items) (by omega)
    rw [countFrom_split fuel i hne hsplit, ih (i + 1) (by omega) (by omega), length_cons]
    congr 1
    omega

theorem countValues_encodeItems (hlen : (encodeItems items).length < 2 ^ 64) :
    countValues (encodeItems items) = .ok items.length := by
  rw [countValues, countFrom_encodeItems 0 hlen le_rfl, zero_add]

/-! ## The raw functions -/

theorem splitString_of_split (hk : k ≠ .list) (h : split b = .ok (k, c, rest)) :
    splitString b = .ok (c, rest) := by
  simp [splitString, h, hk]

theorem splitList_of_split (h : split b = .ok (.list, c, rest)) : splitList b = .ok (c, rest) := by
  simp [splitList, h]

theorem rawItems_leaf (fuel : ℕ) (hne : b ≠ []) (h : split b = .ok (leafKind c, c, rest)) :
    rawItems (fuel + 1) b = (rawItems fuel rest).map
      (.leaf (leafKind c) (b.length - rest.length) c :: ·) := by
  have hk := leafKind_ne_list c
  rw [rawItems, h, ok_bind]
  · simp only [if_neg hk, splitString_of_split hk h]
    rfl
  · exact hne

theorem rawItems_list (fuel : ℕ) (hne : b ≠ []) (h : split b = .ok (.list, c, rest)) :
    rawItems (fuel + 1) b = do
      let count ← countValues c
      let items ← rawItems fuel c
      let reports ← rawItems fuel rest
      return .list (b.length - rest.length) c.length count items :: reports := by
  rw [rawItems, h, ok_bind]
  · simp only [if_true, splitList_of_split h, ok_bind, pure_eq_ok]
  · exact hne

variable {rs : List Report}

theorem rawItems_sound (hlen : b.length < 2 ^ 64) (h : rawItems fuel b = .ok rs) :
    ∃ items, b = encodeItems items ∧ rs = reports items := by
  induction fuel generalizing b rs with
  | zero =>
    cases b with
    | nil =>
      obtain rfl := Except.ok.inj h
      exact ⟨[], by simp [encodeItems], by simp [reports]⟩
    | cons c b => simp [rawItems] at h
  | succ fuel ih =>
    by_cases hne : b = []
    · subst hne
      obtain rfl := Except.ok.inj h
      exact ⟨[], by simp [encodeItems], by simp [reports]⟩
    rcases hsplit : split b with e | ⟨k, c, rest⟩
    · rw [rawItems, hsplit] at h
      · cases h
      · exact hne
    rcases split_eq_ok hsplit with ⟨rfl, hb⟩ | ⟨rfl, hb⟩
    · rw [rawItems_leaf fuel hne hsplit] at h
      obtain ⟨rest', hrest, rfl⟩ := map_eq_ok_iff.mp h
      have hlen' := congrArg List.length hb
      rw [length_append] at hlen'
      obtain ⟨items, rfl, rfl⟩ := ih (by omega) hrest
      refine ⟨.string c :: items, by rw [hb, encodeItems, encodeItem], ?_⟩
      rw [reports, report, hlen', Nat.add_sub_cancel]
    · rw [rawItems_list fuel hne hsplit] at h
      obtain ⟨count, hcount, h⟩ := bind_eq_ok.mp h
      obtain ⟨inner, hinner, h⟩ := bind_eq_ok.mp h
      obtain ⟨rest', hrest, h⟩ := bind_eq_ok.mp h
      obtain rfl := Except.ok.inj h
      have hlen' := congrArg List.length hb
      rw [length_append] at hlen'
      have hlt := length_lt_encodeList c
      obtain ⟨items, rfl, rfl⟩ := ih (by omega) hrest
      obtain ⟨elems, rfl, rfl⟩ := ih (by omega) hinner
      rw [countValues_encodeItems (by omega)] at hcount
      obtain rfl := Except.ok.inj hcount
      refine ⟨.list elems :: items, by rw [hb, encodeItems, encodeItem], ?_⟩
      rw [reports, report, hlen', Nat.add_sub_cancel]

theorem rawItems_complete (hlen : (encodeItems items).length < 2 ^ 64)
    (hfuel : (encodeItems items).length ≤ fuel) :
    rawItems fuel (encodeItems items) = .ok (reports items) := by
  induction fuel generalizing items with
  | zero =>
    cases items with
    | nil => simp [encodeItems, rawItems, reports]
    | cons item items =>
      have := encodeItems_ne_nil item items
      exact absurd (length_eq_zero_iff.mp (by omega)) this
  | succ fuel ih =>
    cases items with
    | nil => simp [encodeItems, rawItems, reports]
    | cons item items =>
      have hpos := encodeItem_length_pos item
      have hne := encodeItems_ne_nil item items
      rw [encodeItems] at hne hlen hfuel ⊢
      have hlen' := hlen
      have hfuel' := hfuel
      rw [length_append] at hlen' hfuel'
      have hrest : rawItems fuel (encodeItems items) = .ok (reports items) :=
        ih (by omega) (by omega)
      cases item with
      | string c =>
        rw [encodeItem] at hne hlen' hfuel' ⊢
        have hle := length_le_encodeBytes c
        rw [rawItems_leaf fuel hne (split_encodeBytes (by omega)), hrest, reports, report,
          length_append, Nat.add_sub_cancel]
        rfl
      | list elems =>
        rw [encodeItem] at hne hlen' hfuel' ⊢
        have hlt := length_lt_encodeList (encodeItems elems)
        have hinner : rawItems fuel (encodeItems elems) = .ok (reports elems) :=
          ih (by omega) (by omega)
        rw [rawItems_list fuel hne (split_encodeList (by omega)),
          countValues_encodeItems (by omega), hinner, hrest, reports, report, length_append,
          Nat.add_sub_cancel]
        rfl

/-! ## The stream -/

/-- The report of a value next to its canonical form. -/
def Reported (r : Report) (bs : Bytes) : Prop := ∃ v, bs = encodeItem v ∧ r = report v

theorem reported_flatten {bss : List Bytes} (h : List.Forall₂ Reported rs bss) :
    ∃ items, bss.flatten = encodeItems items ∧ rs = reports items := by
  induction h with
  | nil => exact ⟨[], by simp [encodeItems], by simp [reports]⟩
  | cons hfirst _ ih =>
    obtain ⟨v, rfl, rfl⟩ := hfirst
    obtain ⟨items, hflat, rfl⟩ := ih
    exact ⟨v :: items, by rw [flatten_cons, hflat, encodeItems], by rw [reports]⟩

theorem reported_forms (items : List Item) :
    List.Forall₂ Reported (reports items) (items.map encodeItem) := by
  induction items with
  | nil => rw [reports]; exact .nil
  | cons item items ih =>
    rw [reports]
    exact .cons ⟨item, rfl, rfl⟩ ih

theorem reports_length (items : List Item) : (reports items).length = items.length := by
  induction items with
  | nil => rw [reports]; rfl
  | cons item items ih => rw [reports, length_cons, ih, length_cons]

variable {s s' : Stream}

theorem left_sub (h : Consumed s s' bs) : s.r.length - s'.r.length = bs.length := by
  rw [h.input, length_append, Nat.add_sub_cancel]

@[simp] theorem exec_left (s : Stream) : exec left s = (.ok s.r.length, s) := rfl

theorem streamItem_succ (fuel : ℕ) (s : Stream) : exec (streamItem (fuel + 1)) s =
      exec (streamValue (streamItem fuel) fuel s.r.length) s := by
  rw [streamItem, exec_bind_ok (exec_left s)]

theorem streamItem_sound (fuel : ℕ) : Sound (streamItem fuel) Reported := by
  induction fuel with
  | zero => exact ⟨fun _ _ _ _ _ h => by simp [streamItem] at h,
      fun _ _ _ h => by simp [streamItem] at h⟩
  | succ fuel ih =>
    constructor
    · intro s r s' harmed hlen h
      rw [streamItem_succ] at h
      obtain ⟨⟨k, size⟩, s₁, hkind, hrest⟩ := exec_bind_eq_ok h
      obtain ⟨hd, hhead, hmoved, hahead⟩ := kind_eq_ok harmed hkind
      split_ifs at hrest with hk
      · obtain rfl : k = .list := hk
        rw [exec_bind_ok (list_ahead hahead)] at hrest
        obtain ⟨items, s₂, helems, hrest⟩ := exec_bind_eq_ok hrest
        obtain ⟨⟨⟩, s₃, hend, hrest⟩ := exec_bind_eq_ok hrest
        cases hrest
        generalize s₁.byteval = v at hhead
        cases hhead with
        | sized htags hsize =>
          cases htags
          obtain ⟨bss, hRs, hlength, hconsumed⟩ :=
            elements_sound ih hlen hsize hmoved helems hend
          obtain ⟨vs, hflat, rfl⟩ := reported_flatten hRs
          rw [hflat] at hconsumed hlength
          refine ⟨_, ⟨.list vs, by rw [encodeItem], ?_⟩, hconsumed⟩
          rw [report, left_sub hconsumed, hlength, reports_length]
      · obtain ⟨c, s₂, hbytes, hrest⟩ := exec_bind_eq_ok hrest
        cases hrest
        obtain ⟨rfl, hconsumed⟩ := bytes_eq_ok hmoved hahead hhead hbytes
        refine ⟨_, ⟨.string c, by rw [encodeItem], ?_⟩, hconsumed⟩
        rw [report, left_sub hconsumed]
    · intro s s' harmed h
      rw [streamItem_succ] at h
      rcases exec_bind_eq_error h with hkind | ⟨⟨k, size⟩, s₁, hkind, h⟩
      · exact kind_eq_eol harmed hkind
      · -- after the head no step ends in `EOL`
        obtain ⟨hd, hhead, hmoved, hahead⟩ := kind_eq_ok harmed hkind
        split_ifs at h with hk
        · subst hk
          rw [exec_bind_ok (list_ahead hahead)] at h
          have hne := Raises.bind (decodeSliceElems_raises fuel) (fun _ => .bind listEnd_raises
            fun _ => .bind (.bind .get fun _ => .pure _) fun _ => .pure _) _ _ _ h
          exact absurd rfl hne
        · rcases exec_bind_eq_error h with hbytes | ⟨c, s₂, -, hpure⟩
          · exact absurd rfl (bytes_ne_eol hahead hbytes)
          · cases hpure

theorem streamItem_complete (hpos : 0 < fuel) (hfuel : fuel ≤ 2 ^ 64) :
    Complete (streamItem fuel) Reported fuel := by
  induction fuel with
  | zero => exact absurd hpos (by simp)
  | succ fuel ih =>
    constructor
    · rintro s r bs rest harmed ⟨v, rfl, rfl⟩ hlen hr hroom hlt
      cases v with
      | string c =>
        rw [encodeItem] at hlen hr hroom ⊢
        have hle := length_le_encodeBytes c
        obtain ⟨size, s₁, s', hkind, hbytes, hconsumed⟩ :=
          bytes_ok harmed hr (by omega) hroom hlt
        refine ⟨s', ?_, hconsumed⟩
        rw [streamItem_succ, streamValue, exec_bind_ok hkind, if_neg (leafKind_ne_list c),
          exec_bind_ok hbytes, exec_bind_ok (exec_left s'), exec_pure, left_sub hconsumed, report]
      | list items =>
        have hlt' := length_lt_encodeList (encodeItems items)
        rw [encodeItem] at hlen hr hroom ⊢
        have hflat := flatten_of_forms (forms items)
        rw [← hflat] at hlen hr hroom hlt' ⊢
        have hpayload : (items.map encodeItem).flatten.length < fuel := by omega
        have hform : ∀ r bs, Reported r bs → 0 < bs.length := by
          rintro _ _ ⟨v, rfl, -⟩
          exact encodeItem_length_pos v
        obtain ⟨s₁, s₂, s₃, hkind, hahead, helems, hend, hconsumed⟩ :=
          elements_complete (ih (by omega) (by omega)) (reported_forms items) hform hpayload
            hpayload harmed hr (by omega) hroom hlt
        refine ⟨s₃, ?_, hconsumed⟩
        rw [streamItem_succ, streamValue, exec_bind_ok hkind, if_pos rfl,
          exec_bind_ok (list_ahead hahead)]
        refine (exec_bind_ok helems).trans ((exec_bind_ok hend).trans ?_)
        rw [exec_bind_ok (exec_left s₃), exec_pure, left_sub hconsumed, report, reports_length,
          hflat]
    · intro s harmed hend
      rw [streamItem_succ, streamValue, exec_bind_error (kind_eol harmed hend)]

/-- A stream over the whole input, at top level. -/
structure AtTop (s : Stream) : Prop where
  armed : s.kind = none
  stack : s.stack = []
  limited : s.limited = true
  remaining : s.remaining = s.r.length

theorem AtTop.of_consumed (h : AtTop s) (hc : Consumed s s' bs) :
    AtTop s' where
  armed := hc.armed
  stack := by rw [hc.stack, h.stack, lower]
  limited := hc.limited.trans h.limited
  remaining := by
    have h1 := hc.remaining h.limited
    have h2 := congrArg List.length hc.input
    rw [length_append] at h2
    rw [h.remaining] at h1
    omega

theorem AtTop.kind_eof (h : AtTop s) (hr : s.r = []) : ∃ s', exec kind s = (.error .eof, s') := by
  have hbyte : exec readByte s = (.error .valueTooLarge, s) := by
    obtain ⟨r, remaining, size, kinderr, stack, kind, byteval, limited⟩ := s
    obtain ⟨rfl, rfl, rfl, hrem⟩ := h
    obtain rfl : r = [] := hr
    obtain rfl : remaining = 0 := hrem
    rfl
  have hread : exec readKind s = (.ok (.byte, 0, some .eof), s) := by
    rw [readKind, exec_bind, exec_attempt, hbyte]
    simp only [exec_bind, exec_get, exec_pure, h.stack, if_true, atTop]
  rw [exec_kind h.armed (by simp [h.stack]) hread]
  exact ⟨_, rfl⟩

/-- A round of `streamItems`: after `Kind` the value ahead is read as if `Kind` had not been
called. -/
theorem streamItems_value {s₁ : Stream} {ahead : Kind × ℕ} (harmed : s.kind = none)
    (hkind : exec kind s = (.ok ahead, s₁)) :
    exec (streamItems (fuel + 1)) s = exec (do
      let item ← streamItem (fuel + 1)
      return item :: (← streamItems fuel)) s := by
  obtain ⟨k, size⟩ := ahead
  obtain ⟨-, -, -, hahead⟩ := kind_eq_ok harmed hkind
  have hsame : exec (streamValue (streamItem fuel) fuel s.r.length) s₁ =
      exec (streamItem (fuel + 1)) s := by
    rw [streamItem_succ, streamValue, exec_bind_ok (kind_ahead hahead), exec_bind_ok hkind]
  rw [streamItems, exec_bind_ok (exec_left s), exec_bind, exec_attempt, hkind]
  dsimp only
  rw [exec_bind, exec_bind, hsame]

theorem streamItems_sound (htop : AtTop s) (hlen : s.r.length < 2 ^ 63)
    (h : exec (streamItems fuel) s = (.ok rs, s')) :
    ∃ items, s.r = encodeItems items ∧ rs = reports items := by
  induction fuel generalizing s rs with
  | zero => simp [streamItems] at h
  | succ fuel ih =>
    rcases hkind : exec kind s with ⟨e | ahead, s₁⟩
    · rw [streamItems, exec_bind_ok (exec_left s), exec_bind, exec_attempt, hkind] at h
      by_cases he : e = .eof
      · subst he
        have hnil := kind_eq_eof htop.armed htop.stack htop.remaining hkind
        simp only [exec_pure, Prod.mk.injEq, Except.ok.injEq] at h
        exact ⟨[], by rw [hnil, encodeItems], by rw [← h.1, reports]⟩
      · have herr : exec (throw e : StreamM (List Report)) s₁ = (.ok rs, s') := by
          cases e <;> first | exact absurd rfl he | exact h
        cases herr
    · rw [streamItems_value htop.armed hkind] at h
      obtain ⟨item, s₂, hitem, hrest⟩ := exec_bind_eq_ok h
      obtain ⟨items, s₃, hitems, hpure⟩ := exec_bind_eq_ok hrest
      obtain ⟨rfl, rfl⟩ := ok_inj hpure
      obtain ⟨bs, ⟨v, rfl, rfl⟩, hconsumed⟩ :=
        (streamItem_sound (fuel + 1)).value _ _ _ htop.armed hlen hitem
      have hinput := hconsumed.input
      have hlen' : s₂.r.length < 2 ^ 63 := by
        rw [hinput, length_append] at hlen
        omega
      obtain ⟨vs, hvs, rfl⟩ := ih (htop.of_consumed hconsumed) hlen' hitems
      exact ⟨v :: vs, by rw [hinput, hvs, encodeItems], by rw [reports]⟩

theorem streamItems_complete (htop : AtTop s) (hr : s.r = encodeItems items)
    (hfuel : s.r.length < fuel) (hle : fuel ≤ 2 ^ 64) :
    ∃ s', exec (streamItems fuel) s = (.ok (reports items), s') := by
  induction items generalizing fuel s with
  | nil =>
    obtain ⟨fuel, rfl⟩ : ∃ n, fuel = n + 1 := ⟨fuel - 1, by omega⟩
    obtain ⟨s₁, hkind⟩ := htop.kind_eof (hr.trans (by rw [encodeItems]))
    refine ⟨s₁, ?_⟩
    rw [streamItems, exec_bind_ok (exec_left s), exec_bind, exec_attempt, hkind, reports]
    rfl
  | cons v items ih =>
    obtain ⟨fuel, rfl⟩ : ∃ n, fuel = n + 1 := ⟨fuel - 1, by omega⟩
    have hpos := encodeItem_length_pos v
    rw [encodeItems] at hr
    have hlen := congrArg List.length hr
    rw [length_append] at hlen
    have hroom : Room s (encodeItem v).length :=
      ⟨by simp [htop.stack], fun _ => by rw [htop.remaining]; omega⟩
    obtain ⟨s₂, hitem, hconsumed⟩ := (streamItem_complete (succ_pos fuel) hle).value s _ _ _
      htop.armed ⟨v, rfl, rfl⟩ (by omega) hr hroom (by simp [htop.stack])
    have hr₂ := append_cancel_left (hconsumed.input.symm.trans hr)
    have hfuel₂ : s₂.r.length < fuel := by rw [hr₂]; omega
    obtain ⟨s₃, hitems⟩ := ih (htop.of_consumed hconsumed) hr₂ hfuel₂ (by omega)
    obtain ⟨ahead, s₁, hkind, -⟩ := exec_bind_eq_ok (streamItem_succ fuel s ▸ hitem)
    refine ⟨s₃, ?_⟩
    rw [streamItems_value htop.armed hkind, exec_bind_ok hitem, exec_bind_ok hitems, exec_pure,
      reports]

/-! ## Agreement -/

theorem readRaw_eq_ok (hlen : b.length < 2 ^ 63) :
    readRaw b = .ok rs ↔ ∃ items, b = encodeItems items ∧ rs = reports items := by
  constructor
  · intro h
    exact rawItems_sound (by omega) h
  · rintro ⟨items, rfl, rfl⟩
    exact rawItems_complete (by omega) (by omega)

theorem readStream_eq_ok (hlen : b.length < 2 ^ 63) :
    readStream b = .ok rs ↔ ∃ items, b = encodeItems items ∧ rs = reports items := by
  have htop : AtTop (reset b 0 true) := ⟨rfl, rfl, rfl, rfl⟩
  constructor
  · intro h
    exact streamItems_sound htop hlen (Prod.ext h rfl)
  · rintro ⟨items, rfl, rfl⟩
    have hfuel : (reset (encodeItems items) 0 true).r.length < (encodeItems items).length + 2 := by
      simp [reset]
    obtain ⟨s', hexec⟩ := streamItems_complete htop rfl hfuel (by omega)
    rw [readStream, hexec]

/-- The two readers agree on every input: what one of them reads the other reads too, with the
same kinds, sizes, contents and numbers of items. Both read exactly the inputs that are a
sequence of values in their canonical form. -/
theorem readers_agree (b : Bytes) (hlen : b.length < 2 ^ 63) (rs : List Report) :
    readRaw b = .ok rs ↔ readStream b = .ok rs :=
  (readRaw_eq_ok hlen).trans (readStream_eq_ok hlen).symm

/-- A list of a string and an empty list, followed by a string. -/
theorem readers_agree_nested : readRaw [0xC2, 0x00, 0xC0, 0x81, 0x80] =
        .ok [.list 3 2 2 [.leaf .byte 1 [0x00], .list 1 0 0 []], .leaf .string 2 [0x80]] ∧
      readStream [0xC2, 0x00, 0xC0, 0x81, 0x80] =
        .ok [.list 3 2 2 [.leaf .byte 1 [0x00], .list 1 0 0 []], .leaf .string 2 [0x80]] := by
  have hraw : readRaw [0xC2, 0x00, 0xC0, 0x81, 0x80] =
      .ok [.list 3 2 2 [.leaf .byte 1 [0x00], .list 1 0 0 []], .leaf .string 2 [0x80]] :=
    (readRaw_eq_ok (by decide)).mpr
      ⟨[.list [.string [0x00], .list []], .string [0x80]], by decide, rfl⟩
  exact ⟨hraw, (readers_agree _ (by decide) _).mp hraw⟩

end ChilizChain.Codec
