import ChilizChain.Lib.RlpTree

/-! # The encoder

`EncodeToBytes` collects the output in a buffer that holds the string data and, apart from it,
the list headers: the size of a list is known only when its last element was written. The pieces
are put together at the end. The result is the canonical form of the value. -/

namespace ChilizChain.Codec

open Bytes Rlp List

/-! ## Model -/

structure ListHead where
  /-- Where the header stands in the string data. -/
  offset : ℕ
  size : ℕ

/-- The size of a header; `intsize` is the number of bytes of the size. -/
def headsize (size : ℕ) : ℕ := if size < 56 then 1 else 1 + (beBytes size).length

def ListHead.encode (head : ListHead) : Bytes := encodeHead 0xC0 0xF7 head.size

structure EncBuffer where
  str : Bytes
  lheads : List ListHead
  lhsize : ℕ

namespace EncBuffer

def empty : EncBuffer := ⟨[], [], 0⟩

variable (buf : EncBuffer)

def size : ℕ := buf.str.length + buf.lhsize

/-- `copyTo` from the position `strpos` of the string data on. -/
def copyFrom (str : Bytes) (strpos : ℕ) : List ListHead → Bytes
  | [] => str.drop strpos
  | head :: heads => slice str strpos head.offset ++ head.encode ++ copyFrom str head.offset heads

def makeBytes : Bytes := copyFrom buf.str 0 buf.lheads

def write (b : Bytes) : EncBuffer := { buf with str := buf.str ++ b }

def encodeStringHeader (size : ℕ) : EncBuffer :=
  buf.write (encodeHead 0x80 0xB7 size)

def writeBytes (b : Bytes) : EncBuffer :=
  if b.length = 1 ∧ b.all (·.toNat ≤ 0x7F) then buf.write b
  else (buf.encodeStringHeader b.length).write b

/-- A new list header; its index is the number of headers before it. -/
def list : EncBuffer :=
  { buf with lheads := buf.lheads ++ [⟨buf.str.length, buf.lhsize⟩] }

def listEnd (index : ℕ) : EncBuffer :=
  match buf.lheads[index]? with
  | none => buf
  | some lh =>
    let size := buf.size - lh.offset - lh.size
    { buf with
      lheads := buf.lheads.set index { lh with size := size }
      lhsize := buf.lhsize + headsize size }

mutual

/-- The writer of an interface value. -/
def writeItem (buf : EncBuffer) : Item → EncBuffer
  | .string content => buf.writeBytes content
  | .list [] => buf.write [0xC0]
  | .list (item :: items) =>
    (writeItems (writeItem buf.list item) items).listEnd buf.lheads.length

def writeItems (buf : EncBuffer) : List Item → EncBuffer
  | [] => buf
  | item :: items => writeItems (writeItem buf item) items

end

end EncBuffer

def encodeToBytes (v : Item) : Bytes := (EncBuffer.empty.writeItem v).makeBytes

/-! ## The pieces -/

namespace EncBuffer

theorem headsize_eq (size : ℕ) : headsize size = (encodeHead 0xC0 0xF7 size).length := by
  rw [headsize, encodeHead]
  split <;> simp [Nat.add_comm]

theorem copyFrom_append {str more : Bytes} {heads heads' : List ListHead} {strpos : ℕ}
    (hpos : strpos ≤ str.length) (h : ∀ head ∈ heads, head.offset ≤ str.length)
    (h' : ∀ head ∈ heads', str.length ≤ head.offset) :
    copyFrom (str ++ more) strpos (heads ++ heads') =
      copyFrom str strpos heads ++ copyFrom (str ++ more) str.length heads' := by
  induction heads generalizing strpos with
  | nil =>
    cases heads' with
    | nil => simp [copyFrom, drop_append_of_le_length hpos]
    | cons head heads' =>
      have hslice : slice (str ++ more) strpos head.offset =
          str.drop strpos ++ slice (str ++ more) str.length head.offset := by
        have hle := h' head (by simp)
        simp [slice, take_append, take_of_length_le hle, drop_append_of_le_length hpos]
      simp [copyFrom, hslice, append_assoc]
  | cons head heads ih =>
    have hle := h head (by simp)
    rw [cons_append, copyFrom, copyFrom, ih hle fun g hg => h g (by simp [hg]),
      slice_append_left str more hle]
    simp only [append_assoc]

/-- The buffer grew by output that reads `bs`. Headers of lists that are still open stand before
it and are not looked at. -/
structure Writes (buf buf' : EncBuffer) (bs : Bytes) : Prop where
  str : ∃ more, buf'.str = buf.str ++ more
  size : buf'.size = buf.size + bs.length
  lheads : ∃ heads, buf'.lheads = buf.lheads ++ heads ∧
    (∀ head ∈ heads, buf.str.length ≤ head.offset ∧ head.offset ≤ buf'.str.length) ∧
    copyFrom buf'.str buf.str.length heads = bs

variable (buf : EncBuffer)

theorem Writes.refl : Writes buf buf [] :=
  ⟨⟨[], by simp⟩, by simp, [], by simp, by simp, by simp [copyFrom]⟩

theorem Writes.trans {buf buf' buf'' : EncBuffer} {a b : Bytes} (h : Writes buf buf' a)
    (h' : Writes buf' buf'' b) : Writes buf buf'' (a ++ b) := by
  obtain ⟨⟨more, hstr⟩, hsize, heads, hheads, hoffsets, hcopy⟩ := h
  obtain ⟨⟨more', hstr'⟩, hsize', heads', hheads', hoffsets', hcopy'⟩ := h'
  have hle : buf.str.length ≤ buf'.str.length := by simp [hstr]
  have hle' : buf'.str.length ≤ buf''.str.length := by simp [hstr']
  refine ⟨⟨more ++ more', by rw [hstr', hstr, append_assoc]⟩, ?_, heads ++ heads', ?_, ?_, ?_⟩
  · rw [hsize', hsize, length_append]
    omega
  · rw [hheads', hheads, append_assoc]
  · intro head hmem
    rcases mem_append.mp hmem with hmem | hmem
    · exact ⟨(hoffsets head hmem).1, (hoffsets head hmem).2.trans hle'⟩
    · exact ⟨hle.trans (hoffsets' head hmem).1, (hoffsets' head hmem).2⟩
  · rw [hstr', copyFrom_append hle (fun head hmem => (hoffsets head hmem).2)
      (fun head hmem => (hoffsets' head hmem).1), hcopy, ← hstr', hcopy']

theorem writes_write (b : Bytes) : Writes buf (buf.write b) b := by
  refine ⟨⟨b, rfl⟩, ?_, [], by simp [write], by simp, by simp [copyFrom, write]⟩
  simp only [size, write, length_append]
  omega

theorem writes_writeBytes (b : Bytes) : Writes buf (buf.writeBytes b) (encodeBytes b) := by
  have hsmall : b.length = 1 ∧ b.all (·.toNat ≤ 0x7F) ↔ b.length = 1 ∧ b.all (·.toNat < 128) := by
    simp [Nat.lt_succ_iff]
  by_cases h : b.length = 1 ∧ b.all (·.toNat ≤ 0x7F)
  · rw [writeBytes, encodeBytes, if_pos h, if_pos (hsmall.mp h)]
    exact writes_write buf b
  · rw [writeBytes, encodeBytes, if_neg h, if_neg (mt hsmall.mpr h)]
    exact (writes_write buf _).trans (writes_write _ b)

theorem writes_list {buf buf' : EncBuffer} {payload : Bytes} (h : Writes buf.list buf' payload) :
    Writes buf (buf'.listEnd buf.lheads.length) (encodeList payload) := by
  obtain ⟨hstr, hsize, heads, hheads, hoffsets, hcopy⟩ := h
  obtain ⟨more, hmore⟩ := hstr
  have hle : buf.str.length ≤ buf'.str.length := by
    rw [hmore]
    simp [list]
  have hlh : buf'.lheads[buf.lheads.length]? = some ⟨buf.str.length, buf.lhsize⟩ := by
    simp [hheads, list]
  have hsize' : buf'.size = buf.size + payload.length := hsize
  have hlist : buf'.size - buf.str.length - buf.lhsize = payload.length := by
    rw [hsize', size]
    omega
  rw [listEnd, hlh]
  simp only [hlist]
  refine ⟨⟨more, hmore⟩, ?_, ⟨buf.str.length, payload.length⟩ :: heads, ?_, ?_, ?_⟩
  · rw [encodeList, length_append, ← headsize_eq]
    simp only [size] at hsize' ⊢
    omega
  · simp [hheads, list]
  · intro head hmem
    rcases mem_cons.mp hmem with rfl | hmem
    · exact ⟨le_rfl, hle⟩
    · exact hoffsets head hmem
  · have hnone : slice buf'.str buf.str.length buf.str.length = [] := by
      simp [slice]
    rw [copyFrom, hnone, nil_append, ListHead.encode, encodeList]
    exact congrArg _ hcopy

theorem writes_writeItems {items : List Item}
    (h : ∀ item ∈ items, ∀ buf : EncBuffer, Writes buf (buf.writeItem item) (encodeItem item))
    (buf : EncBuffer) : Writes buf (buf.writeItems items) (encodeItems items) := by
  induction items generalizing buf with
  | nil =>
    rw [writeItems, encodeItems]
    exact .refl buf
  | cons item items ih =>
    rw [writeItems, encodeItems]
    exact (h item (by simp) buf).trans (ih (fun i hi => h i (by simp [hi])) _)

theorem writes_writeItem (item : Item) :
    ∀ buf : EncBuffer, Writes buf (buf.writeItem item) (encodeItem item) := by
  induction item using Item.induction with
  | string content =>
    intro buf
    rw [writeItem, encodeItem]
    exact writes_writeBytes buf content
  | list items ih =>
    intro buf
    cases items with
    | nil =>
      have hempty : encodeItem (.list []) = [0xC0] := by
        rw [encodeItem, encodeItems]
        rfl
      rw [writeItem, hempty]
      exact writes_write buf _
    | cons item items =>
      rw [writeItem, encodeItem, ← writeItems]
      exact writes_list (writes_writeItems ih _)

end EncBuffer

theorem encodeToBytes_eq (v : Item) : encodeToBytes v = encodeItem v := by
  obtain ⟨-, -, heads, hheads, -, hcopy⟩ := EncBuffer.writes_writeItem v .empty
  rw [encodeToBytes, EncBuffer.makeBytes, hheads]
  exact hcopy

end ChilizChain.Codec
