import ChilizChain.Lib.Rlp

/-! Values of recursive length prefix encoding as trees of strings and lists, with their one
canonical form. -/

namespace Rlp

open Bytes

/-- A value: a string of bytes or a list of values. -/
inductive Item
  | string (content : Bytes)
  | list (items : List Item)

mutual

def encodeItem : Item → Bytes
  | .string content => encodeBytes content
  | .list items => encodeList (encodeItems items)

def encodeItems : List Item → Bytes
  | [] => []
  | item :: items => encodeItem item ++ encodeItems items

end

theorem Item.induction {P : Item → Prop} (string : ∀ content, P (.string content))
    (list : ∀ items, (∀ item ∈ items, P item) → P (.list items)) : ∀ item, P item
  | .string content => string content
  | .list items => list items fun item _ => Item.induction string list item

/-! ## Heads -/

theorem encodeHead_long {smallTag largeTag : ℕ} {bs : Bytes} (h56 : 56 ≤ beNat bs)
    (hzero : bs.head? ≠ some 0) :
    encodeHead smallTag largeTag (beNat bs) = UInt8.ofNat (largeTag + bs.length) :: bs := by
  rw [encodeHead, if_neg (by omega), beBytes_beNat hzero]

theorem encodeHead_length_pos (smallTag largeTag size : ℕ) :
    0 < (encodeHead smallTag largeTag size).length := by
  rw [encodeHead]
  split <;> simp

theorem encodeBytes_ne_nil (bs : Bytes) : encodeBytes bs ≠ [] := by
  intro h
  have hpos := encodeHead_length_pos 0x80 0xB7 bs.length
  rw [encodeBytes] at h
  split at h
  · rename_i hone
    simp [h] at hone
  · rw [(List.append_eq_nil_iff.mp h).1] at hpos
    exact absurd hpos (by simp)

theorem encodeItem_length_pos (item : Item) : 0 < (encodeItem item).length := by
  apply List.length_pos_iff.mpr
  cases item with
  | string content => rw [encodeItem]; exact encodeBytes_ne_nil content
  | list items => rw [encodeItem]; exact encodeList_ne_nil _

end Rlp
