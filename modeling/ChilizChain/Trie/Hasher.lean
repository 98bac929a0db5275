import ChilizChain.Lib.Rlp
import ChilizChain.Trie.Node

/-! # Encoding and hashing of nodes

A node is encoded from what its children are referred to by: their hash, or their encoding itself
where it is shorter than a hash. Hashing stores the hash in the node, except where the node is
embedded in its parent. -/

namespace ChilizChain.Patricia

/-! ## Compact keys -/

/-- A letter as a byte. -/
def Nibble.byte (a : Nibble) : UInt8 := UInt8.ofNat a.val

/-- `decodeNibbles`: two half-bytes in one byte. -/
def decodeNibbles : HexKey → Bytes
  | a :: b :: rest => (a.byte <<< 4 ||| b.byte) :: decodeNibbles rest
  | _ => []

def hexToCompact (hex : HexKey) : Bytes :=
  let flag : UInt8 := if hasTerm hex then 0x20 else 0
  let hex := if hasTerm hex then hex.dropLast else hex
  if hex.length % 2 = 1 then
    (flag ||| 0x10 ||| (hex.headD 0).byte) :: decodeNibbles hex.tail
  else flag :: decodeNibbles hex

/-! ## Encoders -/

/-- `rlp.EmptyString`. -/
def emptyString : Bytes := [0x80]

/-- `fullnodeEncoder.encode`: a child is left out, referred to by its hash, or embedded. -/
def encodeFull (children : Nibble → Bytes) : Bytes :=
  Rlp.encodeList ((List.finRange 17).flatMap fun i =>
    if children i = [] then emptyString
    else if i = terminator ∨ 32 ≤ (children i).length then Rlp.encodeBytes (children i)
    else children i)

/-- `extNodeEncoder.encode`. -/
def encodeExt (key val : Bytes) : Bytes :=
  Rlp.encodeList (Rlp.encodeBytes key ++
    if val = [] then emptyString else if val.length < 32 then val else Rlp.encodeBytes val)

/-- `leafNodeEncoder.encode`. -/
def encodeLeaf (key val : Bytes) : Bytes :=
  Rlp.encodeList (Rlp.encodeBytes key ++ Rlp.encodeBytes val)

/-! ## Hashing -/

/-- `types.EmptyRootHash`. -/
def emptyRootHash : FixedBytes 32 :=
  .ofBytes 32 (Bytes.beBytes 0x56e81f171bcc55a6ff8345e692c0f86e5b48e01b996cadc001622fb5e363b421)

/-- The bytes of a value node. -/
def Node.valueBytes : Node → Bytes
  | .value v => v
  | _ => []

section

variable (keccak : Bytes → FixedBytes 32)

/-- The hash of an encoded node, or the encoding itself if the node is to be embedded; the node
keeps the hash. -/
def sealed (enc : Bytes) (force : Bool) (node : Option Bytes → Node) : Bytes × Node :=
  if enc.length < 32 ∧ !force then (enc, node none)
  else ((keccak enc).bytes, node (some (keccak enc).bytes))

/-- `hasher.hash`. It is not called on values and on missing children. -/
def Node.hashWith : Node → Bool → Bytes × Node
  | .short k v flags, force =>
    match flags.hash with
    | some h => (h, .short k v flags)
    | none =>
      if hasTerm k then
        sealed keccak (encodeLeaf (hexToCompact k) v.valueBytes) force
          fun h => .short k v { flags with hash := h }
      else
        let (val, v) := v.hashWith false
        sealed keccak (encodeExt (hexToCompact k) val) force
          fun h => .short k v { flags with hash := h }
  | .full children flags, force =>
    match flags.hash with
    | some h => (h, .full children flags)
    | none =>
      let hashed := fun i => (children i).hashWith false
      let refs := fun i =>
        if i = terminator then (children i).valueBytes
        else if (children i).isNil then [] else (hashed i).1
      sealed keccak (encodeFull refs) force
        fun h => .full (fun i => if i = terminator then children i else (hashed i).2)
          { flags with hash := h }
  | .hash h stored, _ => (h, .hash h stored)
  | .missing h, _ => (h, .missing h)
  | n, _ => ([], n)

/-- `Hash`. -/
def Trie.hash (t : Trie) : FixedBytes 32 × Trie :=
  if t.root.isNil then (emptyRootHash, t)
  else (.ofBytes 32 (t.root.hashWith keccak true).1,
    { t with root := (t.root.hashWith keccak true).2 })

end

end ChilizChain.Patricia
