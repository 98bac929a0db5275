import ChilizChain.Lib.Bytes
import ChilizChain.Lib.Radix

/-! # The Merkle Patricia trie

Nodes as they stand in memory, and the operations on them. The code changes full nodes in place,
so an operation that fails half-way leaves its marks on the trie it was called on: besides its
result, an operation returns what the node it was given has become.

The database is only read while a trie lives. What the reader answers for a hash node therefore
belongs to the node: it is `hash` together with the decoded node, or `missing`. The path of a node
is passed to the reader and to the tracer of deleted nodes only, and both are left out. -/

namespace ChilizChain.Patricia

/-! ## Keys -/

abbrev Nibble := Fin 17
abbrev HexKey := List Nibble

instance nibble_neZero : NeZero 17 := ⟨by decide⟩

/-- The letter that ends a key. -/
abbrev terminator : Nibble := 16

/-- The half-bytes of a key. -/
def nibbles (key : Bytes) : List (Fin 16) :=
  key.flatMap fun b => [⟨b.toNat / 16, by have := b.toNat_lt; omega⟩,
    ⟨b.toNat % 16, Nat.mod_lt _ (by decide)⟩]

theorem nibbles_cons (b : UInt8) (key : Bytes) :
    nibbles (b :: key) = ⟨b.toNat / 16, by have := b.toNat_lt; omega⟩ ::
      ⟨b.toNat % 16, Nat.mod_lt _ (by decide)⟩ :: nibbles key := rfl

def keybytesToHex (key : Bytes) : HexKey := (nibbles key).map Fin.castSucc ++ [terminator]

/-- `prefixLen`. -/
abbrev prefixLen (a b : HexKey) : ℕ := Radix.prefixLen a b

def hasTerm (s : HexKey) : Bool := s.getLast? == some terminator

/-! ## Nodes -/

/-- The cached hash of a node, and whether it still has to be written. -/
structure NodeFlag where
  hash : Option Bytes
  dirty : Bool

inductive Node
  | nil
  | value (v : Bytes)
  | short (key : HexKey) (val : Node) (flags : NodeFlag)
  | full (children : Nibble → Node) (flags : NodeFlag)
  /-- A hash node that the reader can load. -/
  | hash (hash : Bytes) (stored : Node)
  /-- A hash node that the reader has lost. -/
  | missing (hash : Bytes)

instance : Inhabited Node := ⟨.nil⟩

inductive TrieError
  | missingNode
  | errCommitted
  /-- A run-time panic: an invalid node, or an index out of range. -/
  | panicked
deriving DecidableEq

/-- `newFlag`. -/
def newFlag : NodeFlag := ⟨none, true⟩

/-- What a recursive call returns, and what the node it was given shows afterwards. -/
structure Outcome where
  result : Except TrieError (Bool × Node)
  left : Node

/-- `if !dirty || err != nil { return false, n, err }`: the caller keeps its node, in which `keep`
puts what the child has become, unless the call has changed something. -/
def Outcome.orKeep (r : Outcome) (keep : Node → Node) (changed : Node → Outcome) : Outcome :=
  match r.result with
  | .error err => ⟨.error err, keep r.left⟩
  | .ok (false, _) => ⟨.ok (false, keep r.left), keep r.left⟩
  | .ok (true, nn) => changed nn

/-- The same for a node that has just been loaded and that nothing else refers to. -/
def Outcome.fromLoaded (r : Outcome) (n : Node) : Outcome :=
  match r.result with
  | .error err => ⟨.error err, n⟩
  | .ok (false, _) => ⟨.ok (false, r.left), n⟩
  | .ok (true, nn) => ⟨.ok (true, nn), n⟩

namespace Node

def isNil : Node → Bool
  | nil => true
  | _ => false

/-- The case of `insert` in which there is no node yet. -/
def insertNil (key : HexKey) (val : Node) : Node :=
  match key with
  | [] => val
  | _ => short key val newFlag

/-- Whether writing `val` over a node at the end of its key changes anything. -/
def changes : Node → Node → Bool
  | value v, value v' => v != v'
  | _, _ => true

/-- The full node at which two keys part. -/
def branch (i : Nibble) (s : Node) (j : Nibble) (t : Node) : Node :=
  full (Function.update (Function.update (fun _ => nil) i s) j t) newFlag

/-- The short node whose key parts from the new one after `matchlen` letters. -/
def split (k : HexKey) (v : Node) (flags : NodeFlag) (key : HexKey) (val : Node)
    (matchlen : ℕ) : Outcome :=
  match k.drop matchlen, key.drop matchlen with
  | i :: y, j :: x =>
    let branch := branch i (insertNil y v) j (insertNil x val)
    let nn := if matchlen = 0 then branch else short (key.take matchlen) branch newFlag
    ⟨.ok (true, nn), short k v flags⟩
  | _, _ => ⟨.error .panicked, short k v flags⟩

def insert (n : Node) (key : HexKey) (val : Node) : Outcome :=
  match key, n with
  | [], n => ⟨.ok (n.changes val, val), n⟩
  | a :: rest, short k v flags =>
    let key := a :: rest
    let matchlen := prefixLen key k
    if matchlen = k.length then
      let r := insert v (key.drop matchlen) val
      r.orKeep (short k · flags) fun nn => ⟨.ok (true, short k nn newFlag), short k r.left flags⟩
    else split k v flags key val matchlen
  | a :: rest, full children flags =>
    (insert (children a) rest val).orKeep (fun c => full (Function.update children a c) flags)
      fun nn =>
        -- The node itself is changed.
        let n := full (Function.update children a nn) newFlag
        ⟨.ok (true, n), n⟩
  | key, nil => ⟨.ok (true, short key val newFlag), nil⟩
  | key, hash h stored => (insert stored key val).fromLoaded (hash h stored)
  | _, missing h => ⟨.error .missingNode, missing h⟩
  | _, value v => ⟨.error .panicked, value v⟩

/-- The index of the only child, if exactly one is left. -/
def soleChild (children : Nibble → Node) : Option Nibble :=
  Radix.soleIndex fun i => !(children i).isNil

/-- `resolve`. -/
def resolve : Node → Except TrieError Node
  | hash _ stored => .ok stored
  | missing _ => .error .missingNode
  | n => .ok n

/-- The full node that takes the place of a short one with a single child, or stays. The node has
lost its child by now, whatever happens. -/
def reduce (children : Nibble → Node) : Outcome :=
  let n := full children newFlag
  match soleChild children with
  | none => ⟨.ok (true, n), n⟩
  | some pos =>
    if pos = terminator then ⟨.ok (true, short [pos] (children pos) newFlag), n⟩
    else
      match (children pos).resolve with
      | .error err => ⟨.error err, n⟩
      | .ok (short k v _) => ⟨.ok (true, short (pos :: k) v newFlag), n⟩
      | .ok _ => ⟨.ok (true, short [pos] (children pos) newFlag), n⟩

/-- Merges a short child into its parent. -/
def merge (k : HexKey) : Node → Node
  | short k' v' _ => short (k ++ k') v' newFlag
  | child => short k child newFlag

def delete (n : Node) (key : HexKey) : Outcome :=
  match n with
  | short k v flags =>
    let matchlen := prefixLen key k
    let n := short k v flags
    if matchlen < k.length then ⟨.ok (false, n), n⟩
    else if matchlen = key.length then ⟨.ok (true, nil), n⟩
    else
      let r := delete v (key.drop k.length)
      r.orKeep (short k · flags) fun child => ⟨.ok (true, merge k child), short k r.left flags⟩
  | full children flags =>
    match key with
    | [] => ⟨.error .panicked, full children flags⟩
    | a :: rest =>
      (delete (children a) rest).orKeep (fun c => full (Function.update children a c) flags)
        fun nn =>
          let children := Function.update children a nn
          if nn.isNil then reduce children
          else ⟨.ok (true, full children newFlag), full children newFlag⟩
  | value v => ⟨.ok (true, nil), value v⟩
  | nil => ⟨.ok (false, nil), nil⟩
  | hash h stored => (delete stored key).fromLoaded (hash h stored)
  | missing h => ⟨.error .missingNode, missing h⟩

/-- `get`: the value, and the node with what had to be loaded in its place. -/
def get (n : Node) (key : HexKey) : Except TrieError (Option Bytes) × Node :=
  match n with
  | nil => (.ok none, nil)
  | value v => (.ok (some v), value v)
  | short k v flags =>
    if k <+: key then
      match get v (key.drop k.length) with
      | (.ok found, newnode) => (.ok found, short k newnode flags)
      | (.error err, _) => (.error err, short k v flags)
    else (.ok none, short k v flags)
  | full children flags =>
    match key with
    | [] => (.error .panicked, full children flags)
    | a :: rest =>
      match get (children a) rest with
      | (.ok found, newnode) => (.ok found, full (Function.update children a newnode) flags)
      | (.error err, _) => (.error err, full children flags)
  | hash h stored =>
    match get stored key with
    | (.ok found, newnode) => (.ok found, newnode)
    | (.error err, _) => (.error err, hash h stored)
  | missing h => (.error .missingNode, missing h)

end Node

/-! ## Tries -/

/-- A trie; the counters that only choose between one and several threads are left out. -/
structure Trie where
  root : Node
  committed : Bool

/-- `NewEmpty`. -/
def Trie.empty : Trie := ⟨.nil, false⟩

namespace Trie

/-- Takes over the outcome of an operation on the root. -/
def settle (t : Trie) (r : Outcome) : Option TrieError × Trie :=
  match r.result with
  | .error err => (some err, { t with root := r.left })
  | .ok (_, n) => (none, { t with root := n })

/-- `Update`, with the error that it returns. -/
def update (t : Trie) (key value : Bytes) : Option TrieError × Trie :=
  if t.committed then (some .errCommitted, t)
  else if value ≠ [] then t.settle (t.root.insert (keybytesToHex key) (.value value))
  else t.settle (t.root.delete (keybytesToHex key))

/-- `Delete`. -/
def delete (t : Trie) (key : Bytes) : Option TrieError × Trie :=
  if t.committed then (some .errCommitted, t)
  else t.settle (t.root.delete (keybytesToHex key))

/-- `Get`. -/
def get (t : Trie) (key : Bytes) : Except TrieError (Option Bytes) × Trie :=
  if t.committed then (.error .errCommitted, t)
  else
    match t.root.get (keybytesToHex key) with
    | (.ok value, newroot) => (.ok value, { t with root := newroot })
    | (.error err, _) => (.error err, t)

end Trie

/-- The calls that write to a trie. -/
inductive Write
  | update (key value : Bytes)
  | delete (key : Bytes)
deriving DecidableEq

def Trie.write (t : Trie) : Write → Option TrieError × Trie
  | .update key value => t.update key value
  | .delete key => t.delete key

def Write.key : Write → Bytes
  | .update key _ => key
  | .delete key => key

/-- What the key is associated with afterwards; writing an empty value deletes. -/
def Write.stored : Write → Option Bytes
  | .update _ value => if value = [] then none else some value
  | .delete _ => none

end ChilizChain.Patricia
