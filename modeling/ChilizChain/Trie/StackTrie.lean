import ChilizChain.Trie.Commit

/-! # The stack trie

A stack trie takes its keys in ascending order. What a later key cannot reach any more is hashed
at once and handed to the callback, so that only the right edge stays in memory. The nodes belong
to the trie alone, which is why the changes the code makes in place are updates of a tree here;
the pools that nodes and buffers are taken from are left out. -/

namespace ChilizChain.Patricia

open List

/-! ## Compact keys in place -/

/-- The loop of `hexToCompactInPlace`, which reads and writes one buffer; `none` is an index out
of range. -/
def compactLoop (hexLen : ℕ) (hex : Bytes) (ni bi : ℕ) : Option Bytes :=
  if ni < hexLen then
    match hex[ni]?, hex[ni + 1]? with
    | some a, some b =>
      if bi < hex.length then compactLoop hexLen (hex.set bi (a <<< 4 ||| b)) (ni + 2) (bi + 1)
      else none
    | _, _ => none
  else some hex
termination_by hexLen - ni

def hexToCompactInPlace (hex : Bytes) : Option Bytes :=
  let terminated := hex.getLast? == some (Nibble.byte terminator)
  let hexLen := if terminated then hex.length - 1 else hex.length
  let flag : UInt8 := if terminated then 0x20 else 0
  let isOdd := hexLen % 2 = 1
  match hex with
  | [] => none
  | first :: _ =>
    let firstByte := if isOdd then flag ||| 0x10 ||| first else flag
    (compactLoop hexLen hex (if isOdd then 1 else 0) 1).map fun hex =>
      (hex.set 0 firstByte).take (hexLen / 2 + 1)

/-- The loop leaves in front what `decodeNibbles` gives. It may write one place ahead of what it
reads, and never on what it has still to read. -/
theorem compactLoop_spec {rest : HexKey} {tail : Bytes} (hexLen ni bi : ℕ) (hex : Bytes)
    (hdrop : hex.drop ni = hexBytes rest ++ tail) (hlen : ni + rest.length = hexLen)
    (heven : rest.length % 2 = 0) (hbi : bi ≤ ni + 1) (hbound : bi ≤ hex.length) :
    ∃ hex', compactLoop hexLen hex ni bi = some hex' ∧
      hex'.take (bi + rest.length / 2) = hex.take bi ++ decodeNibbles rest := by
  induction rest using decodeNibbles.induct generalizing ni bi hex with
  | case1 a b rest ih =>
    have hni : hex[ni]? = some a.byte := by
      rw [← Nat.add_zero ni, ← getElem?_drop, hdrop]
      rfl
    have hni' : hex[ni + 1]? = some b.byte := by
      rw [← getElem?_drop, hdrop]
      rfl
    obtain ⟨hlt, -⟩ := List.getElem?_eq_some_iff.mp hni'
    have hbi' : bi < hex.length := by omega
    have hdrop' : (hex.set bi (a.byte <<< 4 ||| b.byte)).drop (ni + 2) = hexBytes rest ++ tail := by
      rw [drop_set_of_lt (by omega), ← drop_drop, hdrop]
      rfl
    simp only [length_cons] at hlen heven
    obtain ⟨hex', hloop, htake⟩ := ih (ni + 2) (bi + 1) _ hdrop' (by omega)
      (by omega) (by omega) (by simpa using hbi')
    refine ⟨hex', ?_, ?_⟩
    · rw [compactLoop, if_pos (by omega), hni, hni']
      simp only [if_pos hbi', hloop]
    · have hhalf : bi + (a :: b :: rest).length / 2 = bi + 1 + rest.length / 2 := by
        simp only [length_cons]
        omega
      rw [hhalf, htake, decodeNibbles, take_succ_eq_append_getElem (by simpa using hbi')]
      simp [take_set_of_le]
  | case2 rest hrest =>
    obtain rfl : rest = [] := by
      rcases rest with _ | ⟨a, _ | ⟨b, rest⟩⟩
      · rfl
      · simp at heven
      · exact absurd rfl (hrest a b rest)
    refine ⟨hex, ?_, by simp [decodeNibbles]⟩
    rw [compactLoop, if_neg (by simp at hlen; omega)]

theorem set_zero_take {hex hex' decoded : Bytes} {m : ℕ} (b : UInt8)
    (h : hex'.take (1 + m) = hex.take 1 ++ decoded) (hhex : hex ≠ []) :
    (hex'.set 0 b).take (m + 1) = b :: decoded := by
  obtain ⟨a, hex, rfl⟩ := exists_cons_of_ne_nil hhex
  rw [Nat.add_comm 1 m] at h
  cases hex' with
  | nil => simp at h
  | cons a' hex' => simpa using (List.cons.inj h).2

theorem hexBytes_getLast (k : HexKey) :
    ((hexBytes k).getLast? == some (Nibble.byte terminator)) = hasTerm k := by
  rcases eq_nil_or_concat k with rfl | ⟨k, a, rfl⟩
  · rfl
  · have hinj : Nibble.byte a = Nibble.byte terminator ↔ a = terminator :=
      ⟨byte_injective _ _, fun h => by rw [h]⟩
    simp only [hasTerm, concat_eq_append, hexBytes_append]
    rw [Bool.eq_iff_iff]
    simp [hexBytes, hinj]

theorem hexToCompactInPlace_eq {k : HexKey} (hk : k ≠ []) :
    hexToCompactInPlace (hexBytes k) = some (hexToCompact k) := by
  -- The letters without the terminator, and what stands behind them in the buffer.
  obtain ⟨k', tail, hbytes, hk', hlen⟩ : ∃ k' tail, hexBytes k = hexBytes k' ++ tail ∧
      (if hasTerm k then k.dropLast else k) = k' ∧
      (if hasTerm k then (hexBytes k).length - 1 else (hexBytes k).length) = k'.length := by
    by_cases hterm : hasTerm k = true
    · refine ⟨k.dropLast, hexBytes [k.getLast hk], ?_, by simp [hterm], by simp [hterm, hexBytes]⟩
      rw [← hexBytes_append, dropLast_append_getLast]
    · exact ⟨k, [], by simp, by simp [hterm], by simp [hterm, hexBytes]⟩
  obtain ⟨a, r, rfl⟩ := exists_cons_of_ne_nil hk
  have hcons : hexBytes (a :: r) = a.byte :: hexBytes r := rfl
  unfold hexToCompactInPlace hexToCompact
  simp only [hexBytes_getLast, hlen, hk']
  by_cases hodd : k'.length % 2 = 1
  · obtain ⟨a', k'', rfl⟩ : ∃ a' k'', k' = a' :: k'' :=
      exists_cons_of_ne_nil fun h => by simp [h] at hodd
    have hhead : a.byte = a'.byte := (List.cons.inj hbytes).1
    have hhalf : (a' :: k'').length / 2 = k''.length / 2 := by
      simp only [length_cons] at hodd ⊢
      omega
    obtain ⟨hex', hloop, htake⟩ := compactLoop_spec (a' :: k'').length 1 1
      (hexBytes (a :: r)) (List.cons.inj hbytes).2 (by simp; omega)
      (by simp at hodd; omega) (by omega) (by simp [hexBytes])
    simp only [hodd, if_true, hcons, hhalf]
    rw [← hcons, hloop, Option.map_some, set_zero_take _ htake (by simp), hhead]
    rfl
  · obtain ⟨hex', hloop, htake⟩ := compactLoop_spec k'.length 0 1
      (hexBytes (a :: r)) hbytes (by simp) (by omega) (by omega) (by simp [hexBytes])
    simp only [hodd, if_false, hcons]
    rw [← hcons, hloop, Option.map_some, set_zero_take _ htake (by simp)]

/-! ## Nodes -/

inductive StNode
  /-- No node. -/
  | nil
  | empty
  | branch (children : Fin 16 → StNode)
  | ext (key : List (Fin 16)) (child : StNode)
  | leaf (key : List (Fin 16)) (val : Bytes)
  | hashed (val : Bytes)

inductive StError
  /-- "trying to insert empty (deletion)" -/
  | emptyValue
  /-- "non-ascending key order" -/
  | nonAscending
  /-- A run-time panic: a key that is there already, a hashed node, or an index out of range. -/
  | panicked
deriving DecidableEq

def orPanic {α : Type} : Option α → Except StError α
  | some a => .ok a
  | none => .error .panicked

/-- `getDiffIndex`; `none` is an index out of range. -/
def getDiffIndex : List (Fin 16) → List (Fin 16) → Option ℕ
  | [], _ => some 0
  | _ :: _, [] => none
  | a :: k, b :: key => if a ≠ b then some 0 else (getDiffIndex k key).map (· + 1)

/-- The bytes of a piece of a path. -/
abbrev pathBytes (key : List (Fin 16)) : Bytes := hexBytes (letters key)

namespace StNode

def isNil : StNode → Bool
  | nil => true
  | _ => false

def isHashed : StNode → Bool
  | hashed _ => true
  | _ => false

section

variable (keccak : Bytes → FixedBytes 32)

/-- The end of `hash`: small nodes other than the root are embedded in their parent, the others
are handed to the callback. -/
def finish (path blob : Bytes) (below : List StoredNode) : Bytes × List StoredNode :=
  if blob.length < 32 ∧ path ≠ [] then (blob, below)
  else ((keccak blob).bytes, below ++ [⟨path, keccak blob, blob⟩])

/-- `hash`, with the value of the hashed node and the nodes handed to the callback. -/
def hash : StNode → Bytes → Except StError (Bytes × List StoredNode)
  | nil, _ => .error .panicked
  | hashed val, _ => .ok (val, [])
  | empty, _ => .ok (emptyRootHash.bytes, [])
  | branch children, path => do
    let parts ← Except.collect fun i =>
      if (children i).isNil then .ok ([], []) else (children i).hash (path ++ pathBytes [i])
    let blob := encodeFull (Fin.lastCases [] fun i => (parts i).1)
    .ok (finish keccak path blob ((List.finRange 16).flatMap fun i => (parts i).2))
  | ext key child, path => do
    let (val, below) ← child.hash (path ++ pathBytes key)
    let key ← orPanic (hexToCompactInPlace (pathBytes key))
    .ok (finish keccak path (encodeExt key val) below)
  | leaf key val, path => do
    let key ← orPanic (hexToCompactInPlace (hexBytes (letters key ++ [terminator])))
    .ok (finish keccak path (encodeLeaf key val) [])

/-- The nearest child before an index. -/
def elder (children : Fin 16 → StNode) (idx : Fin 16) : Option (Fin 16) :=
  (List.finRange 16).reverse.find? fun i => decide (i < idx) && !(children i).isNil

/-- Hashes the nearest child before an index, unless that has been done. -/
def hashElder (children : Fin 16 → StNode) (idx : Fin 16) (path : Bytes) :
    Except StError ((Fin 16 → StNode) × List StoredNode) :=
  match elder children idx with
  | none => .ok (children, [])
  | some i =>
    if (children i).isHashed then .ok (children, [])
    else do
      let (val, nodes) ← (children i).hash keccak (path ++ pathBytes [i])
      .ok (Function.update children i (hashed val), nodes)

/-- The branch at which two keys part, below what they have in common. -/
def fork (key : List (Fin 16)) (origIdx : Fin 16) (orig : StNode) (newIdx : Fin 16)
    (new : StNode) : StNode :=
  let p := branch (Function.update (Function.update (fun _ => nil) origIdx orig) newIdx new)
  if key = [] then p else ext key p

def insert : StNode → List (Fin 16) → Bytes → Bytes → Except StError (StNode × List StoredNode)
  | branch children, key, value, path =>
    match key with
    | [] => .error .panicked
    | idx :: rest => do
      let (children', nodes) ← hashElder keccak children idx path
      if (children idx).isNil then
        .ok (branch (Function.update children' idx (leaf rest value)), nodes)
      else
        let (child, nodes') ← (children idx).insert rest value (path ++ pathBytes [idx])
        .ok (branch (Function.update children' idx child), nodes ++ nodes')
  | ext k child, key, value, path => do
    let diffidx ← orPanic (getDiffIndex k key)
    if diffidx = k.length then
      let (child, nodes) ← child.insert (key.drop diffidx) value
        (path ++ pathBytes (key.take diffidx))
      .ok (ext k child, nodes)
    else
      match k.drop diffidx, key.drop diffidx with
      | origIdx :: origKey, newIdx :: newKey =>
        -- Breaking on the last letter leaves the child itself.
        let (val, nodes) ← if diffidx < k.length - 1 then
            (ext origKey child).hash keccak (path ++ pathBytes (k.take (diffidx + 1)))
          else child.hash keccak (path ++ pathBytes k)
        .ok (fork (k.take diffidx) origIdx (hashed val) newIdx (leaf newKey value), nodes)
      | _, _ => .error .panicked
  | leaf k val, key, value, path => do
    let diffidx ← orPanic (getDiffIndex k key)
    match k.drop diffidx, key.drop diffidx with
    | origIdx :: origKey, newIdx :: newKey =>
      let (val, nodes) ←
        (leaf origKey val).hash keccak (path ++ pathBytes (k.take (diffidx + 1)))
      .ok (fork (k.take diffidx) origIdx (hashed val) newIdx (leaf newKey value), nodes)
    -- "Trying to insert into existing key"
    | _, _ => .error .panicked
  | empty, key, value, _ => .ok (leaf key value, [])
  -- "trying to insert into hash"
  | hashed _, _, _, _ => .error .panicked
  | nil, _, _, _ => .error .panicked

end

end StNode

/-! ## Stack tries -/

structure StackTrie where
  root : StNode
  last : List (Fin 16)

namespace StackTrie

/-- `NewStackTrie`. -/
def new : StackTrie := ⟨.empty, []⟩

variable (keccak : Bytes → FixedBytes 32)

/-- `Update`. An empty key makes `writeHexKey` look at an index before its buffer. -/
def update (t : StackTrie) (key value : Bytes) : Except StError (StackTrie × List StoredNode) :=
  if value = [] then .error .emptyValue
  else if key = [] then .error .panicked
  else
    let k := nibbles key
    if t.last < k then do
      let (root, nodes) ← t.root.insert keccak k value []
      .ok (⟨root, k⟩, nodes)
    else .error .nonAscending

/-- `Hash`. -/
def hash (t : StackTrie) : Except StError (FixedBytes 32 × StackTrie × List StoredNode) := do
  let (val, nodes) ← t.root.hash keccak []
  .ok (.ofBytes 32 val, { t with root := .hashed val }, nodes)

/-- A sequence of updates, with all nodes that are handed to the callback. -/
def feed : List (Bytes × Bytes) → StackTrie → Except StError (StackTrie × List StoredNode)
  | [], t => .ok (t, [])
  | (key, value) :: rest, t => do
    let (t, nodes) ← t.update keccak key value
    let (t, later) ← feed rest t
    .ok (t, nodes ++ later)

end StackTrie

end ChilizChain.Patricia
