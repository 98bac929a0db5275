import ChilizChain.Trie.History

/-! # Committing a trie

`Commit` hashes the trie and then walks over it once more: every node that has a hash of its own
is encoded and handed over under its path. Deletions are recorded only for nodes that were loaded
from the database, so they do not occur in a trie that was built in memory, and are left out. -/

namespace ChilizChain.Patricia

open Multiset Node Fin Except

/-- A node in the course of a commit: children that were committed are hashes, and the keys of
committed nodes are compact. -/
inductive Collapsed
  | nil
  | value (v : Bytes)
  | hash (h : Bytes)
  | short (key : Bytes) (val : Collapsed)
  | full (children : Nibble → Collapsed)

/-- `node.encode`, and what is written in the place of a missing child. -/
def Collapsed.encode : Collapsed → Bytes
  | nil => emptyString
  | value v => Rlp.encodeBytes v
  | hash h => Rlp.encodeBytes h
  | short key val => Rlp.encodeList (Rlp.encodeBytes key ++ val.encode)
  | full children => Rlp.encodeList ((List.finRange 17).flatMap fun i => (children i).encode)

/-- A node as it is passed to the database or to the callback of a stack trie. -/
structure StoredNode where
  path : Bytes
  hash : FixedBytes 32
  blob : Bytes

/-- The bytes of a piece of a key. -/
def hexBytes (key : HexKey) : Bytes := key.map Nibble.byte

@[simp] theorem hexBytes_append (k r : HexKey) : hexBytes (k ++ r) = hexBytes k ++ hexBytes r :=
  List.map_append

@[simp] theorem hexBytes_eq_nil {k : HexKey} : hexBytes k = [] ↔ k = [] := List.map_eq_nil_iff

namespace Node

/-- A node that has not been committed. -/
def uncommitted : Node → Collapsed
  | nil => .nil
  | value v => .value v
  | short k v _ => .short (hexBytes k) v.uncommitted
  | full children _ => .full fun i => (children i).uncommitted
  | hash h _ => .hash h
  | missing h => .hash h

def isFull : Node → Bool
  | full _ _ => true
  | _ => false

def isHash : Node → Bool
  | hash _ _ => true
  | missing _ => true
  | _ => false

/-- `committer.store`: a node without a hash stays in its parent. -/
def store (path : Bytes) (flags : NodeFlag) (n : Collapsed) : Collapsed × List StoredNode :=
  match flags.hash with
  | none => (n, [])
  | some h => (.hash h, [⟨path, .ofBytes 32 h, n.encode⟩])

/-- `committer.commit`, with the nodes that it adds to the node set. -/
def commit : Node → Bytes → Except TrieError (Collapsed × List StoredNode)
  | short k v flags, path =>
    match flags with
    | ⟨some h, false⟩ => .ok (.hash h, [])
    | _ => do
      let (val, below) ←
        if v.isFull then v.commit (path ++ hexBytes k) else .ok (v.uncommitted, [])
      let (n, own) := store path flags (.short (hexToCompact k) val)
      .ok (n, below ++ own)
  | full children flags, path =>
    match flags with
    | ⟨some h, false⟩ => .ok (.hash h, [])
    | _ => do
      let parts ← Except.collect fun i =>
        if i = terminator ∨ (children i).isNil ∨ (children i).isHash then
          .ok ((children i).uncommitted, [])
        else (children i).commit (path ++ hexBytes [i])
      let (n, own) := store path flags (.full fun i => (parts i).1)
      .ok (n, ((List.finRange 17).flatMap fun i => (parts i).2) ++ own)
  | hash h _, _ => .ok (.hash h, [])
  | missing h, _ => .ok (.hash h, [])
  | _, _ => .error .panicked

end Node

/-- `Trie.Commit`, with the root hash and the nodes that it collects. -/
def Trie.commit (keccak : Bytes → FixedBytes 32) (t : Trie) :
    Except TrieError (FixedBytes 32 × List StoredNode) :=
  if t.root.isNil then .ok (emptyRootHash, [])
  else do
    let (rootHash, t) := t.hash keccak
    let (_, nodes) ← t.root.commit []
    .ok (rootHash, nodes)

/-! ## What is hashed and stored

The encoding of a radix tree, what its parent refers to it by, and the nodes below a path that
are stored on their own. -/

section

variable (keccak : Bytes → FixedBytes 32)

/-- What a node is referred to by, given its encoding. -/
def reference (enc : Bytes) (isRoot : Bool) : Bytes :=
  if enc.length < 32 ∧ !isRoot then enc else (keccak enc).bytes

def valueOf : Radix 17 Bytes → Bytes
  | .value v => v
  | _ => []

def encoding : Radix 17 Bytes → Bytes
  | .short k v =>
    if hasTerm k then encodeLeaf (hexToCompact k) (valueOf v)
    else encodeExt (hexToCompact k) (reference keccak (encoding v) false)
  | .full children => encodeFull fun i =>
    if i = terminator then valueOf (children i)
    else reference keccak (encoding (children i)) false
  | _ => []

/-- The node itself, unless it is embedded in its parent. -/
def ownNode (path enc : Bytes) : Multiset StoredNode :=
  if enc.length < 32 ∧ path ≠ [] then 0 else {⟨path, keccak enc, enc⟩}

def storedNodes : Radix 17 Bytes → Bytes → Multiset StoredNode
  | .short k v, path =>
    (if hasTerm k then 0 else storedNodes v (path ++ hexBytes k)) +
      ownNode keccak path (encoding keccak (.short k v))
  | .full children, path =>
    (∑ i : Fin 16, storedNodes (children i.castSucc) (path ++ hexBytes [i.castSucc])) +
      ownNode keccak path (encoding keccak (.full children))
  | _, _ => 0

end

/-- The half-bytes of a key as letters. -/
def letters (key : List (Fin 16)) : HexKey := key.map Fin.castSucc

/-- A full node. -/
def IsFull : Radix 17 Bytes → Prop
  | .full _ => True
  | _ => False

/-- The trees in which no key continues another: leaves, extensions of full nodes, and full
nodes without a value of their own. -/
def Shaped : Radix 17 Bytes → Prop
  | .short k v =>
    (∃ c b, k = letters c ++ [terminator] ∧ v = .value b) ∨
      ∃ c, c ≠ [] ∧ k = letters c ∧ IsFull v ∧ Shaped v
  | .full children => children terminator = .nil ∧
    ∀ i : Fin 16, children i.castSucc = .nil ∨ Shaped (children i.castSucc)
  | _ => False

theorem hasTerm_letters (c : List (Fin 16)) : hasTerm (letters c) = false := by
  unfold hasTerm letters
  rcases List.eq_nil_or_concat c with rfl | ⟨c, a, rfl⟩
  · rfl
  · have ha : a.castSucc ≠ terminator := (castSucc_lt_last a).ne
    simp [ha]

theorem hasTerm_terminated (c : List (Fin 16)) : hasTerm (letters c ++ [terminator]) = true := by
  simp [hasTerm]

section

variable {keccak : Bytes → FixedBytes 32}

theorem reference_nil : reference keccak [] false = [] := by
  simp [reference]

/-- What is written for a child in its parent. -/
def written (r : Bytes) : Bytes :=
  if r = [] then emptyString else if r.length < 32 then r else Rlp.encodeBytes r

/-- The flags of a node that was built in memory and has been hashed. -/
def sealedFlag (keccak : Bytes → FixedBytes 32) (enc : Bytes) (force : Bool) : NodeFlag :=
  ⟨if enc.length < 32 ∧ !force then none else some (keccak enc).bytes, true⟩

theorem sealedFlag_eta (enc : Bytes) (force : Bool) :
    (⟨(sealedFlag keccak enc force).hash, true⟩ : NodeFlag) = sealedFlag keccak enc force := by
  rw [sealedFlag]

theorem sealed_eq (enc : Bytes) (force : Bool) (node : Option Bytes → Node) :
    sealed keccak enc force node =
      (reference keccak enc force, node (sealedFlag keccak enc force).hash) := by
  unfold sealed reference sealedFlag
  split <;> rfl

variable {path : Bytes} {force : Bool}

theorem store_spec (keccak : Bytes → FixedBytes 32) {enc : Bytes} {n : Collapsed}
    (hn : n.encode = enc) (henc : enc ≠ []) (hforce : force = true ↔ path = []) :
    (store path (sealedFlag keccak enc force) n).1.encode = written (reference keccak enc force) ∧
      ((store path (sealedFlag keccak enc force) n).2 : Multiset StoredNode) =
        ownNode keccak path enc := by
  by_cases h : enc.length < 32 ∧ path ≠ []
  · have hforce : force = false := by
      rw [← Bool.not_eq_true, hforce]
      exact h.2
    simp [store, sealedFlag, reference, ownNode, written, h, hforce, henc, hn]
  · have h' : ¬ (enc.length < 32 ∧ force = false) := by
      rw [← Bool.not_eq_true, hforce]
      exact h
    have hlen := (keccak enc).length_eq
    have hne : (keccak enc).bytes ≠ [] := fun h => by simp [h] at hlen
    simp [store, sealedFlag, reference, ownNode, written, h, h', hn, Collapsed.encode, hne, hlen]

theorem encodeExt_eq (key val : Bytes) :
    encodeExt key val = Rlp.encodeList (Rlp.encodeBytes key ++ written val) := rfl

variable {k : HexKey}

theorem commit_short {v : Node} {flags : NodeFlag} (val : Collapsed) (below : List StoredNode)
    (hdirty : flags.dirty = true)
    (hval : (if v.isFull then v.commit (path ++ hexBytes k) else .ok (v.uncommitted, [])) =
      .ok (val, below)) : (short k v flags).commit path =
      .ok ((store path flags (.short (hexToCompact k) val)).1,
        below ++ (store path flags (.short (hexToCompact k) val)).2) := by
  obtain ⟨hash, dirty⟩ := flags
  obtain rfl : dirty = true := hdirty
  by_cases hfull : v.isFull = true
  · rw [if_pos hfull] at hval
    cases hash <;> simp only [commit, hfull, if_true, hval, ok_bind]
  · rw [if_neg hfull, Except.ok.injEq, Prod.mk.injEq] at hval
    cases hash <;> simp only [commit, hfull, Bool.false_eq_true, if_false, hval, ok_bind]

theorem commit_full {children : Nibble → Node} {flags : NodeFlag}
    {parts : Nibble → Collapsed × List StoredNode} (hdirty : flags.dirty = true)
    (hparts : ∀ i, (if i = terminator ∨ (children i).isNil ∨ (children i).isHash then
        .ok ((children i).uncommitted, [])
      else (children i).commit (path ++ hexBytes [i])) = .ok (parts i)) :
    (full children flags).commit path = .ok ((store path flags (.full fun i => (parts i).1)).1,
        ((List.finRange 17).flatMap fun i => (parts i).2) ++
          (store path flags (.full fun i => (parts i).1)).2) := by
  obtain ⟨hash, dirty⟩ := flags
  obtain rfl : dirty = true := hdirty
  cases hash <;> simp only [commit, collect_ok hparts, ok_bind]

/-- A hashed node whose commit hands over the nodes of a tree. -/
structure Commits (keccak : Bytes → FixedBytes 32) (T : Radix 17 Bytes) (force : Bool)
    (path : Bytes) (r : Bytes × Node) : Prop where
  reference : r.1 = reference keccak (encoding keccak T) force
  isNil : r.2.isNil = false
  isHash : r.2.isHash = false
  isFull : IsFull T → r.2.isFull = true
  commit : ∃ n nodes, r.2.commit path = .ok (n, nodes) ∧ n.encode = written r.1 ∧
    (nodes : Multiset StoredNode) = storedNodes keccak T path

theorem hashWith_leaf (b : Bytes) (hterm : hasTerm k = true) (hforce : force = true ↔ path = []) :
    Commits keccak (.short k (.value b)) force path
      ((ofRadix (.short k (.value b))).hashWith keccak force) := by
  have henc : encoding keccak (.short k (.value b)) = encodeLeaf (hexToCompact k) b := by
    rw [encoding, if_pos hterm]
    rfl
  have hhash : (ofRadix (.short k (.value b))).hashWith keccak force =
      (reference keccak (encodeLeaf (hexToCompact k) b) force,
        .short k (.value b) (sealedFlag keccak (encodeLeaf (hexToCompact k) b) force)) := by
    simp only [ofRadix, hashWith, newFlag, hterm, if_true, valueBytes, sealed_eq, sealedFlag_eta]
  have hn : (Collapsed.short (hexToCompact k) (.value b)).encode =
      encodeLeaf (hexToCompact k) b := rfl
  obtain ⟨hencode, hown⟩ := store_spec keccak hn (Rlp.encodeList_ne_nil _) hforce
  rw [hhash]
  refine ⟨by rw [henc], rfl, rfl, fun h => h.elim, _, _,
    commit_short (.value b) [] rfl (if_neg (by simp [isFull])), ?_, ?_⟩
  · dsimp only
    rw [hencode]
  · rw [storedNodes, if_pos hterm, zero_add, henc, ← hown, List.nil_append]

theorem hashWith_ext {V : Radix 17 Bytes} (hterm : hasTerm k = false) (hV : IsFull V)
    (hcommits : Commits keccak V false (path ++ hexBytes k)
      ((ofRadix V).hashWith keccak false)) (hforce : force = true ↔ path = []) :
    Commits keccak (.short k V) force path ((ofRadix (.short k V)).hashWith keccak force) := by
  obtain ⟨href, -, -, hfull, n, nodes, hcommit, hn, hnodes⟩ := hcommits
  set r := (ofRadix V).hashWith keccak false
  have henc : encoding keccak (.short k V) = encodeExt (hexToCompact k) r.1 := by
    simp [encoding, hterm, href]
  have hhash : (ofRadix (.short k V)).hashWith keccak force =
      (reference keccak (encodeExt (hexToCompact k) r.1) force,
        .short k r.2 (sealedFlag keccak (encodeExt (hexToCompact k) r.1) force)) := by
    simp only [ofRadix, hashWith, newFlag, hterm, Bool.false_eq_true, if_false, sealed_eq,
      sealedFlag_eta, r]
  have hencode : (Collapsed.short (hexToCompact k) n).encode = encodeExt (hexToCompact k) r.1 := by
    rw [Collapsed.encode, hn, encodeExt_eq]
  obtain ⟨hencode, hown⟩ := store_spec keccak hencode (Rlp.encodeList_ne_nil _) hforce
  rw [hhash]
  refine ⟨by rw [henc], rfl, rfl, fun h => h.elim, _, _,
    commit_short n nodes rfl (by rw [if_pos (hfull hV), hcommit]), ?_, ?_⟩
  · dsimp only
    rw [hencode]
  · rw [storedNodes, hterm, henc, ← hown, ← coe_add, hnodes]
    simp only [Bool.false_eq_true, if_false]

theorem coe_flatMap_finRange {n : ℕ} {α : Type} (f : Fin n → List α) :
    ((List.finRange n).flatMap f : Multiset α) = ∑ i, (f i : Multiset α) := by
  have hlist : ∀ l : List (Fin n), (l.flatMap f : Multiset α) =
      (l.map fun i => (f i : Multiset α)).sum := by
    intro l
    induction l with
    | nil => rfl
    | cons i l ih => rw [List.flatMap_cons, ← coe_add, ih, List.map_cons, List.sum_cons]
  rw [hlist, sum_univ_def]

/-- What `fullnodeEncoder` writes for a child. -/
def slot (i : Nibble) (c : Bytes) : Bytes :=
  if c = [] then emptyString else if i = terminator ∨ 32 ≤ c.length then Rlp.encodeBytes c else c

theorem slot_of_ne {i : Nibble} (c : Bytes) (hi : i ≠ terminator) : slot i c = written c := by
  unfold slot written
  by_cases hc : c.length < 32
  · simp [hi, hc, Nat.not_le.mpr hc]
  · simp [hi, hc, Nat.not_lt.mp hc]

theorem hashWith_full {ch : Nibble → Radix 17 Bytes} (hend : ch terminator = .nil)
    (hcommits : ∀ i : Fin 16, ch i.castSucc = .nil ∨
      Commits keccak (ch i.castSucc) false (path ++ hexBytes [i.castSucc])
        ((ofRadix (ch i.castSucc)).hashWith keccak false))
    (hforce : force = true ↔ path = []) : Commits keccak (.full ch) force path
      ((ofRadix (.full ch)).hashWith keccak force) := by
  set hashed := fun i => (ofRadix (ch i)).hashWith keccak false with hhashed
  set children : Nibble → Node := fun i =>
    if i = terminator then ofRadix (ch i) else (hashed i).2 with hchildren
  set refs : Nibble → Bytes := fun i =>
    if i = terminator then valueOf (ch i) else reference keccak (encoding keccak (ch i)) false
    with hrefs
  -- What becomes of each child, whether there is one or not.
  have hpart : ∀ i, ∃ part : Collapsed × List StoredNode,
      (if i = terminator ∨ (children i).isNil ∨ (children i).isHash then
        .ok ((children i).uncommitted, [])
      else (children i).commit (path ++ hexBytes [i])) = .ok part ∧
      part.1.encode = slot i (refs i) ∧
      (part.2 : Multiset StoredNode) =
        if i = terminator then 0 else storedNodes keccak (ch i) (path ++ hexBytes [i]) := by
    intro i
    induction i using lastCases with
    | last =>
      refine ⟨(.nil, []), ?_, ?_, rfl⟩
      · simp [hchildren, hend, ofRadix, uncommitted]
      · simp [hrefs, hend, valueOf, slot, Collapsed.encode]
    | cast i =>
      have hi : i.castSucc ≠ terminator := (castSucc_lt_last i).ne
      rw [slot_of_ne _ hi, if_neg hi]
      rcases hcommits i with hnil | ⟨href, hisNil, hisHash, -, n, nodes, hcommit, hn, hnodes⟩
      · refine ⟨(.nil, []), ?_, ?_, by simp [hnil, storedNodes]⟩
        · simp [hchildren, hi, hhashed, hnil, ofRadix, hashWith, isNil,
            uncommitted]
        · simp [hrefs, hi, hnil, encoding, reference_nil, written, Collapsed.encode]
      · refine ⟨(n, nodes), ?_, ?_, hnodes⟩
        · simp only [hchildren, hi, if_false, false_or, hhashed]
          rw [if_neg (by simp [hisNil, hisHash]), hcommit]
        · simp only [hrefs, hi, if_false, hn, href]
  choose parts hparts hencode hnodes using hpart
  have henc : encoding keccak (.full ch) = encodeFull refs := rfl
  have hrefs' : (fun i => if i = terminator then (ofRadix (ch i)).valueBytes
      else if (ofRadix (ch i)).isNil then []
      else ((ofRadix (ch i)).hashWith keccak false).1) = refs := by
    funext i
    induction i using lastCases with
    | last => simp [hrefs, hend, ofRadix, valueBytes, valueOf]
    | cast i =>
      have hi : i.castSucc ≠ terminator := (castSucc_lt_last i).ne
      rcases hcommits i with hnil | ⟨href, hisNil, -⟩
      · simp [hrefs, hi, hnil, ofRadix, isNil, encoding, reference_nil]
      · have hne : (ofRadix (ch i.castSucc)).isNil = false := by
          by_contra h
          rw [Bool.not_eq_false, isNil_iff] at h
          simp [h, hashWith, isNil] at hisNil
        simp [hrefs, hi, hne, href]
  have hhash : (ofRadix (.full ch)).hashWith keccak force =
      (reference keccak (encodeFull refs) force,
        .full children (sealedFlag keccak (encodeFull refs) force)) := by
    simp only [ofRadix, hashWith, newFlag, sealed_eq, hrefs', sealedFlag_eta]
    rw [hchildren]
  have hfull : (Collapsed.full fun i => (parts i).1).encode = encodeFull refs := by
    simp only [Collapsed.encode, hencode]
    rfl
  obtain ⟨hencode, hown⟩ := store_spec keccak hfull (Rlp.encodeList_ne_nil _) hforce
  rw [hhash]
  refine ⟨by rw [henc], rfl, rfl, fun _ => rfl, _, _, commit_full rfl hparts, ?_, ?_⟩
  · dsimp only
    rw [hencode]
  · rw [storedNodes, henc, ← hown, ← coe_add, coe_flatMap_finRange, sum_univ_castSucc]
    have hcast : ∀ i : Fin 16, i.castSucc ≠ terminator := fun i => (castSucc_lt_last i).ne
    have hlast : last 16 = terminator := rfl
    simp only [hnodes, hcast, hlast, if_true, if_false, add_zero]

variable {T : Radix 17 Bytes}

theorem commits_of_shaped (hT : Shaped T) (hforce : force = true ↔ path = []) :
    Commits keccak T force path ((ofRadix T).hashWith keccak force) := by
  induction T generalizing force path with
  | nil => exact hT.elim
  | value b => exact hT.elim
  | short k V ih =>
    rcases hT with ⟨c, b, rfl, rfl⟩ | ⟨c, hc, rfl, hfull, hV⟩
    · exact hashWith_leaf b (hasTerm_terminated c) hforce
    · have hne : letters c ≠ [] := by simpa [letters] using hc
      exact hashWith_ext (hasTerm_letters c) hfull (ih hV (by simp [hne])) hforce
  | full ch ih =>
    refine hashWith_full hT.1 (fun i => (hT.2 i).imp_right fun hi => ih _ hi ?_) hforce
    simp

/-! ## Paths of stored nodes -/

variable {n : StoredNode}

theorem mem_ownNode {enc : Bytes} (h : n ∈ ownNode keccak path enc) : n.path = path := by
  unfold ownNode at h
  split at h
  · simp at h
  · rw [mem_singleton] at h
    rw [h]

theorem mem_storedNodes (h : n ∈ storedNodes keccak T path) :
    (32 ≤ n.blob.length ∨ n.path = []) ∧ n.hash = keccak n.blob := by
  have hown : ∀ {path enc : Bytes}, n ∈ ownNode keccak path enc →
      (32 ≤ n.blob.length ∨ n.path = []) ∧ n.hash = keccak n.blob := by
    intro path enc h
    unfold ownNode at h
    split at h
    · simp at h
    · rename_i hsmall
      rw [mem_singleton] at h
      rw [h]
      exact ⟨by simpa [imp_iff_or_not, or_comm] using hsmall, rfl⟩
  induction T generalizing path with
  | nil => simp [storedNodes] at h
  | value b => simp [storedNodes] at h
  | short k v ih =>
    rcases mem_add.mp h with h | h
    · split at h
      · simp at h
      · exact ih h
    · exact hown h
  | full ch ih =>
    rcases mem_add.mp h with h | h
    · obtain ⟨i, -, hi⟩ := mem_sum.mp h
      exact ih _ hi
    · exact hown h

theorem prefix_of_mem_storedNodes (h : n ∈ storedNodes keccak T path) : path <+: n.path := by
  induction T generalizing path with
  | nil => simp [storedNodes] at h
  | value b => simp [storedNodes] at h
  | short k v ih =>
    rcases mem_add.mp h with h | h
    · split at h
      · simp at h
      · exact (List.prefix_append path _).trans (ih h)
    · rw [mem_ownNode h]
  | full ch ih =>
    rcases mem_add.mp h with h | h
    · obtain ⟨i, -, hi⟩ := mem_sum.mp h
      exact (List.prefix_append path _).trans (ih _ hi)
    · rw [mem_ownNode h]

theorem byte_injective : ∀ a b : Nibble, a.byte = b.byte → a = b := by decide

theorem storedNodes_paths_nodup (hT : Shaped T) (path : Bytes) :
    ((storedNodes keccak T path).map StoredNode.path).Nodup := by
  -- A node and what lies below it have different paths.
  have hown : ∀ {S : Multiset StoredNode} {path enc : Bytes},
      (S.map StoredNode.path).Nodup → (∀ n ∈ S, n.path ≠ path) →
      ((S + ownNode keccak path enc).map StoredNode.path).Nodup := by
    intro S path enc hS hne
    rw [map_add, nodup_add]
    refine ⟨hS, ?_, ?_⟩
    · unfold ownNode
      split <;> simp
    · rw [disjoint_left]
      rintro p hp hp'
      obtain ⟨n, hn, rfl⟩ := mem_map.mp hp
      obtain ⟨n', hn', heq⟩ := mem_map.mp hp'
      exact hne n hn (heq ▸ mem_ownNode hn')
  have hlonger : ∀ {path p : Bytes} {k : HexKey}, k ≠ [] → path ++ hexBytes k <+: p → p ≠ path := by
    rintro path _ k hk hpre rfl
    have := hpre.length_le
    simp [hexBytes, hk] at this
  induction T generalizing path with
  | nil => exact hT.elim
  | value b => exact hT.elim
  | short k v ih =>
    rw [storedNodes]
    rcases hT with ⟨c, b, rfl, rfl⟩ | ⟨c, hc, rfl, -, hv⟩
    · rw [hasTerm_terminated]
      exact hown (by simp) (by simp)
    · rw [hasTerm_letters]
      exact hown (ih hv _) fun n hn =>
        hlonger (by simpa [letters] using hc) (prefix_of_mem_storedNodes hn)
  | full ch ih =>
    rw [storedNodes]
    refine hown ?_ fun n hn => ?_
    · change ((Multiset.bind Finset.univ.val fun i : Fin 16 =>
        storedNodes keccak (ch i.castSucc) (path ++ hexBytes [i.castSucc])).map _).Nodup
      rw [map_bind, nodup_bind]
      refine ⟨fun i _ => ?_, Multiset.Nodup.pairwise (fun i _ j _ hij => ?_) Finset.univ.nodup⟩
      · rcases hT.2 i with hnil | hi
        · simp [hnil, storedNodes]
        · exact ih _ hi _
      · -- The paths go on with different letters.
        rw [Function.onFun, disjoint_left]
        rintro p hp hp'
        obtain ⟨n, hn, rfl⟩ := mem_map.mp hp
        obtain ⟨n', hn', heq⟩ := mem_map.mp hp'
        have h := prefix_of_mem_storedNodes hn
        have h' := prefix_of_mem_storedNodes hn'
        rw [heq] at h'
        have heq' := (List.prefix_of_prefix_length_le h h' (by simp [hexBytes])).eq_of_length
          (by simp [hexBytes])
        have hbyte : Nibble.byte i.castSucc = Nibble.byte j.castSucc := by
          simpa [hexBytes] using heq'
        exact hij (castSucc_injective 16 (byte_injective _ _ hbyte))
    · obtain ⟨i, -, hi⟩ := mem_sum.mp hn
      exact hlonger (by simp) (prefix_of_mem_storedNodes hi)

end

theorem Trie.commit_ofRadix (keccak : Bytes → FixedBytes 32) {t : Trie} {T : Radix 17 Bytes}
    (hroot : t.root = ofRadix T) (hT : Shaped T) : (t.hash keccak).1 = keccak (encoding keccak T) ∧
      ∃ nodes, t.commit keccak = .ok (keccak (encoding keccak T), nodes) ∧
        (nodes : Multiset StoredNode) = storedNodes keccak T [] := by
  have hcommits : Commits keccak T true [] _ := commits_of_shaped hT (by simp)
  obtain ⟨href, -, -, -, n, nodes, hcommit, -, hnodes⟩ := hcommits
  have hne : t.root.isNil = false := by
    rw [hroot]
    cases T <;> first | rfl | exact hT.elim
  have hhash : (t.hash keccak).1 = keccak (encoding keccak T) := by
    rw [Trie.hash, hne, hroot]
    simp [href, reference]
  refine ⟨hhash, nodes, ?_, hnodes⟩
  have hroot' : (t.hash keccak).2.root = ((ofRadix T).hashWith keccak true).2 := by
    rw [Trie.hash, hne, hroot]
    rfl
  rw [Trie.commit, hne]
  simp only [Bool.false_eq_true, if_false, hroot', hcommit, hhash, ok_bind]

end ChilizChain.Patricia
