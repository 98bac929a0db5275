import ChilizChain.Trie.StackTrie

/-! # A stack trie is a trie

The right edge of a stack trie, together with the hashes of what lies left of it, represents the
radix tree of all keys so far. `hash` brings out the encoding of the tree, an insertion at the
right edge is an insertion into the tree, and what has been handed to the callback is at each
moment what the finished part of the tree stores. -/

namespace ChilizChain.Patricia

open Function List Finset Bool StNode Except

/-! ## Keys in ascending order -/

/-- The first key parts from the second one at a smaller letter. -/
def Precedes : HexKey → List (Fin 16) → Prop
  | a :: hex, j :: key => a < j.castSucc ∨ a = j.castSucc ∧ Precedes hex key
  | _, _ => False

theorem letters_append (c r : List (Fin 16)) : letters (c ++ r) = letters c ++ letters r :=
  map_append

theorem letters_cons (a : Fin 16) (r : List (Fin 16)) :
    letters (a :: r) = a.castSucc :: letters r := rfl

@[simp] theorem letters_eq_nil {c : List (Fin 16)} : letters c = [] ↔ c = [] :=
  map_eq_nil_iff

variable {k : List (Fin 16)} {q : HexKey}

theorem precedes_append {r : List (Fin 16)} :
    Precedes (letters k ++ q) (k ++ r) ↔ Precedes q r := by
  induction k with
  | nil => rfl
  | cons a k ih => simp [letters_cons, Precedes, ih]

theorem Precedes.split {key : List (Fin 16)} (h : Precedes (letters k ++ q) key) :
    (∃ r, key = k ++ r ∧ Precedes q r) ∨
      ∃ c i y j x, k = c ++ i :: y ∧ key = c ++ j :: x ∧ i < j := by
  induction k generalizing key with
  | nil => exact .inl ⟨key, rfl, h⟩
  | cons a k ih =>
    cases key with
    | nil => exact h.elim
    | cons b key =>
      rcases h with hlt | ⟨heq, h⟩
      · exact .inr ⟨[], a, k, b, key, rfl, rfl, Fin.castSucc_lt_castSucc_iff.mp hlt⟩
      · obtain rfl := Fin.castSucc_injective 16 heq
        rcases ih h with ⟨r, rfl, hr⟩ | ⟨c, i, y, j, x, rfl, rfl, hij⟩
        · exact .inl ⟨r, rfl, hr⟩
        · exact .inr ⟨a :: c, i, y, j, x, rfl, rfl, hij⟩

theorem not_precedes_terminator (key : List (Fin 16)) : ¬ Precedes [terminator] key := by
  cases key with
  | nil => exact id
  | cons j key =>
    rintro (h | ⟨-, h⟩)
    · exact absurd (h.trans (Fin.castSucc_lt_last j)) (lt_irrefl _)
    · exact h

theorem Precedes.lt {key : List (Fin 16)} (h : Precedes (letters k ++ q) key) : k < key := by
  induction k generalizing key with
  | nil =>
    cases key with
    | nil => cases q <;> exact h.elim
    | cons j key => exact nil_lt_cons j key
  | cons a k ih =>
    cases key with
    | nil => exact h.elim
    | cons b key =>
      rcases h with hlt | ⟨heq, h⟩
      · exact cons_lt_cons_iff.mpr (.inl (Fin.castSucc_lt_castSucc_iff.mp hlt))
      · exact cons_lt_cons_iff.mpr (.inr ⟨Fin.castSucc_injective 16 heq, ih h⟩)

theorem precedes_of_lt {a b : Bytes} (hlt : a < b) (hpre : ¬ a <+: b) :
    Precedes (keybytesToHex a) (nibbles b) := by
  induction a generalizing b with
  | nil => exact absurd nil_prefix hpre
  | cons x a ih =>
    cases b with
    | nil => exact absurd hlt (not_lt_nil _)
    | cons y b =>
      have hhex : keybytesToHex (x :: a) =
          (⟨x.toNat / 16, by have := x.toNat_lt; omega⟩ : Fin 16).castSucc ::
          (⟨x.toNat % 16, Nat.mod_lt _ (by decide)⟩ : Fin 16).castSucc :: keybytesToHex a := rfl
      rw [hhex, nibbles_cons]
      rcases cons_lt_cons_iff.mp hlt with hxy | ⟨rfl, hab⟩
      · have hxy : x.toNat < y.toNat := UInt8.lt_iff_toNat_lt.mp hxy
        by_cases hhigh : x.toNat / 16 < y.toNat / 16
        · exact .inl hhigh
        · refine .inr ⟨Fin.ext (show x.toNat / 16 = y.toNat / 16 by omega), .inl ?_⟩
          show x.toNat % 16 < y.toNat % 16
          omega
      · exact .inr ⟨rfl, .inr ⟨rfl, ih hab fun h => hpre (cons_prefix_cons.mpr ⟨rfl, h⟩)⟩⟩

variable {T : Radix 17 Bytes}

theorem Shaped.ne_nil (h : Shaped T) : T ≠ .nil := by
  rintro rfl
  exact h

namespace StNode

variable (keccak : Bytes → FixedBytes 32)

/-! ## What a node stands for -/

/-- The node stands for a tree: what it has hashed is known by its reference only. -/
def Rep : StNode → Radix 17 Bytes → Prop
  | nil, T => T = .nil
  | empty, _ => False
  | hashed val, T => val = reference keccak (encoding keccak T) false ∧ Shaped T
  | leaf key val, T => T = .short (letters key ++ [terminator]) (.value val)
  | ext key child, T => ∃ V, T = .short (letters key) V ∧ key ≠ [] ∧ IsFull V ∧ child.Rep V
  | branch children, T =>
    ∃ ch, T = .full ch ∧ ch terminator = .nil ∧ ∀ i, (children i).Rep (ch i.castSucc)

/-- What the hashed parts of a node have handed to the callback. -/
def done : StNode → Radix 17 Bytes → Bytes → Multiset StoredNode
  | hashed _, T, path => storedNodes keccak T path
  | ext key child, .short _ V, path => done child V (path ++ pathBytes key)
  | branch children, .full ch, path =>
    ∑ i, done (children i) (ch i.castSucc) (path ++ pathBytes [i])
  | _, _, _ => 0

/-- The right edge is in memory, and nothing stands right of it. -/
def Live : StNode → Prop
  | leaf _ _ => True
  | ext _ child => child.Live
  | branch children => ∃ i, (children i).Live ∧ ∀ j, i < j → children j = nil
  | _ => False

variable {keccak}

variable {st : StNode}

@[simp] theorem isNil_iff : st.isNil = true ↔ st = nil := by
  cases st <;> simp [isNil]

variable {T : Radix 17 Bytes}

theorem Rep.shaped (h : st.Rep keccak T) (hne : st ≠ nil) : Shaped T := by
  induction st generalizing T with
  | nil => exact absurd rfl hne
  | empty => exact h.elim
  | hashed val => exact h.2
  | leaf key val =>
    obtain rfl := h
    exact .inl ⟨key, val, rfl, rfl⟩
  | ext key child ih =>
    obtain ⟨V, rfl, hkey, hfull, hchild⟩ := h
    refine .inr ⟨key, hkey, rfl, hfull, ih hchild ?_⟩
    rintro rfl
    rw [show V = .nil from hchild] at hfull
    exact hfull
  | branch cs ih =>
    obtain ⟨ch, rfl, hend, hchildren⟩ := h
    refine ⟨hend, fun i => ?_⟩
    by_cases hi : cs i = nil
    · have hnil := hchildren i
      rw [hi] at hnil
      exact .inl hnil
    · exact .inr (ih i (hchildren i) hi)


/-! ## Hashing -/

theorem finish_spec (keccak : Bytes → FixedBytes 32) (path blob : Bytes) (below : List StoredNode) :
    ∃ nodes, finish keccak path blob below = (reference keccak blob (decide (path = [])), nodes) ∧
      (nodes : Multiset StoredNode) = below + ownNode keccak path blob := by
  unfold finish reference ownNode
  by_cases h : blob.length < 32 ∧ path ≠ []
  · exact ⟨below, by simp [h], by simp [h]⟩
  · rw [if_neg h, if_neg h, if_neg (by simpa using h)]
    exact ⟨_, rfl, rfl⟩

theorem pathBytes_append_ne_nil (path : Bytes) {key : List (Fin 16)} (h : key ≠ []) :
    decide (path ++ pathBytes key = []) = false := by
  simp [h]

/-- `hash` gives the reference of the tree, and hands over what was still missing of it. -/
theorem hash_spec (path : Bytes) (hrep : st.Rep keccak T) (hne : st ≠ nil)
    (hpath : path = [] → st.isHashed = false) : ∃ nodes, st.hash keccak path =
        .ok (reference keccak (encoding keccak T) (decide (path = [])), nodes) ∧
      storedNodes keccak T path = done keccak st T path + nodes := by
  induction st generalizing T path with
  | nil => exact absurd rfl hne
  | empty => exact hrep.elim
  | hashed val =>
    obtain ⟨rfl, -⟩ := hrep
    have hpath' : path ≠ [] := fun h => by cases hpath h
    exact ⟨[], by simp [hash, hpath'], by simp [done]⟩
  | leaf key val =>
    obtain rfl := hrep
    have henc : encoding keccak (.short (letters key ++ [terminator]) (.value val)) =
        encodeLeaf (hexToCompact (letters key ++ [terminator])) val := by
      rw [encoding, if_pos (hasTerm_terminated key), valueOf]
    obtain ⟨nodes, hfinish, hnodes⟩ := finish_spec keccak path
      (encodeLeaf (hexToCompact (letters key ++ [terminator])) val) []
    refine ⟨nodes, ?_, ?_⟩
    · rw [hash, hexToCompactInPlace_eq (by simp), orPanic, ok_bind, hfinish, henc]
    · rw [storedNodes, if_pos (hasTerm_terminated key), henc, hnodes]
      simp only [done, Multiset.coe_nil, zero_add]
  | ext key child ih =>
    obtain ⟨V, rfl, hkey, hfull, hchild⟩ := hrep
    have hchild_ne : child ≠ nil := by
      rintro rfl
      rw [show V = .nil from hchild] at hfull
      exact hfull
    obtain ⟨below, hhash, hbelow⟩ := ih (path ++ pathBytes key) hchild hchild_ne
      (fun h => by simp [hkey] at h)
    rw [pathBytes_append_ne_nil path hkey] at hhash
    have henc : encoding keccak (.short (letters key) V) = encodeExt (hexToCompact (letters key))
        (reference keccak (encoding keccak V) false) := by
      simp only [encoding, hasTerm_letters, false_eq_true, if_false]
    obtain ⟨nodes, hfinish, hnodes⟩ := finish_spec keccak path
      (encodeExt (hexToCompact (letters key)) (reference keccak (encoding keccak V) false)) below
    refine ⟨nodes, ?_, ?_⟩
    · have hletters : letters key ≠ [] := by simpa using hkey
      simp only [hash, hhash, ok_bind, hexToCompactInPlace_eq hletters, orPanic, hfinish, henc]
    · rw [storedNodes, hasTerm_letters, henc, hnodes, done, ← add_assoc, ← hbelow]
      simp only [false_eq_true, if_false]
  | branch cs ih =>
    obtain ⟨ch, rfl, hend, hchildren⟩ := hrep
    have hpart : ∀ i, ∃ part : Bytes × List StoredNode,
        (if (cs i).isNil then .ok ([], [])
          else (cs i).hash keccak (path ++ pathBytes [i])) = .ok part ∧
        part.1 = reference keccak (encoding keccak (ch i.castSucc)) false ∧
        storedNodes keccak (ch i.castSucc) (path ++ pathBytes [i]) =
          done keccak (cs i) (ch i.castSucc) (path ++ pathBytes [i]) + part.2 := by
      intro i
      by_cases hi : cs i = nil
      · have hnil := hchildren i
        rw [hi] at hnil
        rw [show ch i.castSucc = .nil from hnil, hi]
        exact ⟨([], []), rfl, reference_nil.symm, by simp [storedNodes, done]⟩
      · obtain ⟨nodes, hhash, hnodes⟩ := ih i (path ++ pathBytes [i]) (hchildren i) hi
          (fun h => by simp at h)
        rw [pathBytes_append_ne_nil path (by simp)] at hhash
        exact ⟨_, by rw [if_neg (by simpa using hi), hhash], rfl, hnodes⟩
    choose parts hparts href hnodes using hpart
    have henc : encodeFull (Fin.lastCases [] fun i => (parts i).1) =
        encoding keccak (.full ch) := by
      rw [encoding]
      congr
      funext i
      induction i using Fin.lastCases with
      | last =>
        have hlast : Fin.last 16 = terminator := rfl
        rw [Fin.lastCases_last, if_pos hlast, hlast, hend]
        rfl
      | cast i =>
        have hi : i.castSucc ≠ terminator := (Fin.castSucc_lt_last i).ne
        rw [Fin.lastCases_castSucc, if_neg hi, href]
    obtain ⟨nodes, hfinish, hown⟩ := finish_spec keccak path (encoding keccak (.full ch))
      ((List.finRange 16).flatMap fun i => (parts i).2)
    refine ⟨nodes, ?_, ?_⟩
    · rw [hash, collect_ok hparts, ok_bind]
      simp only [henc, hfinish]
    · rw [storedNodes, hown, done, ← add_assoc, coe_flatMap_finRange, ← sum_add_distrib]
      exact congrArg (· + _) (sum_congr rfl fun i _ => hnodes i)

/-! ## Insertion -/

theorem getDiffIndex_append (k r : List (Fin 16)) : getDiffIndex k (k ++ r) = some k.length := by
  induction k with
  | nil => cases r <;> rfl
  | cons a k ih => simp [getDiffIndex, ih]

variable {i j : Fin 16}

theorem getDiffIndex_split (c x y : List (Fin 16)) (hij : i ≠ j) :
    getDiffIndex (c ++ i :: y) (c ++ j :: x) = some c.length := by
  induction c with
  | nil => simp [getDiffIndex, hij]
  | cons a c ih => simp [getDiffIndex, ih]

theorem sum_eq_add_of_eq {g g' : Fin 16 → Multiset StoredNode} {m : Multiset StoredNode}
    (i : Fin 16) (hi : g' i = g i + m) (hne : ∀ j, j ≠ i → g' j = g j) :
    ∑ j, g' j = ∑ j, g j + m := by
  have hg : ∀ j, g' j = g j + if j = i then m else 0 := by
    intro j
    by_cases hj : j = i
    · rw [hj, hi, if_pos rfl]
    · rw [hne j hj, if_neg hj, add_zero]
  simp only [hg, sum_add_distrib, sum_ite_eq', mem_univ, if_true]

theorem pathBytes_append (c r : List (Fin 16)) :
    pathBytes (c ++ r) = pathBytes c ++ pathBytes r := by
  rw [pathBytes, letters_append, hexBytes_append]

theorem branch_spec (keccak : Bytes → FixedBytes 32) {S : Radix 17 Bytes} {val : Bytes}
    (x : List (Fin 16)) (value path : Bytes) (hij : i < j) (hS : Shaped S)
    (hval : val = reference keccak (encoding keccak S) false) :
    let st := branch (update (update (fun _ => nil) i (hashed val)) j
      (leaf x value))
    let T := Radix.fork i.castSucc S j.castSucc (.short (letters x ++ [terminator]) (.value value))
    st.Rep keccak T ∧ st.Live ∧
      done keccak st T path = storedNodes keccak S (path ++ pathBytes [i]) := by
  intro st T
  have hcast : ∀ {a b : Fin 16}, a ≠ b → a.castSucc ≠ b.castSucc :=
    fun h heq => h (Fin.castSucc_injective 16 heq)
  have hend : ∀ a : Fin 16, terminator ≠ a.castSucc := fun a => (Fin.castSucc_lt_last a).ne'
  refine ⟨⟨_, rfl, ?_, fun n => ?_⟩, ⟨j, ?_, fun n hn => ?_⟩, ?_⟩
  · rw [update_of_ne (hend j), update_of_ne (hend i)]
  · by_cases hj : n = j
    · subst hj
      simp only [update_self]
      rfl
    · rw [update_of_ne hj, update_of_ne (hcast hj)]
      by_cases hi : n = i
      · subst hi
        simp only [update_self]
        exact ⟨hval, hS⟩
      · rw [update_of_ne hi, update_of_ne (hcast hi)]
        rfl
  · simp only [update_self]
    trivial
  · rw [update_of_ne hn.ne', update_of_ne (hij.trans hn).ne']
  · simp only [st, T, Radix.fork, done]
    rw [sum_eq_single i]
    · rw [update_of_ne hij.ne, update_of_ne (hcast hij.ne), update_self,
        update_self, done]
    · intro n _ hi
      by_cases hj : n = j
      · subst hj
        simp only [update_self, done]
      · simp only [update_of_ne hj, update_of_ne hi, done]
    · exact fun h => absurd (mem_univ i) h

theorem fork_spec (keccak : Bytes → FixedBytes 32) {S : Radix 17 Bytes} {val : Bytes}
    (c x : List (Fin 16)) (value path : Bytes) (hij : i < j) (hS : Shaped S)
    (hval : val = reference keccak (encoding keccak S) false) :
    let st := fork c i (hashed val) j (leaf x value)
    let T := Radix.hang (letters c) (Radix.fork i.castSucc S j.castSucc
      (.short (letters x ++ [terminator]) (.value value)))
    st.Rep keccak T ∧ st.Live ∧
      done keccak st T path = storedNodes keccak S (path ++ pathBytes (c ++ [i])) := by
  by_cases hc : c = []
  · subst hc
    exact branch_spec keccak x value path hij hS hval
  · obtain ⟨hrep, hlive, hdone⟩ :=
      branch_spec keccak x value (path ++ pathBytes c) hij hS hval
    simp only [fork, if_neg hc, Radix.hang, letters_eq_nil]
    refine ⟨⟨_, rfl, hc, trivial, hrep⟩, hlive, ?_⟩
    rw [done, hdone, pathBytes_append, append_assoc]

theorem hashElder_spec {cs : Fin 16 → StNode} {ch : Nibble → Radix 17 Bytes}
    (hrep : ∀ i, (cs i).Rep keccak (ch i.castSucc)) (idx : Fin 16) (path : Bytes) :
    ∃ cs' nodes, hashElder keccak cs idx path = .ok (cs', nodes) ∧
      (∀ i, (cs' i).Rep keccak (ch i.castSucc)) ∧ cs' idx = cs idx ∧
      (∀ i, cs i = nil → cs' i = nil) ∧
      ∑ i, done keccak (cs' i) (ch i.castSucc) (path ++ pathBytes [i]) =
        ∑ i, done keccak (cs i) (ch i.castSucc) (path ++ pathBytes [i]) + nodes := by
  unfold hashElder
  cases helder : elder cs idx with
  | none => exact ⟨cs, [], rfl, hrep, rfl, fun _ h => h, by simp⟩
  | some i =>
    have hfound := find?_some helder
    simp only [and_eq_true, decide_eq_true_eq, not_eq_true', ← not_eq_true, isNil_iff] at hfound
    by_cases hhashed : (cs i).isHashed = true
    · exact ⟨cs, [], by simp [hhashed], hrep, rfl, fun _ h => h, by simp⟩
    · obtain ⟨nodes, hhash, hnodes⟩ := hash_spec (path ++ pathBytes [i]) (hrep i) hfound.2
        (fun h => by simp at h)
      rw [pathBytes_append_ne_nil path (by simp)] at hhash
      refine ⟨update cs i
        (hashed (reference keccak (encoding keccak (ch i.castSucc)) false)), nodes,
        by simp [hhashed, hhash], fun n => ?_, update_of_ne hfound.1.ne' _ _,
        fun n hn => ?_, ?_⟩
      · by_cases hn : n = i
        · subst hn
          rw [update_self]
          exact ⟨rfl, (hrep n).shaped hfound.2⟩
        · rw [update_of_ne hn]
          exact hrep n
      · have hni : n ≠ i := by
          rintro rfl
          exact hfound.2 hn
        rw [update_of_ne hni, hn]
      · refine sum_eq_add_of_eq i ?_ fun n hn => by rw [update_of_ne hn]
        rw [update_self, done, hnodes]

theorem insert_leaf_split (c x y : List (Fin 16)) (val value path : Bytes) (hij : i ≠ j) :
    (leaf (c ++ i :: y) val).insert keccak (c ++ j :: x) value path = (do
      let (val, nodes) ← (leaf y val).hash keccak (path ++ pathBytes (c ++ [i]))
      .ok (fork c i (hashed val) j (leaf x value), nodes)) := by
  have htake : (c ++ i :: y).take (c.length + 1) = c ++ [i] := by simp [take_append]
  simp [insert, getDiffIndex_split c x y hij, orPanic, htake]

theorem insert_ext_split (c x y : List (Fin 16)) (child : StNode) (value path : Bytes)
    (hij : i ≠ j) :
    (ext (c ++ i :: y) child).insert keccak (c ++ j :: x) value path = (do
      let (val, nodes) ← (if y = [] then child else ext y child).hash keccak
        (path ++ pathBytes (c ++ [i]))
      .ok (fork c i (hashed val) j (leaf x value), nodes)) := by
  by_cases hy : y = []
  · subst hy
    simp [insert, getDiffIndex_split c x [] hij, orPanic]
  · have hlen : 0 < y.length := length_pos_iff.mpr hy
    have htake : (c ++ i :: y).take (c.length + 1) = c ++ [i] := by simp [take_append]
    simp [insert, getDiffIndex_split c x y hij, orPanic, htake, hy, hlen]

theorem branch_update_spec {cs cs' : Fin 16 → StNode} {ch : Nibble → Radix 17 Bytes}
    {idx : Fin 16} {child : StNode} {V : Radix 17 Bytes} {path : Bytes}
    {nodes nodes' : Multiset StoredNode} (hend : ch terminator = .nil)
    (hrep : ∀ i, (cs' i).Rep keccak (ch i.castSucc)) (hidx : cs' idx = cs idx)
    (hnil : ∀ j, idx < j → cs' j = nil) (hchild : child.Rep keccak V) (hlive : child.Live)
    (hsum : ∑ i, done keccak (cs' i) (ch i.castSucc) (path ++ pathBytes [i]) =
      ∑ i, done keccak (cs i) (ch i.castSucc) (path ++ pathBytes [i]) + nodes)
    (hdone : done keccak child V (path ++ pathBytes [idx]) =
      done keccak (cs idx) (ch idx.castSucc) (path ++ pathBytes [idx]) + nodes') :
    let st := branch (update cs' idx child)
    let T := Radix.full (update ch idx.castSucc V)
    st.Rep keccak T ∧ st.Live ∧
      done keccak st T path = done keccak (branch cs) (.full ch) path + (nodes + nodes') := by
  intro st T
  have hcast : ∀ {n : Fin 16}, n ≠ idx → n.castSucc ≠ idx.castSucc :=
    fun h heq => h (Fin.castSucc_injective 16 heq)
  refine ⟨⟨_, rfl, ?_, fun n => ?_⟩, ⟨idx, ?_, fun n hn => ?_⟩, ?_⟩
  · have hidx' : terminator ≠ idx.castSucc := (Fin.castSucc_lt_last idx).ne'
    rw [update_of_ne hidx', hend]
  · by_cases hn : n = idx
    · subst hn
      simpa only [update_self] using hchild
    · rw [update_of_ne hn, update_of_ne (hcast hn)]
      exact hrep n
  · simpa only [update_self] using hlive
  · rw [update_of_ne hn.ne', hnil n hn]
  · simp only [st, T, done]
    rw [← add_assoc, ← hsum]
    refine sum_eq_add_of_eq idx ?_ fun n hn => ?_
    · simp only [update_self]
      rw [hdone, hidx]
    · rw [update_of_ne hn, update_of_ne (hcast hn)]

/-- Everything the tree holds precedes the key. -/
def After (T : Radix 17 Bytes) (key : List (Fin 16)) : Prop :=
  ∀ hex b, T.find hex = some b → Precedes hex key

theorem hang_leaf (x : List (Fin 16)) (value : Bytes) :
    Radix.hang (letters x ++ [terminator]) (.value value) =
      Radix.short (letters x ++ [terminator]) (.value value) :=
  if_neg (by simp)

theorem insert_short_parted {y : HexKey} {V : Radix 17 Bytes} (c x : List (Fin 16)) (value : Bytes)
    (hij : i < j) :
    (Radix.short (letters c ++ i.castSucc :: y) V).insert (letters (c ++ j :: x) ++ [terminator])
        value = Radix.hang (letters c) (Radix.fork i.castSucc (Radix.hang y V) j.castSucc
        (.short (letters x ++ [terminator]) (.value value))) := by
  have hne : j.castSucc ≠ i.castSucc := fun h => hij.ne' (Fin.castSucc_injective 16 h)
  have hkey : letters (c ++ j :: x) ++ [terminator] =
      letters c ++ j.castSucc :: (letters x ++ [terminator]) := by
    simp [letters_append, letters_cons]
  rw [hkey, Radix.insert_short_split value hne, hang_leaf]

variable {value path : Bytes}

/-- The insertion into the node is an insertion into the tree. -/
def Inserts (keccak : Bytes → FixedBytes 32) (st : StNode) (T : Radix 17 Bytes)
    (key : List (Fin 16)) (value path : Bytes) : Prop :=
  ∃ st' nodes, st.insert keccak key value path = .ok (st', nodes) ∧
    st'.Rep keccak (T.insert (letters key ++ [terminator]) value) ∧ st'.Live ∧
    done keccak st' (T.insert (letters key ++ [terminator]) value) path =
      done keccak st T path + nodes

/-- Where the key parts from the node, what is left of the node is finished. -/
theorem inserts_parted {rest : StNode} {y : HexKey} {V : Radix 17 Bytes} (c x : List (Fin 16))
    (hij : i < j) (hrest : rest.Rep keccak (Radix.hang y V)) (hne : rest ≠ nil)
    (hinsert : st.insert keccak (c ++ j :: x) value path = (do
      let (val, nodes) ← rest.hash keccak (path ++ pathBytes (c ++ [i]))
      .ok (fork c i (hashed val) j (leaf x value), nodes)))
    (hdone : done keccak rest (Radix.hang y V) (path ++ pathBytes (c ++ [i])) =
      done keccak st (.short (letters c ++ i.castSucc :: y) V) path) :
    st.Inserts keccak (.short (letters c ++ i.castSucc :: y) V) (c ++ j :: x) value path := by
  obtain ⟨nodes, hhash, hnodes⟩ := hash_spec (path ++ pathBytes (c ++ [i])) hrest hne
    (fun h => by simp at h)
  rw [pathBytes_append_ne_nil path (by simp)] at hhash
  obtain ⟨hrep, hlive, hforked⟩ := fork_spec keccak c x value path hij (hrest.shaped hne) rfl
  refine ⟨_, nodes, by rw [hinsert, hhash]; rfl, ?_, hlive, ?_⟩
  · rw [insert_short_parted c x value hij]
    exact hrep
  · rw [insert_short_parted c x value hij, hforked, hnodes, hdone]

theorem leaf_inserts {key : List (Fin 16)} {val : Bytes}
    (hafter : After (.short (letters k ++ [terminator]) (.value val)) key) :
    (leaf k val).Inserts keccak (.short (letters k ++ [terminator]) (.value val))
      key value path := by
  have hprecedes := hafter (letters k ++ [terminator]) val (by simp [Radix.find_leaf])
  rcases hprecedes.split with ⟨r, -, hr⟩ | ⟨c, i, y, j, x, rfl, rfl, hij⟩
  · exact absurd hr (not_precedes_terminator r)
  · rw [letters_append, letters_cons, append_assoc, cons_append]
    have hleaf : (leaf y val).Rep keccak (Radix.hang (letters y ++ [terminator]) (.value val)) :=
      hang_leaf y val
    refine inserts_parted c x hij hleaf (by simp)
      (insert_leaf_split c x y val value path hij.ne) ?_
    rw [hang_leaf]
    rfl

/-- The key goes on below the extension. -/
theorem ext_inserts_below {child : StNode} {V : Radix 17 Bytes} {r : List (Fin 16)}
    (hk : k ≠ []) (hfull : IsFull V)
    (hchild : child.Inserts keccak V r value (path ++ pathBytes k)) :
    (ext k child).Inserts keccak (.short (letters k) V) (k ++ r) value path := by
  obtain ⟨child', nodes, hinsert, hrep', hlive', hdone⟩ := hchild
  have htree : (Radix.short (letters k) V).insert (letters (k ++ r) ++ [terminator]) value =
      .short (letters k) (V.insert (letters r ++ [terminator]) value) := by
    rw [letters_append, append_assoc, Radix.insert_short_append value (by simpa using hk)]
  have hfull' : IsFull (V.insert (letters r ++ [terminator]) value) := by
    obtain ⟨a, rest, hcons⟩ := exists_cons_of_ne_nil (show letters r ++ [terminator] ≠ [] by simp)
    rw [hcons]
    cases V <;> trivial
  refine ⟨ext k child', nodes, ?_, ?_, hlive', ?_⟩
  · simp [insert, getDiffIndex_append, orPanic, hinsert]
  · rw [htree]
    exact ⟨_, rfl, hk, hfull', hrep'⟩
  · rw [htree, done, done, hdone]

/-- The key parts from the extension. -/
theorem ext_inserts_parted {child : StNode} {V : Radix 17 Bytes} (c x y : List (Fin 16))
    (hij : i < j) (hfull : IsFull V) (hchild : child.Rep keccak V) (hne : child ≠ nil) :
    (ext (c ++ i :: y) child).Inserts keccak (.short (letters (c ++ i :: y)) V) (c ++ j :: x)
      value path := by
  have hrest : (if y = [] then child else ext y child).Rep keccak (Radix.hang (letters y) V) ∧
      (if y = [] then child else ext y child) ≠ nil ∧
      done keccak (if y = [] then child else ext y child) (Radix.hang (letters y) V)
          (path ++ pathBytes (c ++ [i])) =
        done keccak child V (path ++ pathBytes (c ++ i :: y)) := by
    by_cases hy : y = []
    · subst hy
      exact ⟨hchild, hne, rfl⟩
    · rw [Radix.hang, if_neg hy, if_neg (by simpa using hy)]
      refine ⟨⟨V, rfl, hy, hfull, hchild⟩, by simp, ?_⟩
      rw [done, append_assoc, ← pathBytes_append, append_assoc, singleton_append]
  obtain ⟨hrep, hrestne, hdone⟩ := hrest
  rw [letters_append, letters_cons]
  exact inserts_parted c x hij hrep hrestne (insert_ext_split c x y child value path hij.ne)
    (by rw [hdone, done])

section Branch

variable {cs : Fin 16 → StNode} {ch : Nibble → Radix 17 Bytes} {idx last : Fin 16}
  {key : List (Fin 16)} (hend : ch terminator = .nil)
  (hchildren : ∀ i, (cs i).Rep keccak (ch i.castSucc)) (hle : last ≤ idx)
  (hright : ∀ j, last < j → cs j = nil)
include hend hchildren hle hright

theorem branch_inserts_new (hchild : cs idx = nil) :
    (branch cs).Inserts keccak (.full ch) (idx :: key) value path := by
  obtain ⟨cs', nodes, helder, hrep', hidx, hnil, hsum⟩ := hashElder_spec hchildren idx path
  have hchnil := hchildren idx
  rw [hchild] at hchnil
  have hnew : (ch idx.castSucc).insert (letters key ++ [terminator]) value =
      .short (letters key ++ [terminator]) (.value value) := by
    rw [show ch idx.castSucc = .nil from hchnil, ← hang_leaf]
    cases letters key <;> rfl
  have hleaf : (leaf key value).Rep keccak
      ((ch idx.castSucc).insert (letters key ++ [terminator]) value) := hnew
  have hzero : done keccak (leaf key value)
        ((ch idx.castSucc).insert (letters key ++ [terminator]) value) (path ++ pathBytes [idx]) =
      done keccak (cs idx) (ch idx.castSucc) (path ++ pathBytes [idx]) + 0 := by
    simp [hchild, done]
  obtain ⟨hrep, hlive, hdone⟩ := branch_update_spec hend hrep' hidx
    (fun j hj => hnil j (hright j (hle.trans_lt hj))) hleaf trivial hsum hzero
  refine ⟨_, nodes, ?_, hrep, hlive, hdone.trans (by rw [add_zero])⟩
  simp [insert, helder, hchild, isNil]

theorem branch_inserts_child (hne : cs idx ≠ nil)
    (hchild : (cs idx).Inserts keccak (ch idx.castSucc) key value (path ++ pathBytes [idx])) :
    (branch cs).Inserts keccak (.full ch) (idx :: key) value path := by
  obtain ⟨cs', nodes, helder, hrep', hidx, hnil, hsum⟩ := hashElder_spec hchildren idx path
  obtain ⟨child', nodes', hinsert, hchild', hlive', hdone'⟩ := hchild
  obtain ⟨hrep, hlive, hdone⟩ := branch_update_spec hend hrep' hidx
    (fun j hj => hnil j (hright j (hle.trans_lt hj))) hchild' hlive' hsum hdone'
  have hisNil : (cs idx).isNil = false := by
    rw [← not_eq_true, isNil_iff]
    exact hne
  refine ⟨_, nodes ++ nodes', ?_, hrep, hlive, hdone.trans (by rw [Multiset.coe_add])⟩
  simp [insert, helder, hisNil, hinsert]

end Branch

/-- An insertion at the right edge is an insertion into the tree. -/
theorem insert_spec {key : List (Fin 16)} (value path : Bytes) (hrep : st.Rep keccak T)
    (hlive : st.Live) (hcanonical : T.Canonical) (hafter : After T key) :
    st.Inserts keccak T key value path := by
  induction st generalizing T key path with
  | nil => exact hlive.elim
  | empty => exact hlive.elim
  | hashed val => exact hlive.elim
  | leaf k val =>
    obtain rfl := hrep
    exact leaf_inserts hafter
  | ext k child ih =>
    obtain ⟨V, rfl, hk, hfull, hchild⟩ := hrep
    have hVne : V ≠ .nil := by
      rintro rfl
      exact hfull
    obtain ⟨q, b, hq⟩ := hcanonical.2.2.exists_find hVne
    rcases (hafter (letters k ++ q) b (by simpa using hq)).split with
      ⟨r, rfl, -⟩ | ⟨c, i, y, j, x, rfl, rfl, hij⟩
    · refine ext_inserts_below hk hfull (ih (path ++ pathBytes k) hchild hlive hcanonical.2.2 ?_)
      exact fun hex b h => precedes_append.mp (hafter (letters k ++ hex) b (by simpa using h))
    · refine ext_inserts_parted c x y hij hfull hchild ?_
      rintro rfl
      exact hVne hchild
  | branch cs ih =>
    obtain ⟨ch, rfl, hend, hchildren⟩ := hrep
    obtain ⟨i, hi, hright⟩ := hlive
    have hne : cs i ≠ nil := by
      intro h
      rw [h] at hi
      exact hi
    -- The last child holds a key, so the new one goes there or further right.
    obtain ⟨q, b, hq⟩ := (hcanonical.2 i.castSucc).exists_find ((hchildren i).shaped hne).ne_nil
    have hprecedes := hafter (i.castSucc :: q) b hq
    cases key with
    | nil => exact hprecedes.elim
    | cons idx rest =>
      have hle : i ≤ idx := by
        rcases hprecedes with h | ⟨h, -⟩
        · exact (Fin.castSucc_lt_castSucc_iff.mp h).le
        · exact (Fin.castSucc_injective 16 h).le
      rcases hle.eq_or_lt with rfl | hlt
      · refine branch_inserts_child hend hchildren le_rfl hright hne
          (ih i (path ++ pathBytes [i]) (hchildren i) hi (hcanonical.2 _) fun hex b h => ?_)
        rcases hafter (i.castSucc :: hex) b h with hlt | ⟨-, h⟩
        · exact absurd hlt (lt_irrefl _)
        · exact h
      · exact branch_inserts_new hend hchildren hle hright (hright idx hlt)

end StNode

/-! ## Whole runs -/

/-- The writes to a trie with the same pairs. -/
def writes (pairs : List (Bytes × Bytes)) : List Write :=
  pairs.map fun (key, value) => .update key value

theorem writes_concat (pairs : List (Bytes × Bytes)) (key value : Bytes) :
    writes (pairs ++ [(key, value)]) = writes pairs ++ [.update key value] := by
  simp [writes]

/-- A stack trie that has taken some pairs, together with the tree it stands for and what it has
handed to the callback. -/
structure Fed (keccak : Bytes → FixedBytes 32) (pairs : List (Bytes × Bytes)) (t : StackTrie)
    (T : Radix 17 Bytes) (nodes : Multiset StoredNode) : Prop where
  root : pairs = [] ∧ t.root = .empty ∧ T = .nil ∨ t.root.Rep keccak T ∧ t.root.Live
  last : t.last = [] ∨ ∃ pair ∈ pairs, t.last = nibbles pair.1
  canonical : T.Canonical
  represents : Represents T (contents (writes pairs))
  keys : ∀ hex b, T.find hex = some b → ∃ pair ∈ pairs, hex = keybytesToHex pair.1
  nodes : nodes = t.root.done keccak T []

theorem Fed.new (keccak : Bytes → FixedBytes 32) : Fed keccak [] .new .nil 0 where
  root := .inl ⟨rfl, rfl, rfl⟩
  last := .inl rfl
  canonical := trivial
  represents := ⟨fun _ => rfl, fun _ _ h => by simp at h⟩
  keys := fun _ _ h => by simp at h
  nodes := rfl

variable {pairs : List (Bytes × Bytes)}

theorem Fed.update {keccak : Bytes → FixedBytes 32} {t : StackTrie} {nodes : Multiset StoredNode}
    (h : Fed keccak pairs t T nodes) {key value : Bytes} (hkey : key ≠ []) (hvalue : value ≠ [])
    (hlater : ∀ pair ∈ pairs, Precedes (keybytesToHex pair.1) (nibbles key)) :
    ∃ t' nodes' T', t.update keccak key value = .ok (t', nodes') ∧
      Fed keccak (pairs ++ [(key, value)]) t' T' (nodes + nodes') := by
  have hlast : t.last < nibbles key := by
    rcases h.last with hlast | ⟨pair, hpair, hlast⟩
    · obtain ⟨b, key, rfl⟩ := exists_cons_of_ne_nil hkey
      rw [hlast, nibbles_cons]
      exact nil_lt_cons _ _
    · rw [hlast]
      exact (hlater pair hpair).lt
  have hafter : After T (nibbles key) := by
    intro hex b hb
    obtain ⟨pair, hpair, rfl⟩ := h.keys hex b hb
    exact hlater pair hpair
  have hhex : letters (nibbles key) ++ [terminator] = keybytesToHex key := rfl
  obtain ⟨hcanonical, hfind⟩ := Radix.insert_spec value h.canonical (h.represents.fits key)
  -- The tree grows by the key, whatever the right edge looks like.
  obtain ⟨root, nodes', hinsert, hrep, hlive, hdone⟩ : ∃ root nodes',
      t.root.insert keccak (nibbles key) value [] = .ok (root, nodes') ∧
      root.Rep keccak (T.insert (keybytesToHex key) value) ∧ root.Live ∧
      root.done keccak (T.insert (keybytesToHex key) value) [] = nodes + nodes' := by
    rcases h.root with ⟨-, hempty, rfl⟩ | ⟨hrep, hlive⟩
    · have htree : Radix.nil.insert (keybytesToHex key) value =
          .short (letters (nibbles key) ++ [terminator]) (.value value) := by
        rw [← hang_leaf, hhex]
        obtain ⟨a, rest, hcons⟩ := exists_cons_of_ne_nil (terminated_keybytesToHex key).ne_nil
        rw [hcons]
        rfl
      refine ⟨.leaf (nibbles key) value, [], by rw [hempty]; rfl, htree, trivial, ?_⟩
      rw [h.nodes, hempty]
      simp [done]
    · rw [h.nodes, ← hhex]
      exact insert_spec value [] hrep hlive h.canonical hafter
  refine ⟨⟨root, nibbles key⟩, nodes', _, ?_, .inr ⟨hrep, hlive⟩, .inr ⟨(key, value), by simp, rfl⟩,
    hcanonical, ?_, fun hex b hb => ?_, hdone.symm⟩
  · simp [StackTrie.update, hvalue, hkey, hlast, hinsert]
  · rw [writes_concat, contents_concat]
    simpa [Write.key, Write.stored, hvalue] using h.represents.update hfind
  · rw [hfind] at hb
    by_cases hhex : hex = keybytesToHex key
    · exact ⟨(key, value), by simp, hhex⟩
    · rw [if_neg hhex] at hb
      obtain ⟨pair, hpair, heq⟩ := h.keys hex b hb
      exact ⟨pair, by simp [hpair], heq⟩

/-- Keys in ascending order of which none continues another. -/
def Ascending (pairs : List (Bytes × Bytes)) : Prop :=
  pairs.Pairwise fun a b => Precedes (keybytesToHex a.1) (nibbles b.1)

theorem Fed.feed {keccak : Bytes → FixedBytes 32} {rest : List (Bytes × Bytes)} {t : StackTrie}
    {nodes : Multiset StoredNode} (h : Fed keccak pairs t T nodes)
    (hascending : Ascending (pairs ++ rest))
    (hnonempty : ∀ pair ∈ rest, pair.1 ≠ [] ∧ pair.2 ≠ []) :
    ∃ t' nodes' T', t.feed keccak rest = .ok (t', nodes') ∧
      Fed keccak (pairs ++ rest) t' T' (nodes + nodes') := by
  induction rest generalizing pairs t T nodes with
  | nil => exact ⟨t, [], T, rfl, by simpa using h⟩
  | cons pair rest ih =>
    obtain ⟨key, value⟩ := pair
    obtain ⟨hkey, hvalue⟩ := hnonempty (key, value) (by simp)
    have hlater : ∀ pair ∈ pairs, Precedes (keybytesToHex pair.1) (nibbles key) := fun pair hpair =>
      (pairwise_append.mp hascending).2.2 pair hpair (key, value) (by simp)
    obtain ⟨t', nodes', T', hupdate, hfed⟩ := h.update hkey hvalue hlater
    obtain ⟨t'', nodes'', T'', hfeed, hfed'⟩ := ih hfed (by simpa using hascending)
      fun pair hpair => hnonempty pair (by simp [hpair])
    refine ⟨t'', nodes' ++ nodes'', T'', ?_, ?_⟩
    · simp [StackTrie.feed, hupdate, hfeed]
    · simpa [add_assoc] using hfed'

theorem ascending_of_lt (hascending : (pairs.map Prod.fst).Pairwise (· < ·))
    (hpre : (pairs.map Prod.fst).Pairwise fun a b => ¬ a <+: b) : Ascending pairs := by
  rw [pairwise_map] at hascending hpre
  exact hascending.imp₂ (fun a b hlt hnot => precedes_of_lt hlt hnot) hpre

/-- A stack trie that takes pairs in ascending order, none of whose keys is a prefix of another,
neither fails nor panics, has the hash of every trie that holds the same pairs, and hands to its
callback the nodes that committing such a trie stores: the root, and all nodes whose encoding has
at least 32 bytes. -/
theorem stackTrie_eq_trie (keccak : Bytes → FixedBytes 32) (pairs : List (Bytes × Bytes))
    (ws : List Write) (hascending : (pairs.map Prod.fst).Pairwise (· < ·))
    (hpre : (pairs.map Prod.fst).Pairwise fun a b => ¬ a <+: b)
    (hnonempty : ∀ pair ∈ pairs, pair.1 ≠ [] ∧ pair.2 ≠ [])
    (hsame : contents ws = contents (writes pairs)) : ∃ t nodes hash t' nodes' stored,
      StackTrie.feed keccak pairs .new = .ok (t, nodes) ∧ t.hash keccak = .ok (hash, t', nodes') ∧
      ((Trie.run ws).hash keccak).1 = hash ∧ (Trie.run ws).commit keccak = .ok (hash, stored) ∧
      (nodes ++ nodes').Perm stored ∧ (stored.map StoredNode.path).Nodup ∧
      ∀ n ∈ stored, (32 ≤ n.blob.length ∨ n.path = []) ∧ n.hash = keccak n.blob := by
  obtain ⟨t, nodes, T, hfeed, hfed⟩ := (Fed.new keccak).feed
    (ascending_of_lt hascending hpre) hnonempty
  have hholds := Trie.run_holds ws
  have hroot : (Trie.run ws).root = Node.ofRadix T := by
    rw [Node.Fresh.eq_ofRadix hholds.intact]
    congr 1
    exact hholds.represents.unique (hsame ▸ hfed.represents) hholds.canonical hfed.canonical
  rcases hfed.root with ⟨hnil, hempty, rfl⟩ | ⟨hrep, hlive⟩
  · -- Nothing was inserted.
    have hisNil : (Trie.run ws).root.isNil = true := by
      rw [hroot]
      rfl
    have hnodes : nodes = [] := by simpa [hempty, StNode.done] using hfed.nodes
    refine ⟨t, nodes, emptyRootHash, { t with root := .hashed emptyRootHash.bytes }, [], [], hfeed,
      ?_, ?_, ?_, ?_, nodup_nil, by simp⟩
    · simp [StackTrie.hash, hempty, StNode.hash]
    · simp [Trie.hash, hisNil]
    · simp [Trie.commit, hisNil]
    · simp [hnodes]
  · have hne : t.root ≠ .nil := by
      intro h
      rw [h] at hlive
      exact hlive
    have hhashed : t.root.isHashed = false := by
      cases hcase : t.root <;> rw [hcase] at hlive <;> first | rfl | exact hlive.elim
    have hshaped := hrep.shaped hne
    obtain ⟨hhash, stored, hcommit, hstored⟩ := Trie.commit_ofRadix keccak hroot hshaped
    obtain ⟨nodes', hsthash, hnodes'⟩ := StNode.hash_spec [] hrep hne fun _ => hhashed
    have hperm : (nodes ++ nodes').Perm stored := by
      rw [← Multiset.coe_eq_coe, hstored, hnodes', ← hfed.nodes, zero_add, Multiset.coe_add]
    have hpaths : ((storedNodes keccak T []).map StoredNode.path).Nodup :=
      storedNodes_paths_nodup hshaped []
    rw [← hstored] at hpaths
    refine ⟨t, nodes, keccak (encoding keccak T),
      { t with root := .hashed (keccak (encoding keccak T)).bytes }, nodes', stored, hfeed, ?_,
      hhash, hcommit, hperm, hpaths, fun n hn => ?_⟩
    · simp [StackTrie.hash, hsthash, reference]
    · have hmem : n ∈ storedNodes keccak T [] := by
        rw [← hstored]
        exact hn
      exact mem_storedNodes hmem

/-- Three keys, the first two of which share a letter, written to the trie in another order. -/
theorem stackTrie_eq_trie_three :
    let keccak : Bytes → FixedBytes 32 := fun _ => FixedBytes.zero 32
    let pairs : List (Bytes × Bytes) := [([0x10], [7]), ([0x11, 3], [8]), ([0x20], [9])]
    let ws := [Write.update [0x20] [9], .update [0x10] [7], .update [0x11, 3] [8]]
    ∃ t nodes hash t' nodes', StackTrie.feed keccak pairs .new = .ok (t, nodes) ∧
      t.hash keccak = .ok (hash, t', nodes') ∧ ((Trie.run ws).hash keccak).1 = hash := by
  intro keccak pairs ws
  have hsame : contents ws = contents (writes pairs) := by
    funext key
    simp only [ws, pairs, writes, contents, List.map, List.foldl, Write.key, Write.stored,
      update_apply]
    by_cases h1 : key = [0x10]
    · simp [h1]
    · by_cases h2 : key = [0x11, 3]
      · simp [h2]
      · by_cases h3 : key = [0x20] <;> simp [h1, h2, h3]
  obtain ⟨t, nodes, hash, t', nodes', stored, hfeed, hhash, hroot, -⟩ :=
    stackTrie_eq_trie keccak pairs ws (by decide) (by decide) (by decide) hsame
  exact ⟨t, nodes, hash, t', nodes', hfeed, hhash, hroot⟩

end ChilizChain.Patricia
