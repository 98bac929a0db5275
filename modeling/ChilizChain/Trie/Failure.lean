import ChilizChain.Trie.Sound
import ChilizChain.Trie.Hasher

/-! # Writes that fail

A write fails when a node that it needs cannot be loaded. An insertion needs all nodes before it
changes the first one. A deletion that leaves a full node with a single child has to look at that
child, and by then the full node has lost the other one: if the full node was in memory, the trie
now lacks the key although the deletion was refused. -/

namespace ChilizChain.Patricia

open Function Outcome List Bool

namespace Node

/-- Deleting the key takes the whole node away. -/
def vanishes : Node → HexKey → Bool
  | value _, _ => true
  | short k _ _, key => key == k
  | hash _ stored, key => stored.vanishes key
  | _, _ => false

def isMissing : Node → Bool
  | missing _ => true
  | _ => false

/-- A single child is left, and it cannot be loaded. -/
def lastIsMissing (children : Nibble → Node) : Bool :=
  match soleChild children with
  | some pos => pos != terminator && (children pos).isMissing
  | none => false

/-- The key is the last but one child of a full node that is in memory and whose remaining child
cannot be loaded. What is loaded on the way is dropped when the deletion fails, so nothing below
a hash node counts. -/
def strands : Node → HexKey → Bool
  | short k v _, key => decide (k <+: key) && v.strands (key.drop k.length)
  | full children _, a :: rest =>
    (children a).strands rest ||
      (children a).vanishes rest && lastIsMissing (Function.update children a nil)
  | _, _ => false

theorem merge_ne_nil (k : HexKey) (n : Node) : merge k n ≠ nil := by
  cases n <;> simp [merge]

theorem reduce_cases (cs : Nibble → Node) : (reduce cs).left = full cs newFlag ∧
      ((lastIsMissing cs = true ∧ (reduce cs).result = .error .missingNode) ∨
        lastIsMissing cs = false ∧ ∃ nn, (reduce cs).result = .ok (true, nn) ∧ nn ≠ nil) := by
  unfold reduce lastIsMissing
  cases soleChild cs with
  | none => simp
  | some pos =>
    by_cases hpos : pos = terminator
    · simp [hpos]
    · cases hchild : cs pos <;> simp [hpos, hchild, resolve, isMissing]
      rename_i stored
      cases stored <;> simp

variable {n : Node} {key : HexKey}

theorem vanishes_iff : n.vanishes key = true ↔ (n.delete key).result = .ok (true, nil) := by
  induction n generalizing key with
  | nil => simp [vanishes, delete]
  | value v => simp [vanishes, delete]
  | missing h => simp [vanishes, delete]
  | hash h stored ih => rw [vanishes, ih, delete, fromLoaded_changed]
  | short k v flags ih =>
    by_cases hk : k <+: key
    · obtain ⟨r, rfl⟩ := hk
      by_cases hr : r = []
      · subst hr
        rw [append_nil, delete_short_self]
        simp [vanishes]
      · obtain ⟨nn, -, heq⟩ | ⟨-, -, hunchanged, -⟩ :=
          orKeep_cases (delete_short_append k r v flags hr)
        · simp [heq, vanishes, hr, merge_ne_nil]
        · simp [vanishes, hr, hunchanged nil]
    · have hne : key ≠ k := fun h => hk (h ▸ prefix_rfl)
      simp [delete_short_other v flags hk, vanishes, hne]
  | full cs flags ih =>
    cases key with
    | nil => simp [vanishes, delete]
    | cons a rest =>
      obtain ⟨nn, -, heq⟩ | ⟨-, -, hunchanged, -⟩ := orKeep_cases (delete_full cs flags a rest)
      · rw [heq]
        split
        · obtain ⟨-, ⟨-, herr⟩ | ⟨-, nn', hok, hne⟩⟩ := reduce_cases (update cs a nn)
          · simp [vanishes, herr]
          · simp [vanishes, hok, hne]
        · simp [vanishes]
      · simp [vanishes, hunchanged nil]

/-- A deletion that fails or finds nothing leaves the node as it was, unless it strands the key. -/
theorem delete_left (hstrands : n.strands key = false) (h : (n.delete key).Unchanged) :
    (n.delete key).left = n := by
  induction n generalizing key with
  | nil => rfl
  | value v => rfl
  | missing _ => rfl
  | hash hash stored ih => simp [delete]
  | short k v flags ih =>
    by_cases hk : k <+: key
    · obtain ⟨r, rfl⟩ := hk
      by_cases hr : r = []
      · subst hr
        rw [append_nil, delete_short_self]
      · obtain ⟨nn, -, heq⟩ | ⟨hunchanged, hleft, -, -⟩ :=
          orKeep_cases (delete_short_append k r v flags hr)
        · exact absurd rfl (heq ▸ h _)
        · rw [hleft, ih (by simpa [strands] using hstrands) hunchanged]
    · rw [delete_short_other v flags hk]
  | full cs flags ih =>
    cases key with
    | nil => rfl
    | cons a rest =>
      simp only [strands, or_eq_false_iff] at hstrands
      obtain ⟨nn, hnn, heq⟩ | ⟨hunchanged, hleft, -, -⟩ :=
        orKeep_cases (delete_full cs flags a rest)
      · -- Something was deleted, so only the reduction can have failed.
        rw [heq] at h
        exfalso
        split at h
        · rename_i hnil
          obtain rfl := isNil_iff.mp hnil
          obtain ⟨-, ⟨hmissing, -⟩ | ⟨-, nn', hok, -⟩⟩ := reduce_cases (update cs a nil)
          · simp [vanishes_iff.mpr hnn, hmissing] at hstrands
          · exact h nn' hok
        · exact h _ rfl
      · rw [hleft, ih a hstrands.1 hunchanged, update_eq_self]

/-! ## What a stranding deletion loses -/

theorem get_short_append (k r : HexKey) (v : Node) (flags : NodeFlag) :
    ((short k v flags).get (k ++ r)).1 = (v.get r).1 := by
  rw [get, if_pos (prefix_append k r), drop_left]
  rcases v.get r with ⟨_ | _, _⟩ <;> rfl

theorem get_full_cons (cs : Nibble → Node) (flags : NodeFlag) (a : Nibble) (rest : HexKey) :
    ((full cs flags).get (a :: rest)).1 = ((cs a).get rest).1 := by
  rw [get]
  rcases (cs a).get rest with ⟨_ | _, _⟩ <;> rfl

theorem get_hash (h : Bytes) (stored : Node) (key : HexKey) :
    ((hash h stored).get key).1 = (stored.get key).1 := by
  rw [get]
  rcases stored.get key with ⟨_ | _, _⟩ <;> rfl

theorem get_of_vanishes (hsound : n.Sound) (hkey : Terminated key) (h : n.vanishes key = true) :
    ∃ v, (n.get key).1 = .ok (some v) := by
  induction n with
  | nil => cases h
  | value v => exact ⟨v, rfl⟩
  | missing _ => cases h
  | hash hash stored ih =>
    rw [get_hash]
    exact ih hsound.2 h
  | short k v flags ih =>
    obtain rfl : key = k := by simpa [vanishes] using h
    obtain ⟨ns, -, rfl⟩ := hkey
    obtain ⟨-, b, rfl⟩ := hsound.1 ns [] rfl
    refine ⟨b, ?_⟩
    have := get_short_append (ns ++ [terminator]) [] (value b) flags
    rw [append_nil] at this
    rw [this]
    rfl
  | full cs flags ih => cases h

theorem strands_end (n : Node) : n.strands [] = false := by
  induction n with
  | short k v flags ih =>
    simp only [strands, drop_nil, ih, Bool.and_false]
  | _ => rfl

/-- A stranding deletion fails, and the key it was to delete is gone. -/
theorem delete_of_strands (hsound : n.Sound) (hkey : Terminated key) (h : n.strands key = true) :
    (n.delete key).result = .error .missingNode ∧ (∃ v, (n.get key).1 = .ok (some v)) ∧
      ((n.delete key).left.get key).1 = .ok none := by
  induction n generalizing key with
  | nil => cases h
  | value v => cases h
  | missing _ => cases h
  | hash _ _ _ => cases h
  | short k v flags ih =>
    simp only [strands, and_eq_true, decide_eq_true_eq] at h
    obtain ⟨⟨r, rfl⟩, h⟩ := h
    rw [drop_left] at h
    have hr : r ≠ [] := by
      rintro rfl
      rw [strands_end] at h
      cases h
    have hterminated : Terminated r := (hkey.append.resolve_left fun h => hr h.1).2
    obtain ⟨herr, hfound, hlost⟩ := ih hsound.2 hterminated h
    rw [delete_short_append k r v flags hr]
    refine ⟨by simp [orKeep, herr], by rwa [get_short_append], ?_⟩
    simp only [orKeep, herr]
    rw [get_short_append, hlost]
  | full cs flags ih =>
    obtain ⟨a, rest, rfl⟩ := exists_cons_of_ne_nil hkey.ne_nil
    rw [delete_full, get_full_cons]
    rcases or_eq_true_iff.mp h with h | h
    · have hterminated : Terminated rest := by
        refine (hkey.cons.resolve_left ?_).2
        rintro ⟨-, rfl⟩
        rw [strands_end] at h
        cases h
      obtain ⟨herr, hfound, hlost⟩ := ih a (hsound.2 a) hterminated h
      refine ⟨by simp [orKeep, herr], hfound, ?_⟩
      simp only [orKeep, herr]
      rw [get_full_cons, update_self, hlost]
    · -- The full node loses its child here, and then cannot look at the other one.
      rw [and_eq_true] at h
      obtain ⟨hvanishes, hmissing⟩ := h
      obtain ⟨hleft, ⟨-, herr⟩ | ⟨hpresent, -⟩⟩ := reduce_cases (update cs a nil)
      · have hfound : ∃ v, ((cs a).get rest).1 = .ok (some v) := by
          rcases hkey.cons with ⟨rfl, rfl⟩ | ⟨-, hrest⟩
          · rcases hsound.1 with hnil | ⟨v, hv⟩
            · rw [hnil] at hvanishes
              cases hvanishes
            · exact ⟨v, by rw [hv]; rfl⟩
          · exact get_of_vanishes (hsound.2 a) hrest hvanishes
        rw [orKeep_of_changed (vanishes_iff.mp hvanishes)]
        refine ⟨by simpa [isNil] using herr, hfound, ?_⟩
        simp only [isNil, if_true]
        rw [hleft, get_full_cons, update_self]
        rfl
      · rw [hpresent] at hmissing
        cases hmissing

end Node

/-! ## Tries -/

/-- The write is a deletion of a key that the trie loses even if the deletion fails. -/
def Trie.Strands (t : Trie) (w : Write) : Prop :=
  t.committed = false ∧ w.stored = none ∧ t.root.strands (keybytesToHex w.key) = true

/-- The write leaves no trace: the root hash and the answers of `Get` are what they were. -/
def Trie.SameAnswers (keccak : Bytes → FixedBytes 32) (t t' : Trie) : Prop :=
  (t'.hash keccak).1 = (t.hash keccak).1 ∧ ∀ key, (t'.get key).1 = (t.get key).1

theorem Trie.write_eq (t : Trie) (w : Write) (h : t.committed = false) :
    t.write w = t.settle (match w.stored with
      | some v => t.root.insert (keybytesToHex w.key) (.value v)
      | none => t.root.delete (keybytesToHex w.key)) := by
  cases w with
  | delete key => simp [write, Trie.delete, h, Write.stored, Write.key]
  | update key value =>
    by_cases hvalue : value = [] <;> simp [write, update, h, Write.stored, Write.key, hvalue]

variable {t : Trie}

theorem Trie.get_eq (key : Bytes) (h : t.committed = false) :
    (t.get key).1 = (t.root.get (keybytesToHex key)).1 := by
  rw [get, if_neg (by simp [h])]
  rcases t.root.get (keybytesToHex key) with ⟨_ | _, _⟩ <;> rfl

theorem Trie.settle_of_error {r : Outcome} (h : (t.settle r).1 ≠ none) :
    r.Unchanged ∧ (t.settle r).2 = { t with root := r.left } := by
  unfold settle at *
  rcases hresult : r.result with err | ⟨d, nn⟩
  · exact ⟨fun nn hnn => by simp [hresult] at hnn, rfl⟩
  · simp [hresult] at h

/-- A failed write leaves no trace exactly if it does not strand the key it was to delete. -/
theorem failed_write_iff (keccak : Bytes → FixedBytes 32) (t : Trie) (w : Write)
    (hsound : t.root.Sound) (herr : (t.write w).1 ≠ none) :
    t.SameAnswers keccak (t.write w).2 ↔ ¬ t.Strands w := by
  have hsame : ∀ {t'}, t' = t → t.SameAnswers keccak t' := by
    rintro _ rfl
    exact ⟨rfl, fun _ => rfl⟩
  cases hcommitted : t.committed with
  | true =>
    have htrie : (t.write w).2 = t := by
      cases w <;> simp [Trie.write, Trie.update, Trie.delete, hcommitted]
    exact iff_of_true (hsame htrie) fun h => by simp [h.1] at hcommitted
  | false =>
    rw [t.write_eq w hcommitted] at herr ⊢
    obtain ⟨hunchanged, htrie⟩ := Trie.settle_of_error herr
    cases hstored : w.stored with
    | some v =>
      simp only [hstored] at hunchanged htrie ⊢
      rw [htrie, Node.insert_left hunchanged]
      exact iff_of_true (hsame rfl) fun h => by simp [h.2.1] at hstored
    | none =>
      simp only [hstored] at hunchanged htrie ⊢
      rw [htrie]
      cases hstrands : t.root.strands (keybytesToHex w.key) with
      | false =>
        rw [Node.delete_left hstrands hunchanged]
        exact iff_of_true (hsame rfl) fun h => by simp [h.2.2] at hstrands
      | true =>
        obtain ⟨-, ⟨v, hbefore⟩, hafter⟩ :=
          Node.delete_of_strands hsound (terminated_keybytesToHex w.key) hstrands
        refine iff_of_false (fun h => ?_) (not_not.mpr ⟨hcommitted, hstored, hstrands⟩)
        have hlost : (Trie.get { t with root := (t.root.delete (keybytesToHex w.key)).left }
            w.key).1 = .ok none := by
          rw [Trie.get_eq]
          exacts [hafter, hcommitted]
        have hget := h.2 w.key
        rw [hlost, Trie.get_eq w.key hcommitted, hbefore] at hget
        cases hget

namespace Sample

/-- A full node with a leaf in memory and another child that the database has lost. -/
def lossyTrie : Trie where
  committed := false
  root := .full (fun i => if i = 1 then .short [0, 16] (.value [7]) ⟨none, false⟩
    else if i = 2 then .missing [9] else .nil) ⟨some [8], false⟩

/-- A full node with two children that the database has lost. -/
def wideTrie : Trie where
  committed := false
  root := .full (fun i => if i = 1 then .missing [9] else if i = 2 then .missing [9]
    else .nil) ⟨some [8], false⟩

end Sample

/-- A trie that cannot load the node of the key refuses the deletion and stays as it was. -/
theorem failed_write_iff_wide : (Sample.wideTrie.write (.delete [0x10])).1 ≠ none ∧
    Sample.wideTrie.SameAnswers (fun _ => FixedBytes.zero 32)
      (Sample.wideTrie.write (.delete [0x10])).2 := by
  have hsound : Sample.wideTrie.root.Sound := by
    refine ⟨.inl rfl, fun i => ?_⟩
    by_cases h1 : i = 1
    · simp [h1, Node.Sound]
    · by_cases h2 : i = 2 <;> simp [h1, h2, Node.Sound]
  have herr : (Sample.wideTrie.write (.delete [0x10])).1 = some .missingNode := rfl
  refine ⟨by simp [herr], (failed_write_iff _ _ _ hsound (by simp [herr])).mpr ?_⟩
  rintro ⟨-, -, h⟩
  revert h
  decide

/-- The deletion is refused, and the key is gone. -/
theorem failed_delete_loses_key : (Sample.lossyTrie.write (.delete [0x10])).1 = some .missingNode ∧
    (Sample.lossyTrie.get [0x10]).1 = .ok (some [7]) ∧
    ((Sample.lossyTrie.write (.delete [0x10])).2.get [0x10]).1 = .ok none ∧
    ∀ keccak, ¬ Sample.lossyTrie.SameAnswers keccak
      (Sample.lossyTrie.write (.delete [0x10])).2 := by
  have hbefore : (Sample.lossyTrie.get [0x10]).1 = .ok (some [7]) := rfl
  have hafter : ((Sample.lossyTrie.write (.delete [0x10])).2.get [0x10]).1 = .ok none := rfl
  refine ⟨rfl, hbefore, hafter, fun keccak h => ?_⟩
  have hget := h.2 [0x10]
  rw [hbefore, hafter] at hget
  cases hget

end ChilizChain.Patricia
