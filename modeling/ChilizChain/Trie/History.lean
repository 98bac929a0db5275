import ChilizChain.Trie.Failure

/-! # The trie forgets its history

With hash nodes resolved and cached hashes left aside, a trie is a radix tree over the letters of
its keys. `insert` and `delete` do on it what the operations on radix trees do, so a trie that
was filled by any sequence of writes is the canonical tree of what it holds. -/

namespace ChilizChain.Patricia

open Function List Radix Outcome Trie Option Node

namespace Node

/-- The radix tree that a node stands for. -/
def expand : Node → Radix 17 Bytes
  | nil => .nil
  | value v => .value v
  | short k v _ => .short k v.expand
  | full children _ => .full fun i => (children i).expand
  | hash _ stored => stored.expand
  | missing _ => .nil

/-- All flags are of a kind, and all hash nodes can be resolved if there may be any. -/
def Intact (flag : NodeFlag → Prop) (hashed : Prop) : Node → Prop
  | short _ v flags => flag flags ∧ v.Intact flag hashed
  | full children flags => flag flags ∧ ∀ i, (children i).Intact flag hashed
  | hash _ stored => hashed ∧ stored.Intact flag hashed
  | missing _ => False
  | _ => True

/-- All hash nodes can be resolved. -/
abbrev Loadable : Node → Prop := Intact (fun _ => True) True

/-- All nodes are in memory and none has been hashed yet. -/
abbrev Fresh : Node → Prop := Intact (· = newFlag) False

theorem expand_update (cs : Nibble → Node) (a : Nibble) (c : Node) :
    (fun i => (Function.update cs a c i).expand) =
      Function.update (fun i => (cs i).expand) a c.expand := by
  funext i
  by_cases hi : i = a
  · subst hi
    simp
  · simp [hi]

theorem expand_insertNil (y : HexKey) (v : Node) : (insertNil y v).expand = hang y v.expand := by
  cases y <;> rfl

theorem expand_branch (i j : Nibble) (s t : Node) :
    (branch i s j t).expand = fork i s.expand j t.expand := by
  simp only [branch, fork, expand, expand_update]

section

variable {flag : NodeFlag → Prop} {hashed : Prop} (hnew : flag newFlag)

include hnew in
theorem insertNil_intact {y : HexKey} {v : Node} (h : v.Intact flag hashed) :
    (insertNil y v).Intact flag hashed := by
  cases y
  · exact h
  · exact ⟨hnew, h⟩

theorem update_intact {cs : Nibble → Node} {a : Nibble} {c : Node}
    (h : ∀ i, (cs i).Intact flag hashed) (hc : c.Intact flag hashed) (i : Nibble) :
    (Function.update cs a c i).Intact flag hashed := by
  by_cases hi : i = a
  · subst hi
    simpa using hc
  · rw [update_of_ne hi]
    exact h i

include hnew in
theorem branch_intact {i j : Nibble} {s t : Node} (hs : s.Intact flag hashed)
    (ht : t.Intact flag hashed) : (branch i s j t).Intact flag hashed :=
  ⟨hnew, update_intact (update_intact (fun _ => trivial) hs) ht⟩

/-! ## Insertion -/

/-- Insertion succeeds, does what insertion into the radix tree does, and reports no change only
if there is none. -/
def InsertRefines (flag : NodeFlag → Prop) (hashed : Prop) (n : Node) (key : HexKey)
    (b : Bytes) : Prop :=
  ∃ d nn, (n.insert key (value b)).result = .ok (d, nn) ∧
    nn.expand = n.expand.insert key b ∧ nn.Intact flag hashed ∧
    (d = false → n.expand.insert key b = n.expand)

theorem insertRefines_end (n : Node) (b : Bytes) : n.InsertRefines flag hashed [] b := by
  refine ⟨n.changes (value b), value b, by simp, by cases n.expand <;> rfl, trivial, fun h => ?_⟩
  cases n <;> simp [changes] at h
  subst h
  rfl

variable {n : Node} {key : HexKey}

theorem insertRefines_orKeep {v : Node} {r : HexKey} {b : Bytes} {keep rebuild left : Node → Node}
    (hintact : n.Intact flag hashed) (h : v.InsertRefines flag hashed r b)
    (heq : n.insert key (value b) = (v.insert r (value b)).orKeep keep fun nn =>
      ⟨.ok (true, rebuild nn), left nn⟩)
    (hkeep : keep v = n) (hrebuild : ∀ nn, nn.Intact flag hashed → (rebuild nn).Intact flag hashed)
    (hexpand : ∀ nn, nn.expand = v.expand.insert r b → (rebuild nn).expand = n.expand.insert key b)
    (hsame : v.expand.insert r b = v.expand → n.expand.insert key b = n.expand) :
    n.InsertRefines flag hashed key b := by
  obtain ⟨d, nn, hresult, hnn, hnnintact, hunchanged⟩ := h
  cases d with
  | true =>
    exact ⟨true, rebuild nn, by rw [heq, orKeep_of_changed hresult], hexpand nn hnn,
      hrebuild nn hnnintact, by simp⟩
  | false =>
    have hleft : (v.insert r (value b)).left = v :=
      insert_left fun nn' h => by simp [hresult] at h
    have hn := hsame (hunchanged rfl)
    exact ⟨false, n, by simp [heq, orKeep, hresult, hleft, hkeep], hn.symm, hintact,
      fun _ => hn⟩

include hnew in
theorem insert_refines (b : Bytes) (hintact : n.Intact flag hashed)
    (hcan : n.expand.Canonical) (hfits : n.expand.Fits key) :
    n.InsertRefines flag hashed key b := by
  rcases eq_or_ne key [] with rfl | hkey
  · exact insertRefines_end n b
  induction n generalizing key with
  | nil =>
    obtain ⟨a, rest, rfl⟩ := exists_cons_of_ne_nil hkey
    exact ⟨true, _, rfl, rfl, ⟨hnew, trivial⟩, by simp⟩
  | value v => exact absurd (hfits [] v rfl (.inl nil_prefix)).symm hkey
  | missing hash => exact hintact.elim
  | hash hash stored ih =>
    obtain ⟨d, nn, hresult, hexpand, hnn, hsame⟩ := ih hintact.2 hcan hfits hkey
    have heq := insert_hash hash stored (value b) hkey
    cases d with
    | true => exact ⟨true, nn, by simp [heq, fromLoaded, hresult], hexpand, hnn, by simp⟩
    | false =>
      have hleft : (stored.insert key (value b)).left = stored :=
        insert_left fun nn' h => by simp [hresult] at h
      exact ⟨false, stored, by simp [heq, fromLoaded, hresult, hleft], (hsame rfl).symm,
        hintact.2, hsame⟩
  | short k v flags ih =>
    obtain ⟨c, x, y, rfl, rfl, -, hdiff⟩ := prefixLen_spec key k
    rcases y with _ | ⟨i, y⟩
    · rw [append_nil] at *
      have hchild : v.InsertRefines flag hashed x b := by
        rcases eq_or_ne x [] with rfl | hx
        · exact insertRefines_end v b
        · exact ih hintact.2 hcan.2.2 hfits.short hx
      have hinsert : (short c v flags).expand.insert (c ++ x) b =
          .short c (v.expand.insert x b) := Radix.insert_short_append b hcan.1
      refine insertRefines_orKeep hintact hchild (insert_short_append c x v (value b) flags hkey)
        rfl (fun nn hnn => ⟨hnew, hnn⟩) (fun nn hnn => ?_) fun h => ?_
      · rw [expand, hinsert, hnn]
      · rw [hinsert, h, expand]
    · rcases x with _ | ⟨j, x⟩
      · rw [append_nil] at *
        exact (hfits.not_prefix_short hcan (by simp) (prefix_append c _)).elim
      · have hji : j ≠ i := hdiff _ _ _ _ rfl rfl
        have hbranch : (branch i (insertNil y v) j (insertNil x (value b))).Intact flag hashed :=
          branch_intact hnew (insertNil_intact hnew hintact.2) (insertNil_intact hnew trivial)
        refine ⟨true, _, by rw [insert_short_split c x y v (value b) flags hji], ?_, ?_, by simp⟩
        · rw [expand, Radix.insert_short_split b hji]
          by_cases hc : c = [] <;>
            simp [hc, expand, expand_branch, expand_insertNil, hang]
        · split
          · exact hbranch
          · exact ⟨hnew, hbranch⟩
  | full cs flags ih =>
    obtain ⟨a, rest, rfl⟩ := exists_cons_of_ne_nil hkey
    have hchild : (cs a).InsertRefines flag hashed rest b := by
      rcases eq_or_ne rest [] with rfl | hrest
      · exact insertRefines_end _ b
      · exact ih a (hintact.2 a) (hcan.2 a) hfits.full hrest
    have hinsert : (full cs flags).expand.insert (a :: rest) b =
        .full (Function.update (fun i => (cs i).expand) a
          ((cs a).expand.insert rest b)) := rfl
    refine insertRefines_orKeep hintact hchild (insert_full cs flags a rest (value b))
      (by rw [update_eq_self]) (fun nn hnn => ⟨hnew, update_intact hintact.2 hnn⟩)
      (fun nn hnn => ?_) fun h => ?_
    · rw [expand, expand_update, hnn, hinsert]
    · rw [hinsert, h, update_eq_self, expand]

/-! ## Deletion -/

theorem Decoded.expand_ne_nil (h : n.Decoded) : n.expand ≠ .nil := by
  cases n <;> simp_all [Decoded, expand]

theorem expand_isNil (hintact : n.Intact flag hashed) (hsound : n.Sound) :
    n.expand.isNil = n.isNil := by
  cases n with
  | hash hash stored =>
    have := hsound.1.expand_ne_nil
    simpa [expand, isNil] using this
  | missing hash => exact hintact.elim
  | _ => rfl

theorem expand_merge (k : HexKey) (h : n = nil ∨ n.Decoded) :
    (merge k n).expand = prepend k n.expand := by
  cases n <;> simp_all [Decoded, merge, expand, prepend]

include hnew in
theorem merge_intact (k : HexKey) (h : n.Intact flag hashed) : (merge k n).Intact flag hashed := by
  cases n with
  | short k' v' flags => exact ⟨hnew, h.2⟩
  | _ => exact ⟨hnew, h⟩

include hnew in
theorem reduce_refines {cs : Nibble → Node} (hsound : (full cs newFlag).Sound)
    (hintact : ∀ i, (cs i).Intact flag hashed) :
    ∃ nn, (reduce cs).result = .ok (true, nn) ∧ nn.Decoded ∧
      nn.expand = Radix.reduce (fun i => (cs i).expand) ∧ nn.Intact flag hashed := by
  have hsole : Radix.soleChild (fun i => (cs i).expand) = soleChild cs := by
    unfold Radix.soleChild soleChild
    congr
    funext i
    rw [expand_isNil (hintact i) (hsound.2 i)]
  unfold reduce Radix.reduce
  rw [hsole]
  cases hpos : soleChild cs with
  | none => exact ⟨_, rfl, trivial, rfl, hnew, hintact⟩
  | some pos =>
    obtain ⟨hchild, hdecoded⟩ := And.intro (hintact pos) (hsound.2 pos)
    by_cases hend : pos = terminator
    · obtain ⟨b, hb⟩ := hsound.1.resolve_left (hend ▸ soleChild_ne_nil hpos)
      refine ⟨short [pos] (cs pos) newFlag, by simp [hend], trivial, ?_, hnew, hchild⟩
      simp [hend, hb, expand, prepend]
    · simp only [hend, if_false]
      cases hcase : cs pos <;> rw [hcase] at hchild hdecoded
      case missing => exact hchild.elim
      case short => exact ⟨_, rfl, trivial, rfl, hnew, hchild.2⟩
      case hash h stored =>
        cases stored with
        | short k v flags => exact ⟨_, rfl, trivial, rfl, hnew, hchild.2.2⟩
        | full _ flags => exact ⟨_, rfl, trivial, by simp [expand, prepend], hnew, hchild⟩
        | _ => exact hdecoded.1.elim
      all_goals exact ⟨_, rfl, trivial, by simp [expand, prepend], hnew, hchild⟩

theorem strands_of_intact (hintact : n.Intact flag hashed) : n.strands key = false := by
  induction n generalizing key with
  | short k v flags ih => rw [strands, ih hintact.2, Bool.and_false]
  | full cs flags ih =>
    cases key with
    | nil => rfl
    | cons a rest =>
      have hpresent : lastIsMissing (Function.update cs a nil) = false := by
        unfold lastIsMissing
        cases soleChild (Function.update cs a nil) with
        | none => rfl
        | some pos =>
          have hpos : (Function.update cs a nil pos).Intact flag hashed :=
            update_intact hintact.2 (show nil.Intact flag hashed from trivial) pos
          cases hcase : Function.update cs a nil pos with
          | missing h =>
            rw [hcase] at hpos
            exact hpos.elim
          | _ => simp [hcase, isMissing]
      rw [strands, ih a (hintact.2 a), hpresent, Bool.and_false, Bool.or_false]
  | _ => cases key <;> rfl

/-- Deletion succeeds, does what removal from the radix tree does, and says whether there was
something to remove. -/
def DeleteRefines (flag : NodeFlag → Prop) (hashed : Prop) (n : Node) (key : HexKey) : Prop :=
  ∃ nn, nn.Intact flag hashed ∧
    ((n.delete key).result = .ok (true, nn) ∧ n.expand.remove key = some nn.expand ∧
        (nn = nil ∨ nn.Decoded) ∨
      (n.delete key).result = .ok (false, nn) ∧ n.expand.remove key = none ∧
        nn.expand = n.expand)

include hnew in
theorem delete_refines (hintact : n.Intact flag hashed) (hsound : n.Sound)
    (hkey : n.expand.Fits key) (hcan : n.expand.Canonical) : n.DeleteRefines flag hashed key := by
  -- What a child that had nothing to delete shows afterwards.
  have hkept : ∀ {v nn : Node} {r : HexKey}, v.Intact flag hashed →
      (v.delete r).result = .ok (false, nn) → (v.delete r).left = v := by
    intro v nn r hv h
    exact delete_left (strands_of_intact hv) fun nn' h' => by simp [h] at h'
  induction n generalizing key with
  | nil => exact ⟨nil, trivial, .inr ⟨rfl, rfl, rfl⟩⟩
  | value v => exact ⟨nil, trivial, .inl ⟨rfl, rfl, .inl rfl⟩⟩
  | missing hash => exact hintact.elim
  | hash hash stored ih =>
    obtain ⟨nn, hnn, ⟨hresult, hremove, hshape⟩ | ⟨hresult, hremove, -⟩⟩ :=
      ih hintact.2 hsound.2 hkey hcan
    · exact ⟨nn, hnn, .inl ⟨by simp [delete, fromLoaded, hresult], hremove, hshape⟩⟩
    · exact ⟨stored, hintact.2, .inr ⟨by simp [delete, fromLoaded, hresult,
        hkept hintact.2 hresult], hremove, rfl⟩⟩
  | short k v flags ih =>
    by_cases hk : k <+: key
    · obtain ⟨r, rfl⟩ := hk
      by_cases hr : r = []
      · subst hr
        rw [DeleteRefines, append_nil, delete_short_self]
        exact ⟨nil, trivial, .inl ⟨rfl, by simp [expand, Radix.remove], .inl rfl⟩⟩
      · have hremove : (short k v flags).expand.remove (k ++ r) =
            (v.expand.remove r).map (prepend k) := by
          simp [expand, Radix.remove, hr]
        rw [DeleteRefines, delete_short_append k r v flags hr, hremove]
        obtain ⟨nn, hnn, ⟨hresult, hremove, hshape⟩ | ⟨hresult, hremove, -⟩⟩ :=
          ih hintact.2 hsound.2 hkey.short hcan.2.2
        · rw [orKeep_of_changed hresult, hremove]
          refine ⟨merge k nn, merge_intact hnew k hnn, .inl ⟨rfl, ?_, ?_⟩⟩
          · rw [expand_merge k hshape, map_some]
          · cases nn <;> exact .inr trivial
        · refine ⟨short k v flags, hintact, .inr ⟨?_, by rw [hremove]; rfl, rfl⟩⟩
          simp [orKeep, hresult, hkept hintact.2 hresult]
    · rw [DeleteRefines, delete_short_other v flags hk]
      exact ⟨_, hintact, .inr ⟨rfl, by simp [expand, Radix.remove, hk], rfl⟩⟩
  | full cs flags ih =>
    obtain ⟨a, rest, rfl⟩ := exists_cons_of_ne_nil (hkey.ne_nil_of_full hcan)
    have hremove : (full cs flags).expand.remove (a :: rest) =
        ((cs a).expand.remove rest).map fun child =>
          if child.isNil then Radix.reduce (Function.update (fun i => (cs i).expand) a child)
          else .full (Function.update (fun i => (cs i).expand) a child) := rfl
    rw [DeleteRefines, delete_full, hremove]
    obtain ⟨nn, hnn, ⟨hresult, hremove, hshape⟩ | ⟨hresult, hremove, -⟩⟩ :=
      ih a (hintact.2 a) (hsound.2 a) hkey.full (hcan.2 a)
    · rw [orKeep_of_changed hresult, hremove, map_some, ← expand_update]
      have hupdated := update_intact (a := a) hintact.2 hnn
      rcases hshape with rfl | hdecoded
      · obtain ⟨nn, hresult, hdecoded, hexpand, hnn⟩ := reduce_refines hnew
          (full_update_sound newFlag hsound (show nil.Sound from trivial)
            fun _ => .inl rfl) hupdated
        refine ⟨nn, hnn, .inl ⟨hresult, ?_, .inr hdecoded⟩⟩
        rw [hexpand]
        rfl
      · have hne : nn.isNil = false := by cases nn <;> first | rfl | exact hdecoded.elim
        refine ⟨full (Function.update cs a nn) newFlag, ⟨hnew, hupdated⟩,
          .inl ⟨by simp [hne], ?_, .inr trivial⟩⟩
        rw [isNil_eq_false.mpr hdecoded.expand_ne_nil]
        rfl
    · refine ⟨full cs flags, hintact, .inr ⟨?_, by rw [hremove]; rfl, rfl⟩⟩
      simp [orKeep, hresult, hkept (hintact.2 a) hresult]

/-! ## Reading -/

theorem get_refines (hintact : n.Intact flag hashed) (hkey : n.expand.Fits key)
    (hcan : n.expand.Canonical) : (n.get key).1 = .ok (n.expand.find key) := by
  induction n generalizing key with
  | nil => rfl
  | value v =>
    obtain rfl : key = [] := (hkey [] v rfl (.inl nil_prefix)).symm
    rfl
  | missing hash => exact hintact.elim
  | hash hash stored ih =>
    rw [get_hash]
    exact ih hintact.2 hkey hcan
  | short k v flags ih =>
    by_cases hk : k <+: key
    · obtain ⟨r, rfl⟩ := hk
      rw [get_short_append, expand, find_short_append]
      exact ih hintact.2 hkey.short hcan.2.2
    · rw [get, if_neg hk, expand, find_short_eq_none _ hk]
  | full cs flags ih =>
    obtain ⟨a, rest, rfl⟩ := exists_cons_of_ne_nil (hkey.ne_nil_of_full hcan)
    rw [get_full_cons]
    exact ih a (hintact.2 a) hkey.full (hcan.2 a)

end

/-- The nodes of a radix tree in memory. -/
def ofRadix : Radix 17 Bytes → Node
  | .nil => nil
  | .value v => value v
  | .short k t => short k (ofRadix t) newFlag
  | .full children => full (fun i => ofRadix (children i)) newFlag

theorem Fresh.eq_ofRadix {n : Node} (h : n.Fresh) : n = ofRadix n.expand := by
  induction n with
  | nil => rfl
  | value v => rfl
  | missing hash => exact h.elim
  | hash hash stored ih => exact h.1.elim
  | short k v flags ih => rw [expand, ofRadix, ← ih h.2, h.1]
  | full cs flags ih =>
    simp only [expand, ofRadix]
    rw [h.1]
    congr
    funext i
    exact ih i (h.2 i)

end Node

/-! ## What a trie holds -/

variable {key : Bytes}

theorem nibbles_injective {key' : Bytes} (h : nibbles key = nibbles key') : key = key' := by
  induction key generalizing key' with
  | nil =>
    cases key' with
    | nil => rfl
    | cons b key' => simp [nibbles] at h
  | cons a key ih =>
    cases key' with
    | nil => simp [nibbles] at h
    | cons b key' =>
      simp only [nibbles_cons, List.cons.injEq, Fin.mk.injEq] at h
      have hab : a = b := UInt8.toNat_inj.mp (by omega)
      rw [hab, ih h.2.2]

theorem keybytesToHex_injective {key' : Bytes} (h : keybytesToHex key = keybytesToHex key') :
    key = key' := by
  have hmap := append_cancel_right h
  exact nibbles_injective (map_injective_iff.mpr (Fin.castSucc_injective 16) hmap)

/-- The tree has the entries of a map and no others. -/
structure Represents (T : Radix 17 Bytes) (M : Bytes → Option Bytes) : Prop where
  find : ∀ key, T.find (keybytesToHex key) = M key
  isKey : ∀ hex v, T.find hex = some v → ∃ key, hex = keybytesToHex key

variable {T : Radix 17 Bytes} {M : Bytes → Option Bytes}

theorem Represents.fits (h : Represents T M) (key : Bytes) : T.Fits (keybytesToHex key) := by
  intro q v hq hpre
  obtain ⟨key', rfl⟩ := h.isKey q v hq
  have hkey := terminated_keybytesToHex key
  have hkey' := terminated_keybytesToHex key'
  rcases hpre with hpre | hpre
  · exact hkey'.eq_of_isPrefix hkey hpre
  · exact (hkey.eq_of_isPrefix hkey' hpre).symm

theorem Represents.update {T' : Radix 17 Bytes} {found : Option Bytes} (h : Represents T M)
    (hfind : ∀ q, T'.find q = if q = keybytesToHex key then found else T.find q) :
    Represents T' (Function.update M key found) := by
  refine ⟨fun key' => ?_, fun hex v hv => ?_⟩
  · rw [hfind, update_apply]
    by_cases hkey : key' = key
    · rw [hkey, if_pos rfl, if_pos rfl]
    · rw [if_neg fun h => hkey (keybytesToHex_injective h), if_neg hkey, h.find]
  · rw [hfind] at hv
    by_cases hhex : hex = keybytesToHex key
    · exact ⟨key, hhex⟩
    · rw [if_neg hhex] at hv
      exact h.isKey hex v hv

theorem Represents.unique {T' : Radix 17 Bytes} (h : Represents T M) (h' : Represents T' M)
    (hcan : T.Canonical) (hcan' : T'.Canonical) : T = T' := by
  refine hcan.unique hcan' fun hex => ?_
  by_cases hkey : ∃ key, hex = keybytesToHex key
  · obtain ⟨key, rfl⟩ := hkey
    rw [h.find, h'.find]
  · have hnone : ∀ {S : Radix 17 Bytes}, Represents S M → S.find hex = none := by
      intro S hS
      rw [eq_none_iff_forall_ne_some]
      exact fun v hv => hkey (hS.isKey hex v hv)
    rw [hnone h, hnone h']

/-- A trie in canonical form that can be used and holds a map. -/
structure Trie.Holds (flag : NodeFlag → Prop) (hashed : Prop) (t : Trie)
    (M : Bytes → Option Bytes) : Prop where
  uncommitted : t.committed = false
  intact : t.root.Intact flag hashed
  sound : t.root.Sound
  canonical : t.root.expand.Canonical
  represents : Represents t.root.expand M

namespace Trie.Holds

variable {flag : NodeFlag → Prop} {hashed : Prop} {t : Trie} {M : Bytes → Option Bytes}

theorem settle {r : Outcome} {d : Bool} {nn : Node} {M' : Bytes → Option Bytes}
    (h : t.Holds flag hashed M) (hresult : r.result = .ok (d, nn))
    (hintact : nn.Intact flag hashed) (hsound : nn.Sound) (hcan : nn.expand.Canonical)
    (hrepresents : Represents nn.expand M') :
    (t.settle r).1 = none ∧ (t.settle r).2.Holds flag hashed M' := by
  simp only [Trie.settle, hresult]
  exact ⟨trivial, h.uncommitted, hintact, hsound, hcan, hrepresents⟩

theorem write (hnew : flag newFlag) (h : t.Holds flag hashed M) (w : Write) :
    (t.write w).1 = none ∧ (t.write w).2.Holds flag hashed (Function.update M w.key w.stored) := by
  have hkey := terminated_keybytesToHex w.key
  have hfits := h.represents.fits w.key
  rw [t.write_eq w h.uncommitted]
  cases hstored : w.stored with
  | some v =>
    obtain ⟨d, nn, hresult, hexpand, hintact, -⟩ :=
      insert_refines hnew v h.intact h.canonical hfits
    obtain ⟨hcan, hfind⟩ := insert_spec v h.canonical hfits
    rw [← hexpand] at hcan hfind
    exact h.settle hresult hintact (insert_sound h.sound (.inr hkey) hresult).1 hcan
      (h.represents.update hfind)
  | none =>
    obtain ⟨hcan, hfind⟩ := delete_spec h.canonical hfits
    obtain ⟨nn, hintact, hcases⟩ := delete_refines hnew h.intact h.sound hfits h.canonical
    have hnn : ∃ d, (t.root.delete (keybytesToHex w.key)).result = .ok (d, nn) ∧
        nn.expand = t.root.expand.delete (keybytesToHex w.key) := by
      rcases hcases with ⟨hresult, hremove, -⟩ | ⟨hresult, hremove, hexpand⟩
      · exact ⟨true, hresult, by rw [Radix.delete, hremove, getD_some]⟩
      · exact ⟨false, hresult, by rw [Radix.delete, hremove, getD_none, hexpand]⟩
    obtain ⟨d, hresult, hexpand⟩ := hnn
    rw [← hexpand] at hcan hfind
    exact h.settle hresult hintact ((delete_sound h.sound hkey).1 _ _ hresult) hcan
      (h.represents.update hfind)

theorem get (h : t.Holds flag hashed M) (key : Bytes) : (t.get key).1 = .ok (M key) := by
  rw [get_eq key h.uncommitted,
    get_refines h.intact (h.represents.fits key) h.canonical, h.represents.find]

end Trie.Holds

/-! ## Whole histories -/

variable (ws : List Write)

/-- What a sequence of writes leaves at each key. -/
def contents : Bytes → Option Bytes :=
  ws.foldl (fun M w => Function.update M w.key w.stored) fun _ => none

/-- A sequence of writes to an empty trie. -/
def Trie.run : Trie := ws.foldl (fun t w => (t.write w).2) Trie.empty

theorem contents_concat (w : Write) :
    contents (ws ++ [w]) = Function.update (contents ws) w.key w.stored := by
  simp [contents]

theorem Trie.run_concat (w : Write) : run (ws ++ [w]) = ((run ws).write w).2 := by
  simp [run]

/-- A trie after a sequence of writes, between which it may have been stored and opened again:
then some of its nodes are hash nodes, and flags tell of earlier hashes. -/
inductive Filled : List Write → Trie → Prop
  | empty : Filled [] Trie.empty
  | write {ws : List Write} {t : Trie} (w : Write) :
      Filled ws t → Filled (ws ++ [w]) (t.write w).2
  | reopen {ws : List Write} {t t' : Trie} : Filled ws t → t'.committed = false →
      t'.root.Loadable → t'.root.Sound → t'.root.expand = t.root.expand → Filled ws t'

theorem Trie.empty_holds (flag : NodeFlag → Prop) (hashed : Prop) :
    empty.Holds flag hashed fun _ => none where
  uncommitted := rfl
  intact := trivial
  sound := trivial
  canonical := trivial
  represents := ⟨fun _ => rfl, fun hex v h => by simp [empty, expand] at h⟩

theorem Filled.holds {ws : List Write} {t : Trie} (h : Filled ws t) :
    t.Holds (fun _ => True) True (contents ws) := by
  induction h with
  | empty => exact empty_holds _ _
  | write w _ ih =>
    rw [contents_concat]
    exact (ih.write trivial w).2
  | reopen _ hcommitted hload hsound hexpand ih =>
    exact ⟨hcommitted, hload, hsound, hexpand ▸ ih.canonical, hexpand ▸ ih.represents⟩

theorem Trie.run_holds : (run ws).Holds (· = newFlag) False (contents ws) := by
  induction ws using List.reverseRecOn with
  | nil => exact empty_holds _ _
  | append_singleton ws w ih =>
    rw [contents_concat, run_concat]
    exact (Trie.Holds.write (by rfl) ih w).2

theorem Trie.run_filled : Filled ws (run ws) := by
  induction ws using List.reverseRecOn with
  | nil => exact .empty
  | append_singleton ws w ih =>
    rw [run_concat]
    exact .write w ih

/-- Two tries filled with the same contents, by whatever writes in whatever order, have the same
nodes: those of the only canonical tree with these contents. -/
theorem filled_history_independent {ws ws' : List Write} {t t' : Trie} (h : Filled ws t)
    (h' : Filled ws' t') (hsame : contents ws = contents ws') :
    (∀ w, (t.write w).1 = none) ∧ (∀ key, (t.get key).1 = .ok (contents ws key)) ∧
    t.root.Sound ∧ t.root.expand.Canonical ∧
    (∀ T : Radix 17 Bytes, T.Canonical → Represents T (contents ws) → T = t.root.expand) ∧
    t'.root.expand = t.root.expand ∧ (Trie.run ws').root = (Trie.run ws).root := by
  have hholds := h.holds
  have hunique : ∀ T : Radix 17 Bytes, T.Canonical → Represents T (contents ws) →
      T = t.root.expand := fun T hT hM => hM.unique hholds.represents hT hholds.canonical
  refine ⟨fun w => (hholds.write trivial w).1, hholds.get, hholds.sound, hholds.canonical, hunique,
    hunique _ h'.holds.canonical (hsame ▸ h'.holds.represents), ?_⟩
  have hrun := Trie.run_holds ws
  have hrun' := Trie.run_holds ws'
  rw [Node.Fresh.eq_ofRadix hrun.intact, Node.Fresh.eq_ofRadix hrun'.intact,
    hunique _ hrun.canonical hrun.represents,
    hunique _ hrun'.canonical (hsame ▸ hrun'.represents)]

/-- A key and one that continues it, written in either order, with a third that is deleted. -/
theorem filled_history_independent_prefixes :
    let ws := [Write.update [1] [7], .update [1, 2] [8], .update [3] [9], .delete [3]]
    let ws' := [Write.update [1, 2] [8], .update [1, 2] [], .update [1, 2] [8], .update [1] [7]]
    (∀ key, ((Trie.run ws).get key).1 = .ok (contents ws key)) ∧
      (Trie.run ws').root = (Trie.run ws).root := by
  intro ws ws'
  have hsame : contents ws = contents ws' := by
    funext key
    simp only [ws, ws', contents, List.foldl, Write.key, Write.stored, update_apply]
    by_cases h1 : key = [1]
    · simp [h1]
    · by_cases h2 : key = [1, 2]
      · simp [h2]
      · by_cases h3 : key = [3] <;> simp [h1, h2, h3]
  obtain ⟨-, hget, -, -, -, -, hroot⟩ := filled_history_independent (Trie.run_filled ws)
    (Trie.run_filled ws') hsame
  exact ⟨hget, hroot⟩

end ChilizChain.Patricia
