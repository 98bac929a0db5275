import ChilizChain.Trie.Node

/-! # Sound nodes

The shape that decoding and all operations keep, also where nodes are missing or an operation
has failed half-way: a key ends with the terminator exactly above a value, and the last child of
a full node is a value. -/

namespace ChilizChain.Patricia

open Function List Radix

/-! ## Terminated keys -/

/-- A key with the terminator at its end and nowhere else. -/
def Terminated (key : HexKey) : Prop := ∃ ns, terminator ∉ ns ∧ key = ns ++ [terminator]

theorem terminated_keybytesToHex (key : Bytes) : Terminated (keybytesToHex key) := by
  refine ⟨(nibbles key).map Fin.castSucc, fun h => ?_, rfl⟩
  obtain ⟨a, -, ha⟩ := mem_map.mp h
  exact (Fin.castSucc_lt_last a).ne ha

theorem Terminated.append {k r : HexKey} (h : Terminated (k ++ r)) :
    r = [] ∧ Terminated k ∨ terminator ∉ k ∧ Terminated r := by
  obtain ⟨ns, hns, heq⟩ := h
  rcases eq_nil_or_concat r with rfl | ⟨r, a, rfl⟩
  · exact .inl ⟨rfl, ns, hns, by simpa using heq⟩
  · right
    rw [concat_eq_append, ← append_assoc] at heq
    obtain ⟨rfl, ha⟩ := append_inj' heq rfl
    rw [mem_append, not_or] at hns
    exact ⟨hns.1, r, hns.2, by rw [concat_eq_append, ha]⟩

variable {key : HexKey}

theorem Terminated.ne_nil (h : Terminated key) : key ≠ [] := by
  obtain ⟨ns, -, rfl⟩ := h
  simp

theorem Terminated.mem (h : Terminated key) : terminator ∈ key := by
  obtain ⟨ns, -, rfl⟩ := h
  simp

theorem Terminated.cons {a : Nibble} {rest : HexKey} (h : Terminated (a :: rest)) :
    a = terminator ∧ rest = [] ∨ a ≠ terminator ∧ Terminated rest := by
  rcases Terminated.append (k := [a]) h with ⟨rfl, ha⟩ | ⟨ha, hrest⟩
  · exact .inl ⟨by simpa [eq_comm] using ha.mem, rfl⟩
  · exact .inr ⟨fun h => ha (by simp [h]), hrest⟩

theorem Terminated.end_nil {c y : HexKey} (h : Terminated (c ++ terminator :: y)) : y = [] := by
  rcases h.append with ⟨hnil, -⟩ | ⟨-, h⟩
  · cases hnil
  · rcases h.cons with ⟨-, hy⟩ | ⟨hne, -⟩
    · exact hy
    · exact absurd rfl hne

theorem Terminated.eq_of_isPrefix {k : HexKey} (hk : Terminated k) (hkey : Terminated key)
    (h : k <+: key) : k = key := by
  obtain ⟨r, rfl⟩ := h
  rcases hkey.append with ⟨rfl, -⟩ | ⟨hnot, -⟩
  · simp
  · exact absurd hk.mem hnot

/-- What the recursion of the operations meets: a key that goes on, or its end. -/
def Continues (key : HexKey) : Prop := key = [] ∨ Terminated key

/-! ## Nodes -/

namespace Node

/-- What a hash node is loaded to. -/
def Decoded : Node → Prop
  | short _ _ _ => True
  | full _ _ => True
  | _ => False

def IsValue (n : Node) : Prop := ∃ v, n = value v

/-- The terminator stands at most at the end of a key, and there above a value. -/
def EndsAtValue (k : HexKey) (v : Node) : Prop :=
  ∀ c y, k = c ++ terminator :: y → y = [] ∧ v.IsValue

def Sound : Node → Prop
  | short k v _ => EndsAtValue k v ∧ v.Sound
  | full children _ =>
    (children terminator = nil ∨ (children terminator).IsValue) ∧ ∀ i, (children i).Sound
  | hash _ stored => stored.Decoded ∧ stored.Sound
  | _ => True

end Node

/-! ## Outcomes -/

namespace Outcome

variable {r : Outcome} {keep : Node → Node} {changed : Node → Outcome} {n : Node}

/-- The call has changed nothing: it has failed, or there was nothing to change. -/
def Unchanged (r : Outcome) : Prop := ∀ nn, r.result ≠ .ok (true, nn)

variable {nn : Node}

theorem orKeep_of_changed (h : r.result = .ok (true, nn)) : r.orKeep keep changed = changed nn := by
  simp [orKeep, h]

theorem Unchanged.orKeep (h : r.Unchanged) :
    (r.orKeep keep changed).left = keep r.left ∧ (r.orKeep keep changed).Unchanged ∧
      ∀ d nn, (r.orKeep keep changed).result = .ok (d, nn) → nn = keep r.left := by
  unfold Outcome.orKeep Unchanged
  rcases hresult : r.result with err | ⟨_ | _, nn⟩
  · simp
  · simp
  · exact absurd hresult (h nn)

theorem orKeep_cases {r' : Outcome} (heq : r' = r.orKeep keep changed) :
    (∃ nn, r.result = .ok (true, nn) ∧ r' = changed nn) ∨
      r.Unchanged ∧ r'.left = keep r.left ∧ r'.Unchanged ∧
        ∀ d nn, r'.result = .ok (d, nn) → nn = keep r.left := by
  subst heq
  by_cases h : r.Unchanged
  · exact .inr ⟨h, h.orKeep⟩
  · simp only [Unchanged, ne_eq, not_forall, not_not] at h
    obtain ⟨nn, hnn⟩ := h
    exact .inl ⟨nn, hnn, orKeep_of_changed hnn⟩

@[simp] theorem fromLoaded_left : (r.fromLoaded n).left = n := by
  unfold fromLoaded
  rcases r.result with err | ⟨_ | _, nn⟩ <;> rfl

theorem fromLoaded_changed :
    (r.fromLoaded n).result = .ok (true, nn) ↔ r.result = .ok (true, nn) := by
  unfold fromLoaded
  rcases r.result with err | ⟨_ | _, nn'⟩ <;> simp

theorem fromLoaded_result {d : Bool} (h : (r.fromLoaded n).result = .ok (d, nn)) :
    r.result = .ok (true, nn) ∨ r.Unchanged ∧ nn = r.left := by
  unfold fromLoaded Unchanged at *
  rcases hresult : r.result with err | ⟨_ | _, nn'⟩
  · simp [hresult] at h
  · rw [hresult] at h
    cases h
    exact .inr ⟨by simp, rfl⟩
  · rw [hresult] at h
    cases h
    exact .inl rfl

end Outcome

namespace Node

variable {n : Node}

@[simp] theorem isNil_iff : n.isNil = true ↔ n = nil := by
  cases n <;> simp [isNil]

/-! ## Equations of the operations -/

@[simp] theorem insert_end (n val : Node) : n.insert [] val = ⟨.ok (n.changes val, val), n⟩ := by
  unfold insert
  rfl

variable {key : HexKey}

theorem insert_nil (val : Node) (hkey : key ≠ []) :
    nil.insert key val = ⟨.ok (true, short key val newFlag), nil⟩ := by
  obtain ⟨a, rest, rfl⟩ := exists_cons_of_ne_nil hkey
  rfl

theorem insert_hash (h : Bytes) (stored val : Node) (hkey : key ≠ []) :
    (hash h stored).insert key val = (stored.insert key val).fromLoaded (hash h stored) := by
  obtain ⟨a, rest, rfl⟩ := exists_cons_of_ne_nil hkey
  rfl

theorem insert_full (cs : Nibble → Node) (flags : NodeFlag) (a : Nibble) (rest : HexKey)
    (val : Node) : (full cs flags).insert (a :: rest) val =
      ((cs a).insert rest val).orKeep (fun c => full (update cs a c) flags)
        fun nn => ⟨.ok (true, full (update cs a nn) newFlag), full (update cs a nn) newFlag⟩ := rfl

theorem insert_short_append (k r : HexKey) (v val : Node) (flags : NodeFlag) (hkey : k ++ r ≠ []) :
    (short k v flags).insert (k ++ r) val = (v.insert r val).orKeep (short k · flags) fun nn =>
      ⟨.ok (true, short k nn newFlag), short k (v.insert r val).left flags⟩ := by
  obtain ⟨a, rest, hcons⟩ := exists_cons_of_ne_nil hkey
  rw [hcons, insert, ← hcons]
  simp [prefixLen, prefixLen_append]

theorem insert_short_split (c x y : HexKey) {i j : Nibble} (v val : Node) (flags : NodeFlag)
    (hij : j ≠ i) : (short (c ++ i :: y) v flags).insert (c ++ j :: x) val =
      ⟨.ok (true, if c = [] then branch i (insertNil y v) j (insertNil x val)
        else short c (branch i (insertNil y v) j (insertNil x val)) newFlag),
        short (c ++ i :: y) v flags⟩ := by
  obtain ⟨a, rest, hcons⟩ := exists_cons_of_ne_nil (show c ++ j :: x ≠ [] by simp)
  rw [hcons, insert, ← hcons]
  simp [prefixLen, prefixLen_split c x y hij, split]

theorem insert_short_inside (c y : HexKey) (i : Nibble) (v val : Node) (flags : NodeFlag)
    (hc : c ≠ []) : (short (c ++ i :: y) v flags).insert c val =
      ⟨.error .panicked, short (c ++ i :: y) v flags⟩ := by
  obtain ⟨a, rest, hcons⟩ := exists_cons_of_ne_nil hc
  rw [hcons, insert, ← hcons]
  simp [prefixLen, prefixLen_self, split]

theorem delete_short_append (k r : HexKey) (v : Node) (flags : NodeFlag) (hr : r ≠ []) :
    (short k v flags).delete (k ++ r) = (v.delete r).orKeep (short k · flags) fun child =>
      ⟨.ok (true, merge k child), short k (v.delete r).left flags⟩ := by
  rw [delete]
  simp [prefixLen, prefixLen_append, hr]

theorem delete_short_self (k : HexKey) (v : Node) (flags : NodeFlag) :
    (short k v flags).delete k = ⟨.ok (true, nil), short k v flags⟩ := by
  have hlen := prefixLen_append k []
  rw [append_nil] at hlen
  rw [delete]
  simp [prefixLen, hlen]

variable {k : HexKey}

theorem delete_short_other (v : Node) (flags : NodeFlag) (h : ¬ k <+: key) :
    (short k v flags).delete key = ⟨.ok (false, short k v flags), short k v flags⟩ := by
  obtain ⟨c, x, y, rfl, rfl, hlen, -⟩ := prefixLen_spec key k
  have hy : y ≠ [] := by
    rintro rfl
    exact h ⟨x, by simp⟩
  rw [delete]
  simp [prefixLen, hlen, length_pos_iff.mpr hy]

theorem delete_full (cs : Nibble → Node) (flags : NodeFlag) (a : Nibble) (rest : HexKey) :
    (full cs flags).delete (a :: rest) =
      ((cs a).delete rest).orKeep (fun c => full (update cs a c) flags)
        fun nn => if nn.isNil then reduce (update cs a nn)
          else ⟨.ok (true, full (update cs a nn) newFlag),
            full (update cs a nn) newFlag⟩ := rfl

/-! ## What failure leaves behind -/

theorem insert_left {val : Node} (h : (n.insert key val).Unchanged) :
    (n.insert key val).left = n := by
  induction n generalizing key with
  | nil => cases key <;> rfl
  | value v => cases key <;> rfl
  | missing _ => cases key <;> rfl
  | hash hash stored ih =>
    cases key with
    | nil => rfl
    | cons a rest => simp [insert_hash hash stored val]
  | short k v flags ih =>
    by_cases hkey : key = []
    · subst hkey
      simp
    obtain ⟨c, x, y, rfl, rfl, -, hdiff⟩ := prefixLen_spec key k
    rcases y with _ | ⟨i, y⟩
    · rw [append_nil] at *
      obtain ⟨nn, -, heq⟩ | ⟨hunchanged, hleft, -, -⟩ :=
        Outcome.orKeep_cases (insert_short_append c x v val flags hkey)
      · exact absurd rfl (heq ▸ h _)
      · rw [hleft, ih hunchanged]
    · rcases x with _ | ⟨j, x⟩
      · rw [append_nil] at *
        rw [insert_short_inside c y i v val flags hkey]
      · rw [insert_short_split c x y v val flags (hdiff _ _ _ _ rfl rfl)]
  | full cs flags ih =>
    cases key with
    | nil => rfl
    | cons a rest =>
      obtain ⟨nn, -, heq⟩ | ⟨hunchanged, hleft, -, -⟩ :=
        Outcome.orKeep_cases (insert_full cs flags a rest val)
      · exact absurd rfl (heq ▸ h _)
      · rw [hleft, ih a hunchanged, update_eq_self]

/-! ## The operations keep nodes sound -/

theorem Terminated.endsAtValue (h : Terminated key) (b : Bytes) : EndsAtValue key (value b) := by
  rintro c y rfl
  exact ⟨h.end_nil, b, rfl⟩

theorem endsAtValue_of_not_mem (v : Node) (h : terminator ∉ k) : EndsAtValue k v := by
  rintro c y rfl
  simp at h

variable {v : Node}

theorem EndsAtValue.drop {c y : HexKey} (h : EndsAtValue (c ++ y) v) : EndsAtValue y v := by
  rintro c' y' rfl
  exact h (c ++ c') y' (by simp)

theorem EndsAtValue.append {k' : HexKey} (hk : terminator ∉ k) (h : EndsAtValue k' v) :
    EndsAtValue (k ++ k') v := by
  intro c y heq
  rcases append_eq_append_iff.mp heq with ⟨c', rfl, hc'⟩ | ⟨c', rfl, hc'⟩
  · exact h c' y hc'
  · rcases c' with _ | ⟨a, c'⟩
    · exact h [] y (by simpa using hc'.symm)
    · simp only [cons_append, List.cons.injEq] at hc'
      simp [← hc'.1] at hk

theorem insertNil_sound {y : HexKey} (hends : EndsAtValue y v) (hv : v.Sound) :
    (insertNil y v).Sound := by
  cases y with
  | nil => exact hv
  | cons a y => exact ⟨hends, hv⟩

variable {cs : Nibble → Node}

theorem full_update_sound {flags : NodeFlag} {a : Nibble} {child : Node} (flags' : NodeFlag)
    (h : (full cs flags).Sound) (hchild : child.Sound)
    (hslot : a = terminator → child = nil ∨ child.IsValue) :
    (full (update cs a child) flags').Sound := by
  refine ⟨?_, fun i => ?_⟩
  · by_cases ha : terminator = a
    · subst ha
      simpa using hslot rfl
    · rw [update_of_ne ha]
      exact h.1
  · by_cases hi : i = a
    · subst hi
      simpa using hchild
    · rw [update_of_ne hi]
      exact h.2 i

theorem branch_sound {i j : Nibble} {s t : Node} (hs : s.Sound) (ht : t.Sound)
    (hi : i = terminator → s.IsValue) (hj : j = terminator → t.IsValue) :
    (branch i s j t).Sound := by
  have hempty : (full (fun _ => nil) newFlag).Sound := ⟨.inl rfl, fun _ => trivial⟩
  exact full_update_sound _ (full_update_sound newFlag hempty hs fun h => .inr (hi h)) ht
    fun h => .inr (hj h)

theorem insert_sound {b : Bytes} {d : Bool} {nn : Node} (hsound : n.Sound) (hkey : Continues key)
    (h : (n.insert key (value b)).result = .ok (d, nn)) : nn.Sound ∧ (key = [] → nn.IsValue) := by
  rcases hkey with rfl | hkey
  · rw [insert_end] at h
    cases h
    exact ⟨trivial, fun _ => ⟨b, rfl⟩⟩
  refine ⟨?_, fun hnil => absurd hnil hkey.ne_nil⟩
  induction n generalizing key d nn with
  | nil =>
    rw [insert_nil (value b) hkey.ne_nil] at h
    cases h
    exact ⟨Terminated.endsAtValue hkey b, trivial⟩
  | value v =>
    obtain ⟨a, rest, rfl⟩ := exists_cons_of_ne_nil hkey.ne_nil
    simp [insert] at h
  | missing hash =>
    obtain ⟨a, rest, rfl⟩ := exists_cons_of_ne_nil hkey.ne_nil
    simp [insert] at h
  | hash hash stored ih =>
    rw [insert_hash hash stored (value b) hkey.ne_nil] at h
    rcases Outcome.fromLoaded_result h with h | ⟨hunchanged, rfl⟩
    · exact ih hsound.2 h hkey
    · rw [insert_left hunchanged]
      exact hsound.2
  | short k v flags ih =>
    obtain ⟨c, x, y, rfl, rfl, -, hdiff⟩ := prefixLen_spec key k
    rcases y with _ | ⟨i, y⟩
    · rw [append_nil] at *
      obtain ⟨nn', hnn', heq⟩ | ⟨hunchanged, -, -, hkept⟩ :=
        Outcome.orKeep_cases (insert_short_append c x v (value b) flags hkey.ne_nil)
      · rw [heq] at h
        cases h
        rcases hkey.append with ⟨rfl, hc⟩ | ⟨hc, hx⟩
        · rw [insert_end] at hnn'
          obtain ⟨-, rfl⟩ := Prod.mk.inj (Except.ok.inj hnn')
          exact ⟨Terminated.endsAtValue hc b, trivial⟩
        · exact ⟨endsAtValue_of_not_mem nn' hc, ih hsound.2 hnn' hx⟩
      · rw [hkept d nn h, insert_left hunchanged]
        exact hsound
    · rcases x with _ | ⟨j, x⟩
      · rw [append_nil] at *
        rw [insert_short_inside c y i v (value b) flags hkey.ne_nil] at h
        cases h
      · rw [insert_short_split c x y v (value b) flags (hdiff _ _ _ _ rfl rfl)] at h
        cases h
        obtain ⟨hc, hjx⟩ := hkey.append.resolve_left fun h => by simp at h
        -- The two keys go on below the new full node, or end in its last slot.
        have hbranch : (branch i (insertNil y v) j (insertNil x (value b))).Sound := by
          refine branch_sound
            (insertNil_sound (EndsAtValue.drop (c := c ++ [i]) (by simpa using hsound.1))
            hsound.2) ?_ ?_ ?_
          · rcases hjx.cons with ⟨-, rfl⟩ | ⟨-, hx⟩
            · trivial
            · exact insertNil_sound (Terminated.endsAtValue hx b) trivial
          · rintro rfl
            obtain ⟨rfl, hv⟩ := hsound.1 c y rfl
            exact hv
          · rintro rfl
            obtain rfl := hjx.end_nil (c := [])
            exact ⟨b, rfl⟩
        split
        · exact hbranch
        · exact ⟨endsAtValue_of_not_mem _ hc, hbranch⟩
  | full cs flags ih =>
    obtain ⟨a, rest, rfl⟩ := exists_cons_of_ne_nil hkey.ne_nil
    obtain ⟨nn', hnn', heq⟩ | ⟨hunchanged, -, -, hkept⟩ :=
      Outcome.orKeep_cases (insert_full cs flags a rest (value b))
    · rw [heq] at h
      cases h
      rcases hkey.cons with ⟨rfl, rfl⟩ | ⟨ha, hrest⟩
      · rw [insert_end] at hnn'
        obtain ⟨-, rfl⟩ := Prod.mk.inj (Except.ok.inj hnn')
        exact full_update_sound _ hsound trivial fun _ => .inr ⟨b, rfl⟩
      · exact full_update_sound _ hsound (ih a (hsound.2 a) hnn' hrest) fun h => absurd h ha
    · rw [hkept d nn h, insert_left hunchanged, update_eq_self]
      exact hsound

theorem resolve_sound {m : Node} (h : n.resolve = .ok m) (hsound : n.Sound) : m.Sound := by
  cases n <;> simp only [resolve, Except.ok.injEq, reduceCtorEq] at h
  case hash => exact h ▸ hsound.2
  all_goals exact h ▸ hsound

theorem merge_sound (hk : terminator ∉ k) (h : n.Sound) : (merge k n).Sound := by
  cases n with
  | short k' v' flags => exact ⟨h.1.append hk, h.2⟩
  | _ => exact ⟨endsAtValue_of_not_mem _ hk, h⟩

theorem soleChild_ne_nil {pos : Nibble} (h : soleChild cs = some pos) : cs pos ≠ nil := by
  have := (soleIndex_eq_some.mp h pos).mpr rfl
  rintro hnil
  simp [hnil, isNil] at this

theorem reduce_sound (hsound : (full cs newFlag).Sound) :
    (∀ d nn, (reduce cs).result = .ok (d, nn) → nn.Sound) ∧ (reduce cs).left.Sound := by
  unfold reduce
  cases hsole : soleChild cs with
  | none => simpa using hsound
  | some pos =>
    by_cases hpos : pos = terminator
    · subst hpos
      obtain ⟨b, hb⟩ := hsound.1.resolve_left (soleChild_ne_nil hsole)
      refine ⟨?_, by simpa using hsound⟩
      rintro d nn h
      simp only [if_true, Except.ok.injEq, Prod.mk.injEq] at h
      rw [← h.2, hb]
      exact ⟨Terminated.endsAtValue ⟨[], by simp, rfl⟩ b, trivial⟩
    · simp only [hpos, if_false]
      have hnot : terminator ∉ [pos] := by simpa [eq_comm] using hpos
      have hkept : (short [pos] (cs pos) newFlag).Sound :=
        ⟨endsAtValue_of_not_mem _ hnot, hsound.2 pos⟩
      split
      · exact ⟨by simp, hsound⟩
      · rename_i k v flags hresolve
        have hchild := resolve_sound hresolve (hsound.2 pos)
        refine ⟨?_, hsound⟩
        rintro d nn ⟨⟩
        exact ⟨hchild.1.append hnot, hchild.2⟩
      · refine ⟨?_, hsound⟩
        rintro d nn ⟨⟩
        exact hkept

theorem delete_slot (h : n = nil ∨ n.IsValue) :
    (n.delete []).left = n ∧ ∀ d nn, (n.delete []).result = .ok (d, nn) → nn = nil := by
  rcases h with rfl | ⟨b, rfl⟩ <;> simp [delete]

theorem delete_sound (hsound : n.Sound) (hkey : Terminated key) :
    (∀ d nn, (n.delete key).result = .ok (d, nn) → nn.Sound) ∧ (n.delete key).left.Sound := by
  induction n generalizing key with
  | nil => simp [delete, Sound]
  | value v => simp [delete, Sound]
  | missing hash => simp [delete, Sound]
  | hash hash stored ih =>
    rw [delete]
    refine ⟨fun d nn h => ?_, by simpa using hsound⟩
    obtain ⟨hresult, hleft⟩ := ih hsound.2 hkey
    rcases Outcome.fromLoaded_result h with h | ⟨-, rfl⟩
    · exact hresult _ _ h
    · exact hleft
  | short k v flags ih =>
    by_cases hk : k <+: key
    · obtain ⟨r, rfl⟩ := hk
      rcases hkey.append with ⟨rfl, -⟩ | ⟨hknot, hr⟩
      · rw [append_nil, delete_short_self]
        simpa [Sound] using hsound
      · obtain ⟨hresult, hleft⟩ := ih hsound.2 hr
        have hkept : (short k (v.delete r).left flags).Sound :=
          ⟨endsAtValue_of_not_mem _ hknot, hleft⟩
        obtain ⟨nn', hnn', heq⟩ | ⟨-, hleft', -, hkeep⟩ :=
          Outcome.orKeep_cases (delete_short_append k r v flags hr.ne_nil)
        · rw [heq]
          refine ⟨?_, hkept⟩
          rintro d nn ⟨⟩
          exact merge_sound hknot (hresult _ _ hnn')
        · exact ⟨fun d nn h => hkeep d nn h ▸ hkept, by rw [hleft']; exact hkept⟩
    · rw [delete_short_other v flags hk]
      refine ⟨?_, hsound⟩
      rintro d nn ⟨⟩
      exact hsound
  | full cs flags ih =>
    obtain ⟨a, rest, rfl⟩ := exists_cons_of_ne_nil hkey.ne_nil
    -- What the child becomes, and that the last slot still holds a value or nothing.
    have hchild : (∀ d nn, ((cs a).delete rest).result = .ok (d, nn) →
          nn.Sound ∧ (a = terminator → nn = nil ∨ nn.IsValue)) ∧
        ((cs a).delete rest).left.Sound ∧
          (a = terminator → ((cs a).delete rest).left = nil ∨
            ((cs a).delete rest).left.IsValue) := by
      rcases hkey.cons with ⟨rfl, rfl⟩ | ⟨ha, hrest⟩
      · obtain ⟨hleft, hnil⟩ := delete_slot hsound.1
        refine ⟨fun d nn h => ?_, by rw [hleft]; exact hsound.2 _,
          fun _ => by rw [hleft]; exact hsound.1⟩
        rw [hnil d nn h]
        exact ⟨trivial, fun _ => .inl rfl⟩
      · obtain ⟨hresult, hleft⟩ := ih a (hsound.2 a) hrest
        exact ⟨fun d nn h => ⟨hresult d nn h, fun h => absurd h ha⟩, hleft, fun h => absurd h ha⟩
    obtain ⟨hresult, hleft, hslot⟩ := hchild
    obtain ⟨nn', hnn', heq⟩ | ⟨-, hleft', -, hkeep⟩ :=
      Outcome.orKeep_cases (delete_full cs flags a rest)
    · have hupdated : (full (update cs a nn') newFlag).Sound :=
        full_update_sound _ hsound (hresult _ _ hnn').1 (hresult _ _ hnn').2
      rw [heq]
      split
      · exact reduce_sound hupdated
      · refine ⟨?_, hupdated⟩
        rintro d nn ⟨⟩
        exact hupdated
    · have hkept : (full (update cs a ((cs a).delete rest).left) flags).Sound :=
        full_update_sound _ hsound hleft hslot
      exact ⟨fun d nn h => hkeep d nn h ▸ hkept, by rw [hleft']; exact hkept⟩

end Node

end ChilizChain.Patricia
