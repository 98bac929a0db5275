import Mathlib.Data.List.Perm.Basic
import Mathlib.Order.Lattice

/-! Binary heaps in a slice, as `container/heap` keeps them. Developed is what the operations do
to the contents (nothing is lost, added or duplicated, and the root is what is popped) and to the
order: no entry gets below its parent, so that the root is the least entry. -/

namespace Heap

open List

variable {α : Type} (less : α → α → Bool)

/-- Move the entry at `j` up while it is below its parent. `fuel` bounds the number of moves. -/
def up : ℕ → List α → ℕ → List α
  | 0, h, _ => h
  | fuel + 1, h, j =>
    let i := (j - 1) / 2
    match h[i]?, h[j]? with
    | some parent, some entry =>
      if i = j ∨ !less entry parent then h else up fuel (h.swap i j) i
    | _, _ => h

/-- The smaller one of the two children, with its position. -/
def smallerChild (h : List α) (j : ℕ) (left : α) : ℕ × α :=
  match h[j + 1]? with
  | some right => if less right left then (j + 1, right) else (j, left)
  | none => (j, left)

/-- Move the entry at `i` down while a child is below it. -/
def down : ℕ → List α → ℕ → List α
  | 0, h, _ => h
  | fuel + 1, h, i =>
    match h[i]?, h[2 * i + 1]? with
    | some entry, some left =>
      let child := smallerChild less h (2 * i + 1) left
      if !less child.2 entry then h else down fuel (h.swap i child.1) child.1
    | _, _ => h

/-- `heap.Push`. -/
def push (h : List α) (entry : α) : List α := up less h.length (h ++ [entry]) h.length

/-- `heap.Pop`: the last entry takes the place of the root and moves down. -/
def pop : List α → Option (α × List α)
  | [] => none
  | root :: rest => some (root, down less rest.length (rest.getLast?.toList ++ rest.dropLast) 0)

variable {less}

theorem up_perm : ∀ (fuel : ℕ) (h : List α) (j : ℕ), (up less fuel h j).Perm h
  | 0, h, _ => .refl h
  | fuel + 1, h, j => by
    unfold up
    dsimp only
    split
    · split
      · exact .refl h
      · exact (up_perm fuel _ _).trans (swap_perm _ _ _)
    · exact .refl h

theorem down_perm : ∀ (fuel : ℕ) (h : List α) (i : ℕ), (down less fuel h i).Perm h
  | 0, h, _ => .refl h
  | fuel + 1, h, i => by
    unfold down
    dsimp only
    split
    · split
      · exact .refl h
      · exact (down_perm fuel _ _).trans (swap_perm _ _ _)
    · exact .refl h

theorem push_perm (h : List α) (entry : α) : (push less h entry).Perm (entry :: h) :=
  (up_perm _ _ _).trans (perm_append_singleton entry h)

theorem foldl_push_perm (entries h : List α) :
    (entries.foldl (push less) h).Perm (h ++ entries) := by
  induction entries generalizing h with
  | nil => simp
  | cons entry entries ih =>
    calc (entries.foldl (push less) (push less h entry)).Perm (push less h entry ++ entries) := ih _
      List.Perm _ (entry :: h ++ entries) := (push_perm h entry).append_right entries
      List.Perm _ (h ++ entry :: entries) := perm_middle.symm

theorem getLast_append_dropLast_perm (l : List α) : (l.getLast?.toList ++ l.dropLast).Perm l := by
  rcases l.eq_nil_or_concat with rfl | ⟨init, last, rfl⟩
  · exact .refl _
  · simpa using (perm_append_singleton last init).symm

theorem pop_cons (less : α → α → Bool) (root : α) (rest : List α) :
    ∃ h, pop less (root :: rest) = some (root, h) ∧ h.Perm rest :=
  ⟨_, rfl, (down_perm _ _ _).trans (getLast_append_dropLast_perm rest)⟩

/-! ## Order -/

section Order

variable {κ : Type} [LinearOrder κ] {key : α → κ} {h : List α} {a b : α}

/-- No entry is below its parent, at the positions in `positions`. -/
def OrderedAt (key : α → κ) (positions : ℕ → Prop) (h : List α) : Prop :=
  ∀ c a b, 0 < c → positions c → h[(c - 1) / 2]? = some a → h[c]? = some b → key a ≤ key b

def Ordered (key : α → κ) (h : List α) : Prop := OrderedAt key (fun _ => True) h

variable {i j : ℕ}

theorem getElem?_swap (hi : i < h.length) (hj : j < h.length) (c : ℕ) :
    (h.swap i j)[c]? = if c = i then h[j]? else if c = j then h[i]? else h[c]? := by
  rw [swap_eq_of_lt hi hj, getElem?_set, getElem?_set]
  grind

/-- Only the entry at `j` may be below its parent. -/
structure Rising (key : α → κ) (j : ℕ) (h : List α) : Prop where
  others : OrderedAt key (· ≠ j) h
  grand : ∀ {c a b}, 0 < c → 0 < j → (c - 1) / 2 = j → h[(j - 1) / 2]? = some a →
    h[c]? = some b → key a ≤ key b

theorem Rising.swap (hr : Rising key j h) (hj : 0 < j) (ha : h[(j - 1) / 2]? = some a)
    (hb : h[j]? = some b) (hlt : key b < key a) :
    Rising key ((j - 1) / 2) (h.swap ((j - 1) / 2) j) := by
  have hjlt : j < h.length := (List.getElem?_eq_some_iff.mp hb).1
  have hilt : (j - 1) / 2 < h.length := (List.getElem?_eq_some_iff.mp ha).1
  constructor
  · intro c x y hc hcj hx hy
    rw [getElem?_swap hilt hjlt] at hx hy
    have hothers := hr.others c
    have hgrand := @hr.grand c
    grind
  · intro c x y hc hi hci hx hy
    rw [getElem?_swap hilt hjlt] at hx hy
    have hothers := hr.others c
    have hparent := hr.others ((j - 1) / 2)
    grind

theorem Rising.ordered (hr : Rising key j h)
    (hstop : 0 < j → h[(j - 1) / 2]? = some a → h[j]? = some b → key a ≤ key b)
    (ha : h[(j - 1) / 2]? = some a) (hb : h[j]? = some b) : Ordered key h := by
  intro c x y hc _ hx hy
  by_cases hcj : c = j
  · subst hcj
    rw [ha] at hx
    rw [hb] at hy
    cases hx
    cases hy
    exact hstop hc ha hb
  · exact hr.others c x y hc hcj hx hy

theorem up_ordered (hless : ∀ a b, less a b = decide (key a < key b)) (fuel : ℕ) (hj : j < h.length)
    (hfuel : j ≤ fuel) (hr : Rising key j h) : Ordered key (up less fuel h j) := by
  induction fuel generalizing h j with
  | zero =>
    obtain rfl : j = 0 := by omega
    exact fun c a b hc _ => hr.others c a b hc (by omega)
  | succ fuel ih =>
    have hparent : (j - 1) / 2 < h.length := by omega
    have ha := getElem?_eq_getElem hparent
    have hb := getElem?_eq_getElem hj
    unfold up
    simp only [ha, hb, hless]
    split
    · rename_i hstop
      refine hr.ordered (fun hpos _ _ => ?_) ha hb
      simp only [Bool.not_eq_true', decide_eq_false_iff_not, not_lt] at hstop
      exact hstop.resolve_left (by omega)
    · rename_i hmove
      simp only [Bool.not_eq_true', decide_eq_false_iff_not, not_lt, not_or, not_le] at hmove
      refine ih (by simpa using hparent) (by omega) (hr.swap (by omega) ha hb hmove.2)

/-- Only the children of the entry at `i` may be below it. -/
structure Sinking (key : α → κ) (i : ℕ) (h : List α) : Prop where
  others : OrderedAt key (fun c => (c - 1) / 2 ≠ i) h
  grand : ∀ {c a b}, 0 < c → 0 < i → (c - 1) / 2 = i → h[(i - 1) / 2]? = some a →
    h[c]? = some b → key a ≤ key b

theorem smallerChild_spec (hless : ∀ a b, less a b = decide (key a < key b))
    (hleft : h[2 * i + 1]? = some a) : let child := smallerChild less h (2 * i + 1) a
    0 < child.1 ∧ (child.1 - 1) / 2 = i ∧ h[child.1]? = some child.2 ∧
      ∀ {c y}, 0 < c → (c - 1) / 2 = i → h[c]? = some y → key child.2 ≤ key y := by
  unfold smallerChild
  cases hright : h[2 * i + 1 + 1]? with
  | none =>
    refine ⟨Nat.succ_pos _, by dsimp only; omega, hleft, fun {c y} hc hci hy => ?_⟩
    obtain rfl | rfl : c = 2 * i + 1 ∨ c = 2 * i + 1 + 1 := by omega
    · rw [hleft] at hy
      cases hy
      exact le_rfl
    · rw [hright] at hy
      cases hy
  | some right =>
    dsimp only
    rw [hless]
    split
    · rename_i hlt
      refine ⟨Nat.succ_pos _, by dsimp only; omega, hright, fun {c y} hc hci hy => ?_⟩
      obtain rfl | rfl : c = 2 * i + 1 ∨ c = 2 * i + 1 + 1 := by omega
      · rw [hleft] at hy
        cases hy
        exact (of_decide_eq_true hlt).le
      · rw [hright] at hy
        cases hy
        exact le_rfl
    · rename_i hle
      refine ⟨Nat.succ_pos _, by dsimp only; omega, hleft, fun {c y} hc hci hy => ?_⟩
      obtain rfl | rfl : c = 2 * i + 1 ∨ c = 2 * i + 1 + 1 := by omega
      · rw [hleft] at hy
        cases hy
        exact le_rfl
      · rw [hright] at hy
        cases hy
        exact not_lt.mp (of_decide_eq_false (Bool.eq_false_iff.mpr hle))

/-- The same in the part of the heap whose parents are at `lo` or after it. -/
structure SinkingFrom (key : α → κ) (lo i : ℕ) (h : List α) : Prop where
  others : OrderedAt key (fun c => lo ≤ (c - 1) / 2 ∧ (c - 1) / 2 ≠ i) h
  grand : ∀ {c a b}, 0 < c → 0 < i → lo ≤ (i - 1) / 2 → (c - 1) / 2 = i →
    h[(i - 1) / 2]? = some a → h[c]? = some b → key a ≤ key b

theorem SinkingFrom.swap {lo : ℕ} (hs : SinkingFrom key lo i h) (hj : 0 < j) (hji : (j - 1) / 2 = i)
    (hlo : lo ≤ i) (ha : h[i]? = some a) (hb : h[j]? = some b) (hlt : key b < key a)
    (hleast : ∀ {c y}, 0 < c → (c - 1) / 2 = i → h[c]? = some y → key b ≤ key y) :
    SinkingFrom key lo j (h.swap i j) := by
  have hilt : i < h.length := (List.getElem?_eq_some_iff.mp ha).1
  have hjlt : j < h.length := (List.getElem?_eq_some_iff.mp hb).1
  constructor
  · intro c x y hc hcj hx hy
    rw [getElem?_swap hilt hjlt] at hx hy
    have hothers := hs.others c
    have hgrand := @hs.grand j
    have hsibling := @hleast c
    grind
  · intro c x y hc _ _ hcj hx hy
    rw [getElem?_swap hilt hjlt] at hx hy
    have hothers := hs.others c
    grind

section

variable (hless : ∀ a b, less a b = decide (key a < key b))
include hless

theorem down_orderedFrom (fuel : ℕ) {lo : ℕ}
    (hlo : lo ≤ i) (hfuel : h.length ≤ i + fuel) (hs : SinkingFrom key lo i h) :
    OrderedAt key (fun c => lo ≤ (c - 1) / 2) (down less fuel h i) := by
  induction fuel generalizing h i with
  | zero =>
    intro c x y hc hparent hx hy
    refine hs.others c x y hc ⟨hparent, fun hci => ?_⟩ hx hy
    have hlt : (c - 1) / 2 < h.length := (List.getElem?_eq_some_iff.mp hx).1
    omega
  | succ fuel ih =>
    unfold down
    split
    · rename_i entry left hentry hleft
      obtain ⟨hpos, hparent, hchild, hleast⟩ := smallerChild_spec hless hleft
      dsimp only
      rw [hless]
      split
      · rename_i hstop
        simp only [Bool.not_eq_true', decide_eq_false_iff_not, not_lt] at hstop
        intro c x y hc hpar hx hy
        by_cases hci : (c - 1) / 2 = i
        · rw [hci, hentry] at hx
          cases hx
          exact hstop.trans (hleast hc hci hy)
        · exact hs.others c x y hc ⟨hpar, hci⟩ hx hy
      · rename_i hmove
        simp only [Bool.not_eq_true', decide_eq_false_iff_not, not_lt, not_le] at hmove
        refine ih ?_ ?_ (hs.swap hpos hparent hlo hentry hchild hmove hleast)
        · omega
        · simp only [length_swap]
          omega
    · -- there is no child
      rename_i hnone
      intro c x y hc hpar hx hy
      refine hs.others c x y hc ⟨hpar, fun hci => ?_⟩ hx hy
      have hlt := (List.getElem?_eq_some_iff.mp hy).1
      have hleft : 2 * i + 1 < h.length := by omega
      have hi : i < h.length := by omega
      exact hnone _ _ (getElem?_eq_getElem hi) (getElem?_eq_getElem hleft)

theorem down_ordered (fuel : ℕ)
    (hfuel : h.length ≤ i + fuel) (hs : Sinking key i h) : Ordered key (down less fuel h i) := by
  have hfrom : SinkingFrom key 0 i h :=
    ⟨fun c a b hc hne => hs.others c a b hc hne.2, fun hc hi _ => hs.grand hc hi⟩
  intro c a b hc _
  exact down_orderedFrom hless fuel (Nat.zero_le i) hfuel hfrom c a b hc (Nat.zero_le _)

theorem push_ordered (h : List α) (entry : α)
    (hordered : Ordered key h) : Ordered key (push less h entry) := by
  refine up_ordered hless _ (by simp) (Nat.le_refl _) ⟨fun c a b hc hne ha hb => ?_, ?_⟩
  · have hlt := (List.getElem?_eq_some_iff.mp hb).1
    simp only [length_append, length_singleton] at hlt
    rw [getElem?_append_left (by omega)] at ha hb
    exact hordered c a b hc trivial ha hb
  · intro c a b hc _ hcj _ hb
    have hlt := (List.getElem?_eq_some_iff.mp hb).1
    simp only [length_append, length_singleton] at hlt
    omega

end

theorem root_le {root : α} {rest : List α} (hordered : Ordered key (root :: rest)) :
    ∀ entry ∈ root :: rest, key root ≤ key entry := by
  have hat : ∀ (c : ℕ) (entry : α), (root :: rest)[c]? = some entry → key root ≤ key entry := by
    intro c
    induction c using Nat.strongRecOn with
    | _ c ih =>
      intro entry hentry
      by_cases hc : c = 0
      · subst hc
        cases hentry
        exact le_rfl
      · have hlt := (List.getElem?_eq_some_iff.mp hentry).1
        have hparent : (c - 1) / 2 < (root :: rest).length := by omega
        have hget := getElem?_eq_getElem hparent
        exact (ih _ (by omega) _ hget).trans (hordered c _ _ (by omega) trivial hget hentry)
  intro entry hentry
  obtain ⟨c, hc⟩ := mem_iff_getElem?.mp hentry
  exact hat c entry hc

theorem pop_ordered (hless : ∀ a b, less a b = decide (key a < key b)) {root : α}
    {rest h' : List α} (hordered : Ordered key (root :: rest))
    (hpop : pop less (root :: rest) = some (root, h')) : Ordered key h' := by
  obtain ⟨-, rfl⟩ := Prod.mk.inj (Option.some.inj hpop)
  refine down_ordered hless _ ?_ ⟨fun c a b hc hne ha hb => ?_, fun _ hi => absurd hi (by simp)⟩
  · rw [(getLast_append_dropLast_perm rest).length_eq]
    omega
  -- away from the root the entries are those of the old heap
  have hget : ∀ {c}, 0 < c → ∀ {b}, (rest.getLast?.toList ++ rest.dropLast)[c]? = some b →
      (root :: rest)[c]? = some b := by
    intro c hc b hb
    have hlt := (List.getElem?_eq_some_iff.mp hb).1
    rcases rest.eq_nil_or_concat with rfl | ⟨init, last, rfl⟩
    · simp at hb
    · obtain ⟨c, rfl⟩ := Nat.exists_eq_succ_of_ne_zero (Nat.pos_iff_ne_zero.mp hc)
      simp only [concat_eq_append, getLast?_append, getLast?_singleton,
        Option.some_or, Option.toList_some, dropLast_concat, singleton_append,
        getElem?_cons_succ, length_cons] at hb hlt ⊢
      rw [getElem?_append_left (by omega), hb]
  exact hordered c a b hc trivial (hget (by omega) ha) (hget hc hb)

end Order

end Heap
