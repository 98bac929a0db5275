import Mathlib.Data.List.Infix
import Mathlib.Data.List.FinRange

/-! # Radix trees

Path-compressed trees over the alphabet `Fin n`. A `short` node carries a piece of a key, a
`full` node one child for each letter, and values stand only at the end of a path. What a tree
holds is the function `find`. Among the trees that hold the same, one has no superfluous nodes:
`Canonical` says which, `Canonical.unique` that it is the only one, and insertion and removal
lead from one canonical tree to another. -/

inductive Radix (n : ℕ) (β : Type) : Type
  | nil
  | value (b : β)
  | short (key : List (Fin n)) (val : Radix n β)
  | full (children : Fin n → Radix n β)

namespace Radix

open List Function

variable {n : ℕ} {β : Type}

/-! ## Operations -/

def isNil : Radix n β → Bool
  | nil => true
  | _ => false

variable {t : Radix n β}

@[simp] theorem isNil_eq_true : t.isNil = true ↔ t = nil := by
  cases t <;> simp [isNil]

@[simp] theorem isNil_eq_false : t.isNil = false ↔ t ≠ nil := by
  cases t <;> simp [isNil]

def find : Radix n β → List (Fin n) → Option β
  | nil, _ => none
  | value b, key => if key = [] then some b else none
  | short k val, key => if k <+: key then find val (key.drop k.length) else none
  | full _, [] => none
  | full children, a :: key => find (children a) key

/-- Puts a piece of a key on top of a tree, merging it with one that is there. -/
def prepend (k : List (Fin n)) : Radix n β → Radix n β
  | short k' val => short (k ++ k') val
  | t => short k t

/-- A tree below a possibly empty piece of a key. -/
def hang (k : List (Fin n)) (t : Radix n β) : Radix n β :=
  if k = [] then t else short k t

/-- The length of the common part of two keys. -/
def prefixLen : List (Fin n) → List (Fin n) → ℕ
  | a :: as, b :: bs => if a = b then prefixLen as bs + 1 else 0
  | _, _ => 0

/-- A full node with two children. -/
def fork (a : Fin n) (s : Radix n β) (b : Fin n) (t : Radix n β) : Radix n β :=
  full (Function.update (Function.update (fun _ => nil) a s) b t)

def insert : Radix n β → List (Fin n) → β → Radix n β
  | _, [], b => value b
  | nil, key, b => short key (value b)
  | value _, _, b => value b
  | short k val, key, b =>
    let m := prefixLen key k
    if m = k.length then short k (insert val (key.drop m) b)
    else
      match k.drop m, key.drop m with
      | d :: y, a :: x => hang (key.take m) (fork d (hang y val) a (hang x (value b)))
      | _, _ => short k val
  | full children, a :: key, b =>
    full (Function.update children a (insert (children a) key b))

/-- The only letter with a property, if there is exactly one. -/
def soleIndex (p : Fin n → Bool) : Option (Fin n) :=
  match (List.finRange n).filter p with
  | [i] => some i
  | _ => none

/-- The only child of a full node, if there is exactly one. -/
def soleChild (children : Fin n → Radix n β) : Option (Fin n) :=
  soleIndex fun i => !(children i).isNil

/-- A full node that may have lost a child. -/
def reduce (children : Fin n → Radix n β) : Radix n β :=
  match soleChild children with
  | some i => prepend [i] (children i)
  | none => full children

/-- The tree without a key; `none` if the key was not there. -/
def remove : Radix n β → List (Fin n) → Option (Radix n β)
  | nil, _ => none
  | value _, _ => some nil
  | short k val, key =>
    if k <+: key then
      if key.length = k.length then some nil
      else (remove val (key.drop k.length)).map (prepend k)
    else none
  | full _, [] => none
  | full children, a :: key =>
    (remove (children a) key).map fun child =>
      if child.isNil then reduce (Function.update children a child)
      else full (Function.update children a child)

def delete (t : Radix n β) (key : List (Fin n)) : Radix n β := (t.remove key).getD t

/-! ## Looking up -/

attribute [local simp] find isNil prefixLen prepend insert remove in
@[simp] theorem find_nil (key : List (Fin n)) : find (nil : Radix n β) key = none := by
  simp

@[simp] theorem find_short_append (k key : List (Fin n)) (t : Radix n β) :
    find (short k t) (k ++ key) = find t key := by
  simp [find]

variable {k key : List (Fin n)}

theorem find_short_eq_none (t : Radix n β) (h : ¬ k <+: key) : find (short k t) key = none := by
  simp [find, h]

@[simp] theorem find_full_cons (cs : Fin n → Radix n β) (a : Fin n) (key : List (Fin n)) :
    find (full cs) (a :: key) = find (cs a) key := rfl

@[simp] theorem find_full_nil (cs : Fin n → Radix n β) : find (full cs) [] = none := rfl

@[simp] theorem find_value_nil (b : β) : find (value b : Radix n β) [] = some b := rfl

theorem find_short_eq_some {b : β} :
    find (short k t) key = some b ↔ ∃ r, key = k ++ r ∧ find t r = some b := by
  constructor
  · intro h
    by_cases hk : k <+: key
    · obtain ⟨r, rfl⟩ := hk
      exact ⟨r, rfl, by simpa using h⟩
    · simp [find_short_eq_none t hk] at h
  · rintro ⟨r, rfl, h⟩
    simpa using h

theorem find_short_append_append (c k key : List (Fin n)) (t : Radix n β) :
    find (short (c ++ k) t) (c ++ key) = find (short k t) key := by
  simp [find, prefix_append_right_inj, ← drop_drop]

theorem find_short_cons_cons (a e : Fin n) (k key : List (Fin n)) (t : Radix n β) :
    find (short (a :: k) t) (e :: key) = if e = a then find (short k t) key else none := by
  by_cases h : e = a
  · subst h
    simpa using find_short_append_append [e] k key t
  · rw [if_neg h]
    exact find_short_eq_none t fun hp => h (cons_prefix_cons.mp hp).1.symm

theorem find_leaf (k key : List (Fin n)) (b : β) :
    find (short k (value b)) key = if key = k then some b else none := by
  by_cases h : key = k
  · subst h
    simpa using find_short_append key [] (value b)
  · rw [if_neg h, ← Option.not_isSome_iff_eq_none, Option.isSome_iff_exists]
    rintro ⟨b', hb'⟩
    obtain ⟨r, rfl, hr⟩ := find_short_eq_some.mp hb'
    cases r with
    | nil => simp at h
    | cons _ _ => cases hr

theorem find_hang (k key : List (Fin n)) (t : Radix n β) :
    find (hang k t) key = find (short k t) key := by
  by_cases hk : k = []
  · subst hk
    simp [hang, find]
  · simp [hang, hk]

theorem find_prepend (k key : List (Fin n)) (t : Radix n β) :
    find (prepend k t) key = find (short k t) key := by
  cases t with
  | short k' val =>
    by_cases hk : k <+: key
    · obtain ⟨r, rfl⟩ := hk
      rw [prepend, find_short_append_append, find_short_append]
    · have hk' : ¬ k ++ k' <+: key := fun h => hk ((prefix_append k k').trans h)
      rw [prepend, find_short_eq_none _ hk, find_short_eq_none _ hk']
  | nil => rfl
  | value b => rfl
  | full cs => rfl

/-! ## Canonical trees -/

/-- What may stand below a piece of a key. -/
def Solid : Radix n β → Prop
  | value _ => True
  | full _ => True
  | _ => False

/-- No empty piece of a key and none above another one or above nothing, and at least two children
below every full node. -/
def Canonical : Radix n β → Prop
  | nil => True
  | value _ => True
  | short key val => key ≠ [] ∧ val.Solid ∧ val.Canonical
  | full children =>
    (∃ a b, a ≠ b ∧ children a ≠ nil ∧ children b ≠ nil) ∧ ∀ a, (children a).Canonical

theorem Solid.ne_nil (h : t.Solid) : t ≠ nil := by
  rintro rfl
  exact h

theorem Canonical.exists_find (h : t.Canonical) (hne : t ≠ nil) : ∃ key b, t.find key = some b := by
  induction t with
  | nil => exact absurd rfl hne
  | value b => exact ⟨[], b, rfl⟩
  | short k val ih =>
    obtain ⟨key, b, hb⟩ := ih h.2.2 h.2.1.ne_nil
    exact ⟨k ++ key, b, by simpa using hb⟩
  | full cs ih =>
    obtain ⟨⟨a, _, _, ha, _⟩, hall⟩ := h
    obtain ⟨key, b, hb⟩ := ih a (hall a) ha
    exact ⟨a :: key, b, hb⟩

theorem Canonical.not_all_prefixed (h : t.Canonical) (hsolid : t.Solid) (hk : k ≠ []) :
    ¬ ∀ key b, t.find key = some b → k <+: key := by
  intro hall
  cases t with
  | nil => exact hsolid
  | value b => exact hk (prefix_nil.mp (hall [] b rfl))
  | short _ _ => exact hsolid
  | full cs =>
    obtain ⟨⟨i, j, hij, hi, hj⟩, hcanonical⟩ := h
    obtain ⟨x, b, hx⟩ := (hcanonical i).exists_find hi
    obtain ⟨y, c, hy⟩ := (hcanonical j).exists_find hj
    obtain ⟨a, k, rfl⟩ := exists_cons_of_ne_nil hk
    have hxi := hall (i :: x) b hx
    have hyj := hall (j :: y) c hy
    exact hij ((cons_prefix_cons.mp hxi).1.symm.trans (cons_prefix_cons.mp hyj).1)

variable {val : Radix n β}

theorem Canonical.find_nil_eq_none_of_short (h : (short k val).Canonical) :
    find (short k val) [] = none :=
  find_short_eq_none val fun hk => h.1 (prefix_nil.mp hk)

theorem Canonical.short_ne_solid (h : (short k val).Canonical) (ht : t.Canonical) (hsolid : t.Solid)
    (hfind : ∀ key, t.find key = find (short k val) key) : False := by
  refine ht.not_all_prefixed hsolid h.1 fun key b hb => ?_
  obtain ⟨r, rfl, -⟩ := find_short_eq_some.mp (hfind key ▸ hb)
  exact prefix_append k r

theorem Canonical.short_extension_nil {d : List (Fin n)} {val' : Radix n β}
    (h : (short k val).Canonical)
    (hfind : ∀ key, find (short k val) key = find (short (k ++ d) val') key) : d = [] := by
  by_contra hd
  refine h.2.2.not_all_prefixed h.2.1 hd fun r b hb => ?_
  have hr : find (short (k ++ d) val') (k ++ r) = some b := by
    rw [← hfind, find_short_append, hb]
  obtain ⟨r', hr', -⟩ := find_short_eq_some.mp hr
  exact ⟨r', by simpa using hr'.symm⟩

/-- Two canonical trees that hold the same are the same. -/
theorem Canonical.unique {t' : Radix n β} (h : t.Canonical) (h' : t'.Canonical)
    (hfind : ∀ key, t.find key = t'.find key) : t = t' := by
  induction t generalizing t' with
  | nil =>
    by_contra hne
    obtain ⟨key, b, hb⟩ := h'.exists_find (Ne.symm hne)
    simp [← hfind key] at hb
  | value b =>
    have hroot := hfind []
    cases t' with
    | nil => simp at hroot
    | value b' => simpa using hroot
    | short k val => rw [h'.find_nil_eq_none_of_short] at hroot; cases hroot
    | full cs => cases hroot
  | short k val ih =>
    cases t' with
    | nil =>
      obtain ⟨key, b, hb⟩ := h.exists_find (by simp)
      simp [hfind key] at hb
    | value b => exact (h.short_ne_solid h' trivial fun key => (hfind key).symm).elim
    | full cs => exact (h.short_ne_solid h' trivial fun key => (hfind key).symm).elim
    | short k' val' =>
      -- A common entry makes the two pieces comparable, so one continues the other.
      obtain ⟨key, b, hb⟩ := h.exists_find (by simp)
      obtain ⟨r, hr, -⟩ := find_short_eq_some.mp hb
      obtain ⟨r', hr', -⟩ := find_short_eq_some.mp (hfind key ▸ hb)
      have hkk' : k = k' := by
        rcases prefix_or_prefix_of_prefix ⟨r, hr.symm⟩ ⟨r', hr'.symm⟩ with ⟨d, rfl⟩ | ⟨d, rfl⟩
        · rw [h.short_extension_nil hfind, append_nil]
        · rw [h'.short_extension_nil fun key => (hfind key).symm, append_nil]
      subst hkk'
      rw [ih h.2.2 h'.2.2 fun q => by simpa using hfind (k ++ q)]
  | full cs ih =>
    cases t' with
    | nil =>
      obtain ⟨key, b, hb⟩ := h.exists_find (by simp)
      simp [hfind key] at hb
    | value b => cases hfind []
    | short k val => exact (h'.short_ne_solid h trivial hfind).elim
    | full cs' =>
      congr 1
      funext a
      exact ih a (h.2 a) (h'.2 a) fun key => hfind (a :: key)

/-! ## Putting trees together -/

theorem canonical_hang (h : t.Canonical) (hsolid : t.Solid) : (hang k t).Canonical := by
  unfold hang
  split
  · exact h
  · exact ⟨‹_›, hsolid, h⟩

theorem canonical_prepend (hk : k ≠ []) (h : t.Canonical) (hne : t ≠ nil) :
    (prepend k t).Canonical := by
  cases t with
  | nil => exact absurd rfl hne
  | value b => exact ⟨hk, trivial, trivial⟩
  | short k' val => exact ⟨by simp [hk], h.2⟩
  | full cs => exact ⟨hk, trivial, h⟩

theorem prepend_ne_nil (k : List (Fin n)) (t : Radix n β) : prepend k t ≠ nil := by
  cases t <;> simp [prepend]

theorem hang_ne_nil (h : t ≠ nil) : hang k t ≠ nil := by
  unfold hang
  split
  · exact h
  · simp

variable {a : Fin n}

theorem canonical_fork {b : Fin n} {s : Radix n β} (hab : a ≠ b) (hs : s.Canonical) (hsne : s ≠ nil)
    (ht : t.Canonical) (htne : t ≠ nil) : (fork a s b t).Canonical := by
  refine ⟨⟨a, b, hab, by simpa [update_of_ne hab] using hsne, by simpa using htne⟩, ?_⟩
  intro i
  by_cases hib : i = b
  · subst hib
    simpa using ht
  · rw [update_of_ne hib]
    by_cases hia : i = a
    · subst hia
      simpa using hs
    · rw [update_of_ne hia]
      trivial

theorem find_fork {b : Fin n} (s t : Radix n β) (i : Fin n) (key : List (Fin n)) :
    find (fork a s b t) (i :: key) =
      if i = b then find t key else if i = a then find s key else none := by
  simp only [fork, find_full_cons, update_apply]
  split
  · rfl
  · split <;> simp

variable {cs : Fin n → Radix n β} {child : Radix n β}

theorem canonical_update (a : Fin n) (hall : ∀ e, (cs e).Canonical) (hchild : child.Canonical)
    (e : Fin n) : (update cs a child e).Canonical := by
  by_cases hea : e = a
  · subst hea
    simpa using hchild
  · rw [update_of_ne hea]
    exact hall e

theorem update_ne_nil (a : Fin n) (hchild : child ≠ nil) {e : Fin n} (he : cs e ≠ nil) :
    update cs a child e ≠ nil := by
  by_cases hea : e = a
  · subst hea
    simpa using hchild
  · rwa [update_of_ne hea]

theorem find_full_update {found : Option β}
    (h : ∀ q, child.find q = if q = key then found else (cs a).find q) (q : List (Fin n)) :
    (full (update cs a child)).find q =
      if q = a :: key then found else (full cs).find q := by
  cases q with
  | nil => simp
  | cons e q =>
    by_cases hea : e = a
    · subst hea
      simp [h]
    · simp [hea]

theorem find_short_update {t' : Radix n β} {found : Option β}
    (h : ∀ q, t'.find q = if q = key then found else t.find q) (q : List (Fin n)) :
    (short k t').find q = if q = k ++ key then found else (short k t).find q := by
  by_cases hk : k <+: q
  · obtain ⟨r, rfl⟩ := hk
    simp [h]
  · rw [find_short_eq_none _ hk, find_short_eq_none _ hk, if_neg]
    rintro rfl
    exact hk (prefix_append k key)

/-! ## Insertion -/

theorem prefixLen_spec (as bs : List (Fin n)) :
    ∃ c x y, as = c ++ x ∧ bs = c ++ y ∧ prefixLen as bs = c.length ∧
      ∀ i j x' y', x = i :: x' → y = j :: y' → i ≠ j := by
  induction as generalizing bs with
  | nil => exact ⟨[], [], bs, rfl, rfl, by simp [prefixLen], by simp⟩
  | cons a as ih =>
    cases bs with
    | nil => exact ⟨[], a :: as, [], rfl, rfl, by simp [prefixLen], by simp⟩
    | cons b bs =>
      by_cases hab : a = b
      · subst hab
        obtain ⟨c, x, y, rfl, rfl, hlen, hdiff⟩ := ih bs
        exact ⟨a :: c, x, y, rfl, rfl, by simp [prefixLen, hlen], hdiff⟩
      · refine ⟨[], a :: as, b :: bs, rfl, rfl, by simp [prefixLen, hab], ?_⟩
        rintro i j x' y' ⟨⟩ ⟨⟩
        exact hab

theorem prefixLen_append (k r : List (Fin n)) : prefixLen (k ++ r) k = k.length := by
  induction k with
  | nil => cases r <;> simp [prefixLen]
  | cons a k ih => simp [prefixLen, ih]

variable {d : Fin n}

theorem prefixLen_split (c x y : List (Fin n)) (had : a ≠ d) :
    prefixLen (c ++ a :: x) (c ++ d :: y) = c.length := by
  induction c with
  | nil => simp [prefixLen, had]
  | cons e c ih => simp [prefixLen, ih]

theorem prefixLen_self (k r : List (Fin n)) : prefixLen k (k ++ r) = k.length := by
  induction k with
  | nil => cases r <;> simp [prefixLen]
  | cons a k ih => simp [prefixLen, ih]

/-- A key that neither continues another one of the tree nor is continued by one. -/
def Fits (t : Radix n β) (key : List (Fin n)) : Prop :=
  ∀ q b, t.find q = some b → q <+: key ∨ key <+: q → q = key

theorem Fits.short (h : (short k t).Fits (k ++ key)) : t.Fits key := by
  intro q b hb hcomparable
  have := h (k ++ q) b (by simpa using hb)
    (by simpa only [prefix_append_right_inj] using hcomparable)
  exact append_cancel_left this

theorem Fits.full (h : (full cs).Fits (a :: key)) : (cs a).Fits key := by
  intro q b hb hcomparable
  have := h (a :: q) b hb (by simpa only [cons_prefix_cons, true_and] using hcomparable)
  exact cons_inj_right a |>.mp this

theorem Fits.not_prefix_short (h : (Radix.short k val).Fits key)
    (hcanonical : (Radix.short k val).Canonical) (hlt : key.length < k.length) : ¬ key <+: k := by
  intro hpre
  obtain ⟨r, b, hb⟩ := hcanonical.2.2.exists_find hcanonical.2.1.ne_nil
  have := h (k ++ r) b (by simpa using hb) (.inr (hpre.trans (prefix_append k r)))
  have := congrArg List.length this
  simp at this
  omega

theorem Fits.ne_nil_of_full (h : (Radix.full cs).Fits key)
    (hcanonical : (Radix.full cs).Canonical) : key ≠ [] := by
  rintro rfl
  obtain ⟨q, b, hb⟩ := hcanonical.exists_find (by simp)
  have := h q b hb (.inr nil_prefix)
  subst this
  cases hb

theorem insert_solid (h : t.Solid) (key : List (Fin n)) (b : β) : (t.insert key b).Solid := by
  cases t with
  | nil => exact h.elim
  | value _ => cases key <;> trivial
  | short _ _ => exact h.elim
  | full _ => cases key <;> trivial

theorem insert_ne_nil (t : Radix n β) (key : List (Fin n)) (b : β) : t.insert key b ≠ nil := by
  cases t with
  | nil => cases key <;> simp [insert]
  | value _ => cases key <;> simp [insert]
  | full _ => cases key <;> simp [insert]
  | short k val =>
    cases key with
    | nil => simp [insert]
    | cons a key =>
      simp only [insert]
      split
      · simp
      · split
        · exact hang_ne_nil (by simp [fork])
        · simp

theorem insert_short_append (b : β) (hk : k ≠ []) :
    (short k val).insert (k ++ key) b = short k (val.insert key b) := by
  obtain ⟨a, k, rfl⟩ := exists_cons_of_ne_nil hk
  rw [cons_append, insert, ← cons_append, prefixLen_append]
  · simp
  · simp

theorem insert_short_split {c x y : List (Fin n)} (b : β) (had : a ≠ d) :
    (short (c ++ d :: y) val).insert (c ++ a :: x) b =
      hang c (fork d (hang y val) a (hang x (value b))) := by
  rw [insert]
  · simp [prefixLen_split c x y had]
  · simp

theorem find_insert_split {c x y : List (Fin n)} (b : β) (had : a ≠ d) (q : List (Fin n)) :
    find (hang c (fork d (hang y val) a (hang x (value b)))) q =
      if q = c ++ a :: x then some b else find (short (c ++ d :: y) val) q := by
  rw [find_hang]
  by_cases hc : c <+: q
  · obtain ⟨r, rfl⟩ := hc
    rw [find_short_append, find_short_append_append]
    cases r with
    | nil => simp [find, fork]
    | cons e r =>
      rw [find_fork, find_hang, find_hang, find_leaf, find_short_cons_cons]
      by_cases hea : e = a
      · subst hea
        simp [had]
      · simp [hea]
  · have h1 : ¬ c ++ d :: y <+: q := fun h => hc ((prefix_append c _).trans h)
    have h2 : q ≠ c ++ a :: x := fun h => hc (h ▸ prefix_append c _)
    rw [find_short_eq_none _ hc, find_short_eq_none _ h1, if_neg h2]

theorem insert_spec (b : β) (h : t.Canonical) (hfits : t.Fits key) : (t.insert key b).Canonical ∧
      ∀ q, (t.insert key b).find q = if q = key then some b else t.find q := by
  induction t generalizing key with
  | nil =>
    cases key with
    | nil => exact ⟨trivial, fun q => by simp [insert, find]⟩
    | cons a key =>
      exact ⟨⟨by simp, trivial, trivial⟩, fun q => by simp [insert, find_leaf]⟩
  | value b' =>
    obtain rfl : key = [] := (hfits [] b' rfl (.inl nil_prefix)).symm
    exact ⟨trivial, fun q => by by_cases hq : q = [] <;> simp [insert, find, hq]⟩
  | short k val ih =>
    obtain ⟨c, x, y, rfl, rfl, -, hdiff⟩ := prefixLen_spec key k
    cases y with
    | nil =>
      rw [append_nil] at *
      obtain ⟨hcanonical, hfind⟩ := ih h.2.2 hfits.short
      rw [insert_short_append b h.1]
      exact ⟨⟨h.1, insert_solid h.2.1 x b, hcanonical⟩, find_short_update hfind⟩
    | cons d y =>
      cases x with
      | nil =>
        rw [append_nil] at *
        exact (hfits.not_prefix_short h (by simp) (prefix_append c _)).elim
      | cons a x =>
        have had : a ≠ d := hdiff a d x y rfl rfl
        rw [insert_short_split b had]
        refine ⟨canonical_hang (canonical_fork had.symm (canonical_hang h.2.2 h.2.1)
          (hang_ne_nil h.2.1.ne_nil) (canonical_hang trivial trivial) (hang_ne_nil (by simp)))
          trivial, find_insert_split b had⟩
  | full cs ih =>
    obtain ⟨a, key, rfl⟩ := exists_cons_of_ne_nil (hfits.ne_nil_of_full h)
    obtain ⟨hcanonical, hfind⟩ := ih a (h.2 a) hfits.full
    obtain ⟨⟨i, j, hij, hi, hj⟩, hall⟩ := h
    have hne := insert_ne_nil (cs a) key b
    exact ⟨⟨⟨i, j, hij, update_ne_nil a hne hi, update_ne_nil a hne hj⟩,
      canonical_update a hall hcanonical⟩, find_full_update hfind⟩

/-! ## Removal -/

variable {i : Fin n}

theorem soleIndex_eq_some {p : Fin n → Bool} : soleIndex p = some i ↔ ∀ j, p j = true ↔ j = i := by
  have hmem : ∀ j, j ∈ (List.finRange n).filter p ↔ p j = true := by
    simp
  have hnodup : ((List.finRange n).filter p).Nodup := (nodup_finRange n).filter _
  have hlist : soleIndex p = some i ↔ (List.finRange n).filter p = [i] := by
    unfold soleIndex
    split
    · rename_i j hj
      simp [hj]
    · rename_i hne
      simp only [reduceCtorEq, false_iff]
      exact hne i
  rw [hlist]
  constructor
  · intro h j
    rw [← hmem, h, mem_singleton]
  · intro h
    refine perm_singleton.mp ((perm_ext_iff_of_nodup hnodup (nodup_singleton i)).mpr ?_)
    intro j
    rw [hmem, h, mem_singleton]

theorem soleChild_eq_some : soleChild cs = some i ↔ ∀ j, cs j ≠ nil ↔ j = i := by
  simp [soleChild, soleIndex_eq_some]

theorem find_reduce (cs : Fin n → Radix n β) (q : List (Fin n)) :
    (reduce cs).find q = (full cs).find q := by
  unfold reduce
  split
  · rename_i i hsole
    rw [soleChild_eq_some] at hsole
    rw [find_prepend]
    cases q with
    | nil => simp [find]
    | cons e q =>
      rw [find_short_cons_cons, find_full_cons]
      split
      · rename_i he
        subst he
        simp [find]
      · rename_i he
        have : cs e = nil := by
          by_contra hne
          exact he ((hsole e).mp hne)
        rw [this, find_nil]
  · rfl

theorem reduce_ne_nil (cs : Fin n → Radix n β) : reduce cs ≠ nil := by
  unfold reduce
  split
  · exact prepend_ne_nil _ _
  · simp

theorem canonical_reduce (hall : ∀ a, (cs a).Canonical) (hi : cs i ≠ nil) :
    (reduce cs).Canonical := by
  unfold reduce
  split
  · rename_i j hsole
    exact canonical_prepend (by simp) (hall j) ((soleChild_eq_some.mp hsole j).mpr rfl)
  · rename_i hnone
    refine ⟨?_, hall⟩
    by_contra hfew
    push Not at hfew
    have hsole : soleChild cs = some i := by
      rw [soleChild_eq_some]
      intro j
      constructor
      · intro hj
        by_contra hji
        exact hj (hfew i j (Ne.symm hji) hi)
      · rintro rfl
        exact hi
    rw [hsole] at hnone
    cases hnone

theorem remove_full_ne_nil (h : (full cs).remove key = some t) : t ≠ nil := by
  cases key with
  | nil => simp [remove] at h
  | cons a key =>
    simp only [remove, Option.map_eq_some_iff] at h
    obtain ⟨child, -, rfl⟩ := h
    split
    · exact reduce_ne_nil _
    · simp

/-- Removal says whether the key was there, keeps trees canonical, and takes away the key only. -/
theorem remove_spec (h : t.Canonical) (hfits : t.Fits key) :
    (t.remove key = none → t.find key = none) ∧ ∀ t', t.remove key = some t' → t'.Canonical ∧
      ∀ q, t'.find q = if q = key then none else t.find q := by
  induction t generalizing key with
  | nil => exact ⟨fun _ => rfl, fun t' ht' => by simp [remove] at ht'⟩
  | value b =>
    obtain rfl : key = [] := (hfits [] b rfl (.inl nil_prefix)).symm
    refine ⟨fun hnone => by simp [remove] at hnone, fun t' ht' => ?_⟩
    obtain rfl : nil = t' := by simpa [remove] using ht'
    exact ⟨trivial, fun q => by by_cases hq : q = [] <;> simp [find, hq]⟩
  | short k val ih =>
    by_cases hk : k <+: key
    · obtain ⟨r, rfl⟩ := hk
      by_cases hr : r = []
      · -- The whole piece matches, and by fitting it is the only key here.
        subst hr
        refine ⟨fun hnone => by simp [remove] at hnone, fun t' ht' => ?_⟩
        obtain rfl : nil = t' := by simpa [remove] using ht'
        refine ⟨trivial, fun q => ?_⟩
        rw [append_nil] at *
        split
        · rfl
        · rename_i hq
          rw [find_nil]
          cases hfound : (short k val).find q with
          | none => rfl
          | some b =>
            obtain ⟨r', rfl, -⟩ := find_short_eq_some.mp hfound
            exact absurd (hfits _ b hfound (.inr (prefix_append k r'))) hq
      · obtain ⟨hnone, hsome⟩ := ih h.2.2 hfits.short
        have hremove : (short k val).remove (k ++ r) = (val.remove r).map (prepend k) := by
          simp [remove, hr]
        rw [hremove]
        refine ⟨fun h => ?_, fun t' ht' => ?_⟩
        · rw [find_short_append]
          exact hnone (Option.map_eq_none_iff.mp h)
        · obtain ⟨child, hchild, rfl⟩ := Option.map_eq_some_iff.mp ht'
          obtain ⟨hcanonical, hfind⟩ := hsome child hchild
          have hne : child ≠ nil := by
            have hsolid := h.2.1
            cases val with
            | nil => exact hsolid.elim
            | value b => exact absurd (hfits.short [] b rfl (.inl nil_prefix)).symm hr
            | short _ _ => exact hsolid.elim
            | full _ => exact remove_full_ne_nil hchild
          refine ⟨canonical_prepend h.1 hcanonical hne, fun q => ?_⟩
          rw [find_prepend, find_short_update hfind]
    · refine ⟨fun _ => find_short_eq_none val hk, fun t' ht' => ?_⟩
      simp [remove, hk] at ht'
  | full cs ih =>
    obtain ⟨a, key, rfl⟩ := exists_cons_of_ne_nil (hfits.ne_nil_of_full h)
    obtain ⟨hnone, hsome⟩ := ih a (h.2 a) hfits.full
    refine ⟨fun h => hnone (Option.map_eq_none_iff.mp h), fun t' ht' => ?_⟩
    obtain ⟨child, hchild, rfl⟩ := Option.map_eq_some_iff.mp ht'
    obtain ⟨hcanonical, hfind⟩ := hsome child hchild
    obtain ⟨⟨i, j, hij, hi, hj⟩, hall⟩ := h
    have hall' := canonical_update a hall hcanonical
    split
    · -- Another child than the one that is gone is left.
      have hleft : ∃ e, update cs a child e ≠ nil := by
        by_cases hia : i = a
        · exact ⟨j, by rwa [update_of_ne (hia ▸ hij.symm)]⟩
        · exact ⟨i, by rwa [update_of_ne hia]⟩
      obtain ⟨e, he⟩ := hleft
      refine ⟨canonical_reduce hall' he, fun q => ?_⟩
      rw [find_reduce, find_full_update hfind]
    · rename_i hchild'
      have hne : child ≠ nil := fun h => hchild' (isNil_eq_true.mpr h)
      exact ⟨⟨⟨i, j, hij, update_ne_nil a hne hi, update_ne_nil a hne hj⟩, hall'⟩,
        find_full_update hfind⟩

theorem delete_spec (h : t.Canonical) (hfits : t.Fits key) : (t.delete key).Canonical ∧
      ∀ q, (t.delete key).find q = if q = key then none else t.find q := by
  obtain ⟨hnone, hsome⟩ := remove_spec h hfits
  unfold delete
  cases hremove : t.remove key with
  | some t' => exact hsome t' hremove
  | none =>
    refine ⟨h, fun q => ?_⟩
    split
    · rename_i hq
      exact hq ▸ hnone hremove
    · rfl

end Radix
