import ChilizChain.Codec.EncBuffer
import ChilizChain.Codec.Stream

/-! # Decoding into interface values

`DecodeBytes` into an `interface{}` gives a tree of byte strings and lists. A list is decoded
element by element until the element decoder meets the end of the list, so a decoder of lists is
built from any decoder of elements. Both directions are proved at that generality: what is decoded
was read in its canonical form (`Sound`), and the canonical form is decoded (`Complete`). -/

namespace ChilizChain.Codec

open Bytes Stateful Rlp List Codec.Stream Raises

/-! ## Model -/

section model

variable {α : Type}

/-- The elements up to the end of the list. -/
def decodeSliceElems (elemdec : StreamM α) : ℕ → StreamM (List α)
  | 0 => throw .outOfFuel
  | fuel + 1 => do
    match ← attempt elemdec with
    | .error .eol => return []
    | .error e => throw e
    | .ok a => return a :: (← decodeSliceElems elemdec fuel)

def decodeListSlice (elemdec : StreamM α) (fuel : ℕ) : StreamM (List α) := do
  let size ← list
  if size = 0 then
    listEnd
    return []
  else
    let as ← decodeSliceElems elemdec fuel
    listEnd
    return as

end model

def decodeInterface : ℕ → StreamM Item
  | 0 => throw .outOfFuel
  | fuel + 1 => do
    let ahead ← kind
    if ahead.1 = .list then return .list (← decodeListSlice (decodeInterface fuel) fuel)
    else return .string (← bytes)

/-- `DecodeBytes` into an `interface{}`. Nesting and number of elements are bounded by the length
of the input. -/
def decodeBytes (b : Bytes) : Except StreamError Item :=
  match exec (decodeInterface (b.length + 2)) (reset b b.length false) with
  | (.error e, _) => .error e
  | (.ok v, s) => if 0 < s.r.length then .error .moreThanOneValue else .ok v

/-! ## Lists -/

variable {s s' : Stream}

theorem Moved.limit_lt {bs : Bytes} (h : Moved s s' bs) :
    ∀ limit ∈ s'.stack.head?, limit < 2 ^ 64 := by
  rw [h.stack]
  cases s.stack with
  | nil => simp [lower]
  | cons limit outer =>
    simp only [lower, head?_cons, Option.mem_some_iff, forall_eq', sub64]
    omega

theorem Consumed.refl (harmed : s.kind = none) (hlt : ∀ limit ∈ s.stack.head?, limit < 2 ^ 64) :
    Consumed s s [] where
  input := rfl
  stack := by
    cases hs : s.stack with
    | nil => rfl
    | cons limit outer =>
      have := hlt limit (by simp [hs])
      simp [lower, sub64_of_le (Nat.zero_le _) this]
  limited := rfl
  remaining _ := by simp
  armed := harmed

theorem Consumed.trans {s'' : Stream} {a b : Bytes} (h : Consumed s s' a) (h' : Consumed s' s'' b) :
    Consumed s s'' (a ++ b) :=
  ⟨h.toMoved.trans h'.toMoved, h'.armed⟩

/-- The stream inside of a list. -/
def Stream.enter (s : Stream) (size : ℕ) : Stream :=
  { s with stack := size :: lower s.stack size, kind := none, size := 0 }

/-- The stream after the end of a list. -/
def Stream.leave (s : Stream) : Stream :=
  { s with stack := s.stack.tail, kind := none, size := 0 }

variable {size : ℕ}

/-- A list that is read to its end: the size in its head is the number of bytes read, because
fewer than `2 ^ 64` bytes cannot make the limit wrap around. -/
theorem consumed_list {s₀ : Stream} {payload : Bytes} (hsize : size < 2 ^ 64)
    (hlen : payload.length < 2 ^ 64) (hhead : Moved s₀ s (encodeHead 0xC0 0xF7 size))
    (hbody : Consumed (s.enter size) s' payload) (hend : s'.stack.head? = some 0) :
    payload.length = size ∧ Consumed s₀ s'.leave (encodeList payload) := by
  have hstack : s'.stack = sub64 size payload.length :: lower s.stack size := hbody.stack
  have heq : payload.length = size := by
    rw [hstack] at hend
    exact sub64_eq_zero hsize hlen (Option.some.inj hend)
  refine ⟨heq, ⟨?_, ?_, ?_, ?_⟩, rfl⟩
  · rw [hhead.input, encodeList, heq, append_assoc]
    exact congrArg _ hbody.input
  · rw [leave, hstack, tail_cons, hhead.stack, lower_lower, encodeList, heq,
      length_append, heq]
  · exact hbody.limited.trans hhead.limited
  · intro hl
    have h1 := hhead.remaining hl
    have h2 : s.remaining = payload.length + s'.remaining :=
      hbody.remaining (hhead.limited.trans hl)
    rw [encodeList, heq, length_append]
    simp only [leave]
    omega

section elements

variable {α : Type} {R : α → Bytes → Prop} {dec : StreamM α}

/-- What the decoder returns was read in the form that `R` gives it, and it reports the end of
the list only there. -/
structure Sound (dec : StreamM α) (R : α → Bytes → Prop) : Prop where
  value : ∀ s a s', s.kind = none → s.r.length < 2 ^ 63 → exec dec s = (.ok a, s') →
    ∃ bs, R a bs ∧ Consumed s s' bs
  eol : ∀ s s', s.kind = none → exec dec s = (.error .eol, s') → s' = s ∧ s.stack.head? = some 0

/-- The decoder reads every form shorter than `n` that `R` allows, and reports the end of the
list. -/
structure Complete (dec : StreamM α) (R : α → Bytes → Prop) (n : ℕ) : Prop where
  value : ∀ s a bs rest, s.kind = none → R a bs → bs.length < n → s.r = bs ++ rest →
    Room s bs.length → (∀ limit ∈ s.stack.head?, limit < 2 ^ 64) →
    ∃ s', exec dec s = (.ok a, s') ∧ Consumed s s' bs
  eol : ∀ s, s.kind = none → s.stack.head? = some 0 → exec dec s = (.error .eol, s)

variable {fuel : ℕ} {s s' : Stream}

theorem elems_eol (h : exec dec s = (.error .eol, s')) :
    exec (decodeSliceElems dec (fuel + 1)) s = (.ok [], s') := by
  rw [decodeSliceElems, exec_bind, exec_attempt, h]
  rfl

theorem elems_error {e : StreamError} (he : e ≠ .eol) (h : exec dec s = (.error e, s')) :
    exec (decodeSliceElems dec (fuel + 1)) s = (.error e, s') := by
  rw [decodeSliceElems, exec_bind, exec_attempt, h]
  cases e <;> first | exact absurd rfl he | rfl

theorem elems_ok {a : α} (h : exec dec s = (.ok a, s')) :
    exec (decodeSliceElems dec (fuel + 1)) s =
      exec (do return a :: (← decodeSliceElems dec fuel)) s' := by
  rw [decodeSliceElems, exec_bind, exec_attempt, h]

theorem decodeSliceElems_sound (hdec : Sound dec R) {as : List α} (harmed : s.kind = none)
    (hlt : ∀ limit ∈ s.stack.head?, limit < 2 ^ 64) (hlen : s.r.length < 2 ^ 63)
    (h : exec (decodeSliceElems dec fuel) s = (.ok as, s')) :
    ∃ bss, List.Forall₂ R as bss ∧ Consumed s s' bss.flatten ∧ s'.stack.head? = some 0 := by
  induction fuel generalizing s as with
  | zero => simp [decodeSliceElems] at h
  | succ fuel ih =>
    rcases hexec : exec dec s with ⟨e | a, s₁⟩
    · by_cases he : e = .eol
      · subst he
        obtain ⟨rfl, hend⟩ := hdec.eol s s₁ harmed hexec
        rw [elems_eol hexec] at h
        obtain ⟨rfl, rfl⟩ := ok_inj h
        exact ⟨[], .nil, .refl harmed hlt, hend⟩
      · rw [elems_error he hexec] at h
        cases h
    · rw [elems_ok hexec] at h
      obtain ⟨bs, hR, hfirst⟩ := hdec.value s a s₁ harmed hlen hexec
      obtain ⟨rest, s₂, hrest, hpure⟩ := exec_bind_eq_ok h
      obtain ⟨rfl, rfl⟩ := ok_inj hpure
      have hlen₁ : s₁.r.length < 2 ^ 63 := by
        have := congrArg List.length hfirst.input
        rw [length_append] at this
        omega
      obtain ⟨bss, hRs, hmore, hend⟩ := ih hfirst.armed hfirst.limit_lt hlen₁ hrest
      exact ⟨bs :: bss, .cons hR hRs, hfirst.trans hmore, hend⟩

theorem decodeSliceElems_complete {n : ℕ} (hdec : Complete dec R n) {as : List α} {bss : List Bytes}
    {rest : Bytes} (hRs : List.Forall₂ R as bss) (hshort : ∀ bs ∈ bss, bs.length < n)
    (hfuel : as.length < fuel) (harmed : s.kind = none) (hr : s.r = bss.flatten ++ rest)
    (hend : s.stack.head? = some bss.flatten.length) (hlt : bss.flatten.length < 2 ^ 64)
    (hroom : Room s bss.flatten.length) :
    ∃ s', exec (decodeSliceElems dec fuel) s = (.ok as, s') ∧ Consumed s s' bss.flatten ∧
      s'.stack.head? = some 0 := by
  have hlim : ∀ limit ∈ s.stack.head?, limit < 2 ^ 64 := by
    intro limit h
    rw [hend] at h
    obtain rfl := Option.some.inj h
    exact hlt
  induction hRs generalizing s fuel with
  | nil =>
    obtain ⟨fuel, rfl⟩ : ∃ k, fuel = k + 1 := ⟨fuel - 1, by omega⟩
    exact ⟨s, elems_eol (hdec.eol s harmed hend), .refl harmed hlim, hend⟩
  | @cons a bs as bss hR hRs ih =>
    obtain ⟨fuel, rfl⟩ : ∃ k, fuel = k + 1 := ⟨fuel - 1, by omega⟩
    rw [flatten_cons] at hr hend hroom hlt ⊢
    rw [append_assoc] at hr
    rw [length_append] at hroom hend hlt
    obtain ⟨s₁, hexec, hfirst⟩ := hdec.value s a bs _ harmed hR (hshort bs (by simp)) hr
      (hroom.mono (by omega)) hlim
    have hr₁ := append_cancel_left (hfirst.input.symm.trans hr)
    have hroom₁ : Room s₁ bss.flatten.length := .of_moved hfirst.toMoved hroom hlim
    have hend₁ : s₁.stack.head? = some bss.flatten.length := by
      obtain ⟨outer, hs⟩ := head?_eq_some_iff.mp hend
      rw [hfirst.stack, hs, lower, head?_cons, sub64_of_le (by omega) hlt,
        Nat.add_sub_cancel_left]
    obtain ⟨s₂, hmore, hconsumed, hzero⟩ := ih (fun b hb => hshort b (by simp [hb]))
      (by simpa using hfuel) hfirst.armed hr₁ hend₁ (by omega) hroom₁ hfirst.limit_lt
    refine ⟨s₂, ?_, hfirst.trans hconsumed, hzero⟩
    rw [elems_ok hexec, exec_bind_ok hmore, exec_pure]

theorem decodeSliceElems_raises (fuel : ℕ) : Raises (· ≠ .eol) (decodeSliceElems dec fuel) := by
  induction fuel with
  | zero => exact .throw (by simp)
  | succ fuel ih =>
    intro s e s' h
    rcases hexec : exec dec s with ⟨e' | a, s₁⟩
    · by_cases he : e' = .eol
      · subst he
        rw [elems_eol hexec] at h
        cases h
      · rw [elems_error he hexec] at h
        exact Except.error.inj (Prod.mk.inj h).1 ▸ he
    · rw [elems_ok hexec] at h
      exact bind ih (fun _ => .pure _) _ _ _ h

end elements

/-! ## Lists of elements -/

section lists

variable {α : Type} {R : α → Bytes → Prop} {dec : StreamM α}

theorem elements_sound (hdec : Sound dec R) {fuel size : ℕ} {s₀ s s' s'' : Stream} {as : List α}
    {u : Unit} (hlen : s₀.r.length < 2 ^ 63) (hsize : size < 2 ^ 64)
    (hhead : Moved s₀ s (encodeHead 0xC0 0xF7 size))
    (helems : exec (decodeSliceElems dec fuel) (s.enter size) = (.ok as, s'))
    (hend : exec listEnd s' = (.ok u, s'')) :
    ∃ bss, List.Forall₂ R as bss ∧ bss.flatten.length = size ∧
      Consumed s₀ s'' (encodeList bss.flatten) := by
  have hlen' : (s.enter size).r.length < 2 ^ 63 := by
    have := congrArg List.length hhead.input
    rw [length_append] at this
    change s.r.length < 2 ^ 63
    omega
  obtain ⟨bss, hRs, hbody, hzero⟩ :=
    decodeSliceElems_sound hdec rfl (by simpa [enter] using hsize) hlen' helems
  obtain ⟨-, rfl⟩ := listEnd_eq_ok hend
  have hpayload : bss.flatten.length < 2 ^ 63 := by
    have := congrArg List.length hbody.input
    rw [length_append] at this
    omega
  obtain ⟨heq, hconsumed⟩ := consumed_list hsize (by omega) hhead hbody hzero
  exact ⟨bss, hRs, heq, hconsumed⟩

theorem elements_complete {n : ℕ} (hdec : Complete dec R n) {fuel : ℕ} {s : Stream} {as : List α}
    {bss : List Bytes} {rest : Bytes} (hRs : List.Forall₂ R as bss)
    (hpos : ∀ a bs, R a bs → 0 < bs.length) (hn : bss.flatten.length < n)
    (hfuel : bss.flatten.length < fuel) (harmed : s.kind = none)
    (hr : s.r = encodeList bss.flatten ++ rest) (hlen : bss.flatten.length < 2 ^ 64)
    (hroom : Room s (encodeList bss.flatten).length)
    (hlt : ∀ limit ∈ s.stack.head?, limit < 2 ^ 64) :
    ∃ s₁ s₂ s₃, exec kind s = (.ok (.list, bss.flatten.length), s₁) ∧
      Ahead s₁ .list bss.flatten.length ∧
      exec (decodeSliceElems dec fuel) (s₁.enter bss.flatten.length) = (.ok as, s₂) ∧
      exec listEnd s₂ = (.ok ⟨⟩, s₃) ∧ Consumed s s₃ (encodeList bss.flatten) := by
  rw [encodeList, append_assoc] at hr
  have hroom' := hroom
  rw [encodeList, length_append] at hroom'
  obtain ⟨s₁, hkind, hmoved, hahead, -⟩ :=
    kind_ok harmed (.sized .list hlen) hr hroom' hlt
  have hr₁ := append_cancel_left (hmoved.input.symm.trans hr)
  have hroom₁ : Room s₁ bss.flatten.length := .of_moved hmoved hroom' hlt
  have hshort : ∀ bs ∈ bss, bs.length < n := fun bs hbs =>
    (sublist_flatten_of_mem hbs).length_le.trans_lt hn
  have hcount : as.length ≤ bss.flatten.length := by
    clear * - hRs hpos
    induction hRs with
    | nil => simp
    | cons hR _ ih =>
      have := hpos _ _ hR
      simp only [length_cons, flatten_cons, length_append]
      omega
  have hr₂ : (s₁.enter bss.flatten.length).r = bss.flatten ++ rest := hr₁
  have hroom₂ : Room (s₁.enter bss.flatten.length) bss.flatten.length :=
    ⟨by simp [enter], hroom₁.remaining⟩
  obtain ⟨s₂, helems, hbody, hzero⟩ := decodeSliceElems_complete hdec hRs hshort
    (hcount.trans_lt hfuel) rfl hr₂ rfl hlen hroom₂
  exact ⟨s₁, s₂, _, hkind, hahead, helems, listEnd_ok hzero,
    (consumed_list hlen hlen hmoved hbody hzero).2⟩

end lists

/-! ## Interface values -/

/-- The canonical form of a value. -/
def Form (v : Item) (bs : Bytes) : Prop := bs = encodeItem v

variable {items : List Item}

theorem flatten_of_forms {bss : List Bytes} (h : List.Forall₂ Form items bss) :
    bss.flatten = encodeItems items := by
  induction h with
  | nil => rw [encodeItems]; rfl
  | cons hform _ ih => rw [flatten_cons, ih, hform, encodeItems]

theorem forms (items : List Item) : List.Forall₂ Form items (items.map encodeItem) := by
  induction items with
  | nil => exact .nil
  | cons item items ih => exact .cons rfl ih

theorem listEnd_raises : Raises (· ≠ .eol) listEnd := by
  refine .bind (.bind .get fun _ => .pure _) fun limit => ?_
  cases limit with
  | none => exact .throw (by simp)
  | some limit =>
    by_cases h : 0 < limit
    · simp only [if_pos h]
      exact .throw (by simp)
    · simp only [if_neg h]
      exact .update _

variable {e : StreamError}

theorem ReadError.ne_eol (h : ReadError e) : e ≠ .eol := by
  rcases h with rfl | rfl | rfl | rfl <;> simp

theorem bytes_ne_eol {k : Kind} (hahead : Ahead s k size) (h : exec bytes s = (.error e, s')) :
    e ≠ .eol := by
  rw [bytes, exec_bind_ok (kind_ahead hahead)] at h
  cases k with
  | byte =>
    simp only [rearm, exec_bind, exec_get, exec_modify, exec_pure] at h
    cases h
  | list =>
    simp only [exec_throw, Prod.mk.injEq, Except.error.injEq] at h
    simp [← h.1]
  | string =>
    have hread : Raises (· ≠ .eol) (readFull size) := fun _ _ _ h =>
      (readFull_raises size _ _ _ h).ne_eol
    refine bind hread (fun b => ?_) _ _ _ h
    split_ifs
    · exact .throw (by simp)
    · exact .pure _

variable {dec : StreamM Item} {fuel : ℕ}

theorem decodeListSlice_ne_eol (hahead : Ahead s .list size)
    (h : exec (decodeListSlice dec fuel) s = (.error e, s')) : e ≠ .eol := by
  rw [decodeListSlice, exec_bind_ok (list_ahead hahead)] at h
  split_ifs at h
  · exact bind listEnd_raises (fun _ => .pure _) _ _ _ h
  · exact bind (decodeSliceElems_raises fuel)
      (fun _ => .bind listEnd_raises fun _ => .pure _) _ _ _ h

theorem decodeListSlice_sound (hdec : Sound dec Form) {s₀ : Stream} {hd : Bytes}
    (hlen : s₀.r.length < 2 ^ 63) (hhead : Head .list size s.byteval hd) (hmoved : Moved s₀ s hd)
    (hahead : Ahead s .list size) (h : exec (decodeListSlice dec fuel) s = (.ok items, s')) :
    Consumed s₀ s' (encodeItem (.list items)) := by
  generalize s.byteval = v at hhead
  cases hhead with
  | sized htags hsize =>
    cases htags
    rw [encodeItem]
    rw [decodeListSlice, exec_bind_ok (list_ahead hahead)] at h
    split_ifs at h with hzero
    · -- an empty list is left at once
      obtain ⟨⟨⟩, s₁, hend, hpure⟩ := exec_bind_eq_ok h
      obtain ⟨rfl, rfl⟩ := ok_inj hpure
      obtain ⟨hstack, rfl⟩ := listEnd_eq_ok hend
      subst hzero
      have hempty : Consumed (s.enter 0) (s.enter 0) [] := .refl rfl (by simp [enter])
      rw [encodeItems]
      exact (consumed_list (by decide) (by decide) hmoved hempty hstack).2
    · obtain ⟨as, s₁, helems, hrest⟩ := exec_bind_eq_ok h
      obtain ⟨⟨⟩, s₂, hend, hpure⟩ := exec_bind_eq_ok hrest
      obtain ⟨rfl, rfl⟩ := ok_inj hpure
      obtain ⟨bss, hforms, -, hconsumed⟩ :=
        elements_sound hdec hlen hsize hmoved helems hend
      rwa [flatten_of_forms hforms] at hconsumed

theorem decodeInterface_sound (fuel : ℕ) : Sound (decodeInterface fuel) Form := by
  induction fuel with
  | zero => exact ⟨fun _ _ _ _ _ h => by simp [decodeInterface] at h,
      fun _ _ _ h => by simp [decodeInterface] at h⟩
  | succ fuel ih =>
    constructor
    · intro s v s' harmed hlen h
      obtain ⟨⟨k, size⟩, s₁, hkind, hrest⟩ := exec_bind_eq_ok h
      obtain ⟨hd, hhead, hmoved, hahead⟩ := kind_eq_ok harmed hkind
      split_ifs at hrest with hk
      · obtain rfl : k = .list := hk
        obtain ⟨items, s₂, hlist, hpure⟩ := exec_bind_eq_ok hrest
        obtain ⟨rfl, rfl⟩ := ok_inj hpure
        exact ⟨_, rfl, decodeListSlice_sound ih hlen hhead hmoved hahead hlist⟩
      · obtain ⟨content, s₂, hbytes, hpure⟩ := exec_bind_eq_ok hrest
        obtain ⟨rfl, rfl⟩ := ok_inj hpure
        obtain ⟨-, hconsumed⟩ := bytes_eq_ok hmoved hahead hhead hbytes
        exact ⟨_, by rw [Form, encodeItem], hconsumed⟩
    · intro s s' harmed h
      rcases exec_bind_eq_error h with hkind | ⟨⟨k, size⟩, s₁, hkind, h⟩
      · exact kind_eq_eol harmed hkind
      · -- after the head no step ends in `EOL`
        obtain ⟨hd, hhead, hmoved, hahead⟩ := kind_eq_ok harmed hkind
        split_ifs at h with hk
        · subst hk
          exact absurd rfl (decodeListSlice_ne_eol hahead (exec_bind_pure_eq_error h))
        · exact absurd rfl (bytes_ne_eol hahead (exec_bind_pure_eq_error h))

theorem length_le_encodeBytes (content : Bytes) :
    content.length ≤ (encodeBytes content).length := by
  rw [encodeBytes]
  split
  · exact le_rfl
  · simp

theorem length_lt_encodeList (payload : Bytes) : payload.length < (encodeList payload).length := by
  have := encodeHead_length_pos 0xC0 0xF7 payload.length
  rw [encodeList, length_append]
  omega

theorem decodeListSlice_complete {n : ℕ} (hdec : Complete dec Form n) {rest : Bytes}
    (hn : (encodeItems items).length < n) (hfuel : (encodeItems items).length < fuel)
    (harmed : s.kind = none) (hr : s.r = encodeItem (.list items) ++ rest)
    (hlen : (encodeItems items).length < 2 ^ 64) (hroom : Room s (encodeItem (.list items)).length)
    (hlt : ∀ limit ∈ s.stack.head?, limit < 2 ^ 64) :
    ∃ size s₁ s', exec kind s = (.ok (.list, size), s₁) ∧
      exec (decodeListSlice dec fuel) s₁ = (.ok items, s') ∧
      Consumed s s' (encodeItem (.list items)) := by
  have hflat := flatten_of_forms (forms items)
  rw [encodeItem, ← hflat] at hr hroom ⊢
  rw [← hflat] at hn hfuel hlen
  obtain ⟨s₁, s₂, s₃, hkind, hahead, helems, hend, hconsumed⟩ :=
    elements_complete hdec (forms items) (fun v bs h => h ▸ encodeItem_length_pos v) hn hfuel harmed
      hr hlen hroom hlt
  refine ⟨_, s₁, s₃, hkind, ?_, hconsumed⟩
  rw [decodeListSlice, exec_bind_ok (list_ahead hahead)]
  split_ifs with hzero
  · -- the loop would end before its first element
    rw [hzero] at helems ⊢
    obtain ⟨fuel, rfl⟩ : ∃ k, fuel = k + 1 := ⟨fuel - 1, by omega⟩
    rw [elems_eol (hdec.eol _ rfl rfl)] at helems
    obtain ⟨rfl, rfl⟩ := ok_inj helems
    exact (exec_bind_ok hend).trans (exec_pure _ _)
  · exact (exec_bind_ok helems).trans ((exec_bind_ok hend).trans (exec_pure _ _))

theorem decodeInterface_complete (hpos : 0 < fuel) (hfuel : fuel ≤ 2 ^ 64) :
    Complete (decodeInterface fuel) Form fuel := by
  induction fuel with
  | zero => exact absurd hpos (by simp)
  | succ fuel ih =>
    constructor
    · rintro s v bs rest harmed rfl hlen hr hroom hlt
      cases v with
      | string content =>
        rw [encodeItem] at hlen hr hroom ⊢
        have hle := length_le_encodeBytes content
        obtain ⟨size, s₁, s', hkind, hbytes, hconsumed⟩ :=
          bytes_ok harmed hr (by omega) hroom hlt
        refine ⟨s', ?_, hconsumed⟩
        rw [decodeInterface, exec_bind_ok hkind, if_neg (leafKind_ne_list content),
          exec_bind_ok hbytes, exec_pure]
      | list items =>
        have hlt' := length_lt_encodeList (encodeItems items)
        rw [← encodeItem] at hlt'
        have hpayload : (encodeItems items).length < fuel := by omega
        obtain ⟨size, s₁, s', hkind, hlist, hconsumed⟩ :=
          decodeListSlice_complete (ih (by omega) (by omega)) hpayload hpayload harmed hr
            (by omega) hroom hlt
        refine ⟨s', ?_, hconsumed⟩
        rw [decodeInterface, exec_bind_ok hkind, if_pos rfl, exec_bind_ok hlist, exec_pure]
    · intro s harmed hend
      rw [decodeInterface, exec_bind_error (kind_eol harmed hend)]

/-! ## Whole inputs -/

theorem decodeBytes_sound {b : Bytes} {v : Item} (hlen : b.length < 2 ^ 63)
    (h : decodeBytes b = .ok v) : encodeItem v = b := by
  rw [decodeBytes] at h
  rcases hexec : exec (decodeInterface (b.length + 2)) (reset b b.length false) with ⟨e | v', s⟩
  · simp [hexec] at h
  simp only [hexec] at h
  split_ifs at h with hmore
  obtain rfl := Except.ok.inj h
  obtain ⟨bs, rfl, hconsumed⟩ := (decodeInterface_sound _).value _ _ _ rfl hlen hexec
  have hinput : b = encodeItem v' ++ s.r := hconsumed.input
  rw [length_eq_zero_iff.mp (Nat.eq_zero_of_not_pos hmore), append_nil] at hinput
  exact hinput.symm

theorem decodeBytes_encodeItem {v : Item} (hlen : (encodeItem v).length < 2 ^ 63) :
    decodeBytes (encodeItem v) = .ok v := by
  have hpos := encodeItem_length_pos v
  have hroom : Room (reset (encodeItem v) (encodeItem v).length false) (encodeItem v).length :=
    ⟨by simp [reset], fun _ => by simp [reset, hpos]⟩
  have hcomplete : Complete (decodeInterface ((encodeItem v).length + 2)) Form _ :=
    decodeInterface_complete (by omega) (by omega)
  obtain ⟨s, hexec, hconsumed⟩ := hcomplete.value _ v _ [] rfl rfl (by omega)
    (append_nil _).symm hroom (by simp [reset])
  have hempty : s.r = [] := by
    have hinput : encodeItem v = encodeItem v ++ s.r := hconsumed.input
    simpa using hinput
  simp [decodeBytes, hexec, hempty]

/-- Encoding and decoding are inverse to each other: a value whose encoding fits into a slice is
decoded from it, and an input that is decoded is the encoding of its value, so that no two inputs
give the same value. -/
theorem rlp_canonical (v : Item) (b b' : Bytes) :
    ((encodeToBytes v).length < 2 ^ 63 → decodeBytes (encodeToBytes v) = .ok v) ∧
      (b.length < 2 ^ 63 → decodeBytes b = .ok v →
        encodeToBytes v = b ∧ (b'.length < 2 ^ 63 → decodeBytes b' = .ok v → b' = b)) := by
  rw [encodeToBytes_eq]
  refine ⟨decodeBytes_encodeItem, fun hlen h => ?_⟩
  have hb := decodeBytes_sound hlen h
  refine ⟨hb, fun hlen' h' => ?_⟩
  rw [← hb, decodeBytes_sound hlen' h']

/-- A list that holds the string of one zero byte and an empty list. -/
theorem rlp_canonical_nested :
    let v := Item.list [.string [0], .list []]
    encodeToBytes v = [0xC2, 0x00, 0xC0] ∧ decodeBytes [0xC2, 0x00, 0xC0] = .ok v := by
  have henc : encodeToBytes (.list [.string [0], .list []]) = [0xC2, 0x00, 0xC0] := by decide
  have h := rlp_canonical (.list [.string [0], .list []]) [0xC2, 0x00, 0xC0] []
  rw [henc] at h
  have hdec := h.1 (by decide)
  exact ⟨henc.trans (h.2 (by decide) hdec).1, hdec⟩

end ChilizChain.Codec
