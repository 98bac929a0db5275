import Mathlib

/-! Byte strings as the consensus and virtual-machine code handles them: slices,
fixed-width values (addresses, hashes, keys) ordered as `bytes.Compare` orders
them, fixed-width little-endian words and minimal big-endian numbers. -/

abbrev Bytes := List UInt8

namespace Bytes

open List

/-! ## Slices -/

/-- `bs[start:stop]`, total: positions past the end are ignored. -/
def slice (bs : Bytes) (start stop : ℕ) : Bytes := (bs.take stop).drop start

theorem slice_length (bs : Bytes) (start stop : ℕ) :
    (slice bs start stop).length = min stop bs.length - start := by
  simp [slice]

variable {start stop : ℕ}

theorem slice_append_right (as bs : Bytes) (h : as.length ≤ start) :
    slice (as ++ bs) start stop = slice bs (start - as.length) (stop - as.length) := by
  simp only [slice, take_append, drop_append, length_take]
  by_cases hs : as.length ≤ stop
  · rw [drop_eq_nil_of_le (by simp; omega), Nat.min_eq_right hs, nil_append]
  · have h0 : stop - as.length = 0 := by omega
    simp only [h0, take_zero, drop_nil, append_nil]
    exact drop_eq_nil_of_le (by simp; omega)

theorem slice_append_left (as bs : Bytes) (h : stop ≤ as.length) :
    slice (as ++ bs) start stop = slice as start stop := by
  simp [slice, take_append_of_le_length h]

variable (bs : Bytes)

theorem slice_all (h : bs.length ≤ stop) : slice bs 0 stop = bs := by
  simp [slice, take_of_length_le h]

theorem slice_middle (as bs cs : Bytes) (hs : start = as.length)
    (he : stop = as.length + bs.length) :
    slice (as ++ (bs ++ cs)) start stop = bs := by
  subst hs he
  rw [slice_append_right _ _ (Nat.le_refl _), Nat.sub_self, Nat.add_sub_cancel_left,
    slice_append_left _ _ (Nat.le_refl _), slice_all _ (Nat.le_refl _)]

theorem slice_slice {a b c d : ℕ} (h : a + d ≤ b) :
    slice (slice bs a b) c d = slice bs (a + c) (a + d) := by
  simp only [slice, take_drop, drop_drop, take_take]
  rw [Nat.min_eq_left (by omega)]

theorem slice_flatMap {α : Type} {f : α → Bytes} {k : ℕ} (hf : ∀ a, (f a).length = k) :
    ∀ (as : List α) (i : ℕ) (h : i < as.length),
      slice (as.flatMap f) (i * k) ((i + 1) * k) = f as[i]
  | a :: as, 0, _ => by
    rw [flatMap_cons, slice_append_left _ _ (by simp [hf]), Nat.zero_mul,
      slice_all _ (by simp [hf])]
    rfl
  | a :: as, i + 1, h => by
    have hstart : k ≤ (i + 1) * k := Nat.le_mul_of_pos_left k (Nat.succ_pos i)
    have hs : (i + 1) * k - k = i * k := by rw [Nat.add_mul, Nat.one_mul, Nat.add_sub_cancel]
    have he : (i + 1 + 1) * k - k = (i + 1) * k := by
      rw [Nat.add_mul (i + 1), Nat.one_mul, Nat.add_sub_cancel]
    rw [flatMap_cons, slice_append_right _ _ (by rw [hf]; exact hstart), hf, hs, he,
      slice_flatMap hf as i (by simpa using h)]
    rfl

theorem map_range_eq_map {α β : Type} {as : List α} {f : ℕ → β} {g : α → β}
    (h : ∀ i (hi : i < as.length), f i = g as[i]) : (List.range as.length).map f = as.map g := by
  apply ext_getElem
  · simp
  · intro i hi _
    have hi' : i < as.length := by simpa using hi
    simp [h i hi']

theorem flatMap_length {α : Type} {f : α → Bytes} {k : ℕ} (hf : ∀ a, (f a).length = k)
    (as : List α) : (as.flatMap f).length = as.length * k := by
  induction as with
  | nil => simp
  | cons a as ih =>
    rw [flatMap_cons, length_append, ih, hf, length_cons, Nat.add_mul]
    omega

/-! ## Fixed-width words -/

/-- The low `w` bytes of `n`, least significant first (`binary.LittleEndian.PutUint64` at
`w = 8`). -/
def leBytes : ℕ → ℕ → Bytes
  | 0, _ => []
  | w + 1, n => UInt8.ofNat n :: leBytes w (n / 256)

def leNat : ℕ := Nat.ofDigits 256 (bs.map UInt8.toNat)

@[simp] theorem leBytes_length (w n : ℕ) : (leBytes w n).length = w := by
  induction w generalizing n with
  | zero => rfl
  | succ w ih => simp [leBytes, ih]

theorem leNat_leBytes (w n : ℕ) (h : n < 256 ^ w) : leNat (leBytes w n) = n := by
  induction w generalizing n with
  | zero =>
    simp only [pow_zero, Nat.lt_one_iff] at h
    subst h
    rfl
  | succ w ih =>
    have hd : n / 256 < 256 ^ w := by
      rw [Nat.div_lt_iff_lt_mul (by decide), ← pow_succ]
      exact h
    have hrest := ih (n / 256) hd
    simp only [leNat] at hrest
    simp only [leNat, leBytes, map_cons, Nat.ofDigits_cons, hrest, UInt8.toNat_ofNat']
    exact Nat.mod_add_div n 256

/-! ## Minimal big-endian numbers -/

/-- The big-endian bytes of `n` without leading zeros; empty for zero. -/
def beBytes (n : ℕ) : Bytes := ((Nat.digits 256 n).map UInt8.ofNat).reverse

def beNat : ℕ := Nat.ofDigits 256 (bs.reverse.map UInt8.toNat)

private theorem digits_toNat (n : ℕ) :
    ((Nat.digits 256 n).map UInt8.ofNat).map UInt8.toNat = Nat.digits 256 n := by
  rw [map_map]
  conv_rhs => rw [← map_id (Nat.digits 256 n)]
  apply map_congr_left
  intro d hd
  have hlt : d < 256 := Nat.digits_lt_base (by decide) hd
  simp [Nat.mod_eq_of_lt hlt]

@[simp] theorem beNat_beBytes (n : ℕ) : beNat (beBytes n) = n := by
  simp only [beNat, beBytes, reverse_reverse, digits_toNat, Nat.ofDigits_digits]

variable {n : ℕ}

theorem beBytes_length_le {w : ℕ} (h : n < 256 ^ w) : (beBytes n).length ≤ w := by
  simpa [beBytes] using (Nat.digits_length_le_iff (by decide) n).mpr h

theorem beBytes_length_pos (h : n ≠ 0) : 0 < (beBytes n).length := by
  simpa [beBytes, length_pos_iff] using Nat.digits_ne_nil_iff_ne_zero.mpr h

theorem beBytes_head (h : n ≠ 0) : ∃ b rest, beBytes n = b :: rest ∧ b ≠ 0 := by
  have hne : Nat.digits 256 n ≠ [] := Nat.digits_ne_nil_iff_ne_zero.mpr h
  have hlast := Nat.getLast_digit_ne_zero 256 h
  have hlt : (Nat.digits 256 n).getLast hne < 256 :=
    Nat.digits_lt_base (by decide) (getLast_mem hne)
  refine ⟨UInt8.ofNat ((Nat.digits 256 n).getLast hne),
    (((Nat.digits 256 n).dropLast).map UInt8.ofNat).reverse, ?_, ?_⟩
  · conv_lhs => rw [beBytes, ← dropLast_append_getLast hne]
    simp
  · intro h0
    have := congrArg UInt8.toNat h0
    simp [Nat.mod_eq_of_lt hlt] at this
    exact hlast this

private theorem reverse_toNat_lt (bs : Bytes) : ∀ d ∈ bs.reverse.map UInt8.toNat, d < 256 := by
  intro d hd
  obtain ⟨b, -, rfl⟩ := mem_map.mp hd
  exact b.toNat_lt

theorem beNat_lt (bs : Bytes) : beNat bs < 256 ^ bs.length := by
  have h := Nat.ofDigits_lt_base_pow_length (by decide) (reverse_toNat_lt bs)
  simpa [beNat] using h

theorem beBytes_beNat {bs : Bytes} (h : bs.head? ≠ some 0) : beBytes (beNat bs) = bs := by
  have hdigits : Nat.digits 256 (beNat bs) = bs.reverse.map UInt8.toNat := by
    refine Nat.digits_ofDigits 256 (by decide) _ (reverse_toNat_lt bs) fun hne h0 => h ?_
    have hrev : bs.reverse ≠ [] := by simpa using hne
    rw [getLast_map, getLast_reverse] at h0
    rw [head?_eq_some_head (by simpa using hrev)]
    exact congrArg some (UInt8.toNat_inj.mp h0)
  have hid : UInt8.ofNat ∘ UInt8.toNat = id := by
    funext b
    simp
  rw [beBytes, hdigits, map_map, hid, map_id, reverse_reverse]

theorem beBytes_of_lt (h0 : n ≠ 0) (h : n < 256) : beBytes n = [UInt8.ofNat n] := by
  simp [beBytes, Nat.digits_of_lt 256 n h0 h]

end Bytes

/-! ## Fixed-width byte strings -/

/-- A byte string of exactly `n` bytes. -/
@[ext]
structure FixedBytes (n : ℕ) where
  bytes : Bytes
  length_eq : bytes.length = n
deriving DecidableEq

namespace FixedBytes

variable {n : ℕ}

def zero (n : ℕ) : FixedBytes n := ⟨List.replicate n 0, List.length_replicate ..⟩

instance : Inhabited (FixedBytes n) := ⟨zero n⟩

@[simp] theorem length_bytes (a : FixedBytes n) : a.bytes.length = n := a.length_eq

/-- The value `SetBytes` stores: cropped from the left when too long, padded with zeros
on the left when too short. -/
def ofBytes (n : ℕ) (bs : Bytes) : FixedBytes n :=
  ⟨List.replicate (n - bs.length) 0 ++ bs.drop (bs.length - n), by simp; omega⟩

@[simp] theorem ofBytes_bytes (a : FixedBytes n) : ofBytes n a.bytes = a := by
  ext1
  simp [ofBytes]

/-- Byte strings compare as `bytes.Compare` compares them. -/
instance : Ord (FixedBytes n) := ⟨fun a b => compare a.bytes b.bytes⟩

theorem compare_def (a b : FixedBytes n) : compare a b = compare a.bytes b.bytes := rfl

instance : Std.TransOrd (FixedBytes n) where
  eq_swap {a b} := by
    simp only [compare_def]
    exact Std.OrientedCmp.eq_swap
  isLE_trans {a b c} := by
    simp only [compare_def]
    exact Std.TransCmp.isLE_trans

instance : Std.LawfulEqOrd (FixedBytes n) where
  eq_of_compare {a b} h := FixedBytes.ext (Std.LawfulEqOrd.eq_of_compare h)
  compare_self {a} := by
    simp only [compare_def]
    exact Std.ReflOrd.compare_self

end FixedBytes
