import ChilizChain.Lib.Bytes

/-! Unsigned varints as `encoding/binary` writes and reads them: seven bits a byte, the lowest
first, all but the last byte with the high bit set, at most ten bytes. -/

namespace ChilizChain.Varint

open UInt8 Nat

/-- The bytes of `n`, with `fuel` continuation bytes at most. -/
def put : ℕ → ℕ → Bytes
  | 0, n => [UInt8.ofNat n]
  | fuel + 1, n =>
    if n < 128 then [UInt8.ofNat n] else UInt8.ofNat (n % 128 + 128) :: put fuel (n / 128)

/-- What `AppendUvarint` appends for a 64-bit number. -/
def encode (n : ℕ) : Bytes := put 9 n

/-- The loop of `Uvarint` at the byte `i`, with the bits `x` of the bytes before. -/
def readFrom (x i : ℕ) : Bytes → ℕ × ℤ
  | [] => (0, 0)
  | b :: rest =>
    if i = 10 then (0, -(i + 1))
    else if b < 128 then
      if i = 9 ∧ 1 < b then (0, -(i + 1)) else (x + b.toNat * 128 ^ i, i + 1)
    else readFrom (x + (b.toNat - 128) * 128 ^ i) (i + 1) rest

/-- `Uvarint`: the number and how many bytes it takes; not positive if there is none. -/
def uvarint (buf : Bytes) : ℕ × ℤ := readFrom 0 0 buf

variable {n : ℕ}

private theorem byte_toNat (h : n < 256) : (ofNat n).toNat = n := by
  simp [mod_eq_of_lt h]

theorem put_length_le (fuel n : ℕ) : (put fuel n).length ≤ fuel + 1 := by
  induction fuel generalizing n with
  | zero => simp [put]
  | succ fuel ih =>
    rw [put]
    split
    · simp
    · simpa using ih (n / 128)

theorem put_length_pos (fuel n : ℕ) : 0 < (put fuel n).length := by
  cases fuel <;> rw [put]
  · simp
  · split <;> simp

theorem encode_length_le (n : ℕ) : (encode n).length ≤ 10 := put_length_le 9 n

theorem encode_length_pos (n : ℕ) : 0 < (encode n).length := put_length_pos 9 n

private theorem readFrom_put {fuel i x : ℕ} (hi : i + fuel = 9) (hn : n * 128 ^ i < 2 ^ 64)
    (rest : Bytes) :
    readFrom x i (put fuel n ++ rest) = (x + n * 128 ^ i, (i + (put fuel n).length : ℤ)) := by
  induction fuel generalizing i x n with
  | zero =>
    obtain rfl : i = 9 := by omega
    have hle : n ≤ 1 := by
      by_contra hbig
      have : 2 * 128 ^ 9 ≤ n * 128 ^ 9 := mul_le_mul_right _ (by omega)
      omega
    have hbyte := byte_toNat (show n < 256 by omega)
    have hsmall : ofNat n < 128 := by
      rw [lt_iff_toNat_lt, hbyte]
      show n < 128
      omega
    have hone : ¬ (1 : UInt8) < ofNat n := by
      rw [lt_iff_toNat_lt, hbyte]
      show ¬ 1 < n
      omega
    simp [put, readFrom, hsmall, hone, hbyte]
  | succ fuel ih =>
    have hi10 : i ≠ 10 := by omega
    have hi9 : i ≠ 9 := by omega
    rw [put]
    split
    · rename_i hlt
      have hbyte := byte_toNat (show n < 256 by omega)
      have hsmall : ofNat n < 128 := by
        rw [lt_iff_toNat_lt, hbyte]
        exact hlt
      simp [readFrom, hi10, hi9, hsmall, hbyte]
    · have hbyte := byte_toNat (show n % 128 + 128 < 256 by omega)
      have hbig : ¬ ofNat (n % 128 + 128) < 128 := by
        rw [lt_iff_toNat_lt, hbyte]
        show ¬ n % 128 + 128 < 128
        omega
      have hsplit : n % 128 + n / 128 * 128 = n := by omega
      have hrest : n / 128 * 128 ^ (i + 1) < 2 ^ 64 := by
        refine lt_of_le_of_lt ?_ hn
        rw [pow_succ, mul_comm (128 ^ i), ← mul_assoc]
        exact mul_le_mul_right _ (by omega)
      have hvalue : x + n % 128 * 128 ^ i + n / 128 * 128 ^ (i + 1) = x + n * 128 ^ i := by
        rw [pow_succ, mul_comm (128 ^ i), ← mul_assoc, add_assoc, ← add_mul, hsplit]
      rw [List.cons_append, readFrom, if_neg hi10, if_neg hbig, hbyte, Nat.add_sub_cancel,
        ih (by omega) hrest, hvalue]
      simp only [List.length_cons, Prod.mk.injEq, true_and]
      push_cast
      omega

theorem uvarint_encode (hn : n < 2 ^ 64) (rest : Bytes) :
    uvarint (encode n ++ rest) = (n, ((encode n).length : ℤ)) := by
  have h : readFrom 0 0 (put 9 n ++ rest) = _ := readFrom_put rfl (by simpa using hn) rest
  simpa [uvarint, encode] using h

end ChilizChain.Varint
