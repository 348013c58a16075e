/-
Sums of 16-bit words.

A text is read as big-endian words, with a zero byte behind an odd one; the sum is folded
once, the carries being added to the low half, and complemented.  `wordSum` is the sum over
the integers.  In 32 bits it comes out the same as long as it has room there, and a text of
131072 bytes has no more words than that.
-/
import ChordDht.Lib.CString

namespace ChordDht

/-- The sum of the big-endian words. -/
def wordSum : Bytes → Nat
  | hi :: lo :: rest => hi.toNat * 256 + lo.toNat + wordSum rest
  | [hi] => hi.toNat * 256
  | [] => 0

/-- The low half, and what was carried out of it. -/
def foldOnce (s : Nat) : Nat := s % 2 ^ 16 + s / 2 ^ 16

/-! ### The sum -/

/-- A word is below `2 ^ 16`. -/
theorem word_lt (hi lo : UInt8) : hi.toNat * 256 + lo.toNat < 2 ^ 16 := by
  have hhi := hi.toNat_lt
  have hlo := lo.toNat_lt
  omega

theorem wordSum_le (bytes : Bytes) : wordSum bytes ≤ 65535 * ((bytes.length + 1) / 2) := by
  induction bytes using wordSum.induct with
  | case1 hi lo rest ih =>
      have hword := word_lt hi lo
      rw [wordSum, List.length_cons, List.length_cons]
      omega
  | case2 hi =>
      have hhi := hi.toNat_lt
      rw [wordSum, List.length_singleton]
      omega
  | case3 => exact Nat.le_refl _

/-- The zero byte behind the text adds nothing. -/
theorem wordSum_pad (bytes : Bytes) : wordSum (bytes ++ [0]) = wordSum bytes := by
  induction bytes using wordSum.induct with
  | case1 hi lo rest ih => rw [List.cons_append, List.cons_append, wordSum, wordSum, ih]
  | case2 hi => simp [wordSum]
  | case3 => simp [wordSum]

/-! ### In machine words -/

theorem toNat_word (hi lo : UInt8) :
    (hi.toUInt32 <<< (8 : UInt32) ||| lo.toUInt32).toNat = hi.toNat * 256 + lo.toNat := by
  have hhi := hi.toNat_lt
  have hlo := lo.toNat_lt
  have hshift : (hi.toUInt32 <<< (8 : UInt32)).toNat = hi.toNat <<< 8 := by
    rw [UInt32.toNat_shiftLeft, UInt8.toNat_toUInt32]
    show (hi.toNat <<< 8) % 2 ^ 32 = _
    rw [Nat.shiftLeft_eq, Nat.mod_eq_of_lt (by omega)]
  rw [UInt32.toNat_or, hshift, UInt8.toNat_toUInt32, ← Nat.shiftLeft_add_eq_or_of_lt (by omega),
    Nat.shiftLeft_eq]

theorem toNat_add_of_lt {a b : UInt32} (h : a.toNat + b.toNat < 2 ^ 32) : (a + b).toNat = a.toNat + b.toNat := by
  rw [UInt32.toNat_add, Nat.mod_eq_of_lt h]

theorem toNat_foldOnce (s : UInt32) : ((s &&& (0xFFFF : UInt32)) + (s >>> (16 : UInt32))).toNat = foldOnce s.toNat := by
  have hs := s.toNat_lt
  have hlow : (s &&& (0xFFFF : UInt32)).toNat = s.toNat % 2 ^ 16 := by
    rw [UInt32.toNat_and]
    exact Nat.and_two_pow_sub_one_eq_mod s.toNat 16
  have hhigh : (s >>> (16 : UInt32)).toNat = s.toNat / 2 ^ 16 := by
    rw [UInt32.toNat_shiftRight]
    exact Nat.shiftRight_eq_div_pow s.toNat 16
  rw [toNat_add_of_lt, hlow, hhigh, foldOnce]
  rw [hlow, hhigh]
  omega

/-- The complement, cut to 16 bits, is the one modulo `2 ^ 16`. -/
theorem toNat_complement (s : UInt32) : ((~~~s).toUInt16.toNat : ℤ) = (-(s.toNat : ℤ) - 1) % 2 ^ 16 := by
  have hs := s.toNat_lt
  rw [UInt32.toNat_toUInt16, UInt32.toNat_not, UInt32.size]
  omega

end ChordDht
