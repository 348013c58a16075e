/-
IPv4 addresses and their dotted text.

`inetNtop` and `inetPton` are the C library's conversions for `AF_INET`.  The
reader is strict: four fields, each one to three digits without a leading zero and
at most 255, so that an address has exactly one text it is read from.
-/
import ChordDht.Lib.Decimal

namespace ChordDht

/-- The four bytes of an IPv4 address, in network order. -/
structure InAddr where
  a : UInt8
  b : UInt8
  c : UInt8
  d : UInt8
  deriving DecidableEq, Repr

/-- The text buffer of an address: four fields of three digits, three dots and the zero. -/
def inetAddrStrLen : Nat := 16

def InAddr.bytes (q : InAddr) : Bytes := [q.a, q.b, q.c, q.d]

def inetNtop (q : InAddr) : Bytes :=
  decimal q.a.toNat ++ 46 :: (decimal q.b.toNat ++ 46 :: (decimal q.c.toNat ++ 46 :: decimal q.d.toNat))

/-- One field of a dotted text. -/
def octet (s : Bytes) : Option UInt8 :=
  if s ≠ [] ∧ s.all isDigit ∧ (s.length = 1 ∨ s.head? ≠ some 48) ∧ digitsValue s ≤ 255 then
    some (UInt8.ofNat (digitsValue s))
  else none

def inetPton (s : Bytes) : Option InAddr :=
  match s.splitOn 46 with
  | [a, b, c, d] => do return ⟨← octet a, ← octet b, ← octet c, ← octet d⟩
  | _ => none

/-! ### Text and address are inverse -/

theorem dot_notMem_decimal (n : Nat) : (46 : UInt8) ∉ decimal n := by
  intro h
  have hd := isDigit_of_mem_decimal n 46 h
  exact absurd hd (by decide)

theorem octet_decimal (k : UInt8) : octet (decimal k.toNat) = some k := by
  have hlt : k.toNat < 256 := UInt8.toNat_lt k
  have hall : (decimal k.toNat).all isDigit = true :=
    List.all_eq_true.mpr (isDigit_of_mem_decimal k.toNat)
  have hhead : (decimal k.toNat).length = 1 ∨ (decimal k.toNat).head? ≠ some 48 := by
    by_cases hk : k.toNat = 0
    · left; rw [hk]; rfl
    · right; exact decimal_head_ne_zero hk
  rw [octet, digitsValue_decimal, if_pos ⟨decimal_ne_nil _, hall, hhead, by omega⟩]
  simp

theorem splitOn_dot_append {s : Bytes} (hs : (46 : UInt8) ∉ s) (rest : Bytes) :
    (s ++ 46 :: rest).splitOn 46 = s :: rest.splitOn 46 := by
  rw [List.splitOn_append_cons_of_beq s rest (beq_self_eq_true 46), List.splitOn_eq_singleton hs]
  rfl

/-- **The text of an address is read back as the address.** -/
@[simp] theorem inetPton_inetNtop (q : InAddr) : inetPton (inetNtop q) = some q := by
  have hsplit : (inetNtop q).splitOn 46
      = [decimal q.a.toNat, decimal q.b.toNat, decimal q.c.toNat, decimal q.d.toNat] := by
    rw [inetNtop, splitOn_dot_append (dot_notMem_decimal _), splitOn_dot_append (dot_notMem_decimal _),
      splitOn_dot_append (dot_notMem_decimal _), List.splitOn_eq_singleton (dot_notMem_decimal _)]
  rw [inetPton, hsplit]
  simp only [octet_decimal]
  rfl

theorem inetNtop_injective : Function.Injective inetNtop := by
  intro p q h
  have hp := inetPton_inetNtop p
  rw [h, inetPton_inetNtop] at hp
  exact (Option.some.inj hp).symm

/-- The text fits its buffer, with room for the closing zero byte. -/
theorem inetNtop_length_lt (q : InAddr) : (inetNtop q).length < inetAddrStrLen := by
  have hle : ∀ k : UInt8, (decimal k.toNat).length ≤ 3 := fun k =>
    decimal_length_le (by omega) (lt_trans (UInt8.toNat_lt k) (by decide))
  have ha := hle q.a
  have hb := hle q.b
  have hc := hle q.c
  have hd := hle q.d
  simp only [inetNtop, inetAddrStrLen, List.length_append, List.length_cons]
  omega

end ChordDht
