/-
Bytes, and the parts of the C library that read them.

A piece of memory is the list of its bytes from a pointer on; a byte past the end
reads as zero.  A C string in memory is what stands before the first zero byte.
`memchr` and `strncmp` are given by what they return: an offset, and whether the
comparison found no difference.
-/
import Mathlib

namespace ChordDht

abbrev Bytes := List UInt8

/-- The bytes of an ASCII text. -/
def ascii (s : String) : Bytes := s.toList.map fun c => UInt8.ofNat c.toNat

def crlf : Bytes := [13, 10]

/-- `isspace` in the C locale. -/
def isSpace (b : UInt8) : Bool := b == 32 || (9 ≤ b && b ≤ 13)

/-- `isdigit`. -/
def isDigit (b : UInt8) : Bool := 48 ≤ b && b ≤ 57

/-- `isalpha` in the C locale: the ASCII letters. -/
def isAlpha (b : UInt8) : Bool := (65 ≤ b && b ≤ 90) || (97 ≤ b && b ≤ 122)

/-- The C string that starts at the head of the memory. -/
def cstr (mem : Bytes) : Bytes := mem.takeWhile (· != 0)

/-- What `strncpy` leaves in a zeroed buffer with room for `n` characters and the zero. -/
def strncpy (s : Bytes) (n : Nat) : Bytes := (cstr s).take n

/-- Offset of the first `c` among the first `n` bytes. -/
def memchr (mem : Bytes) (c : UInt8) (n : Nat) : Option Nat := (mem.take n).findIdx? (· == c)

/-- Whether `strncmp a b n` is zero. -/
def strncmp : Bytes → Bytes → Nat → Bool
  | _, _, 0 => true
  | a, b, n + 1 => a.headD 0 == b.headD 0 && (a.headD 0 == 0 || strncmp a.tail b.tail n)

/-! ### `memchr` -/

theorem memchr_append_of_notMem {l r : Bytes} {c : UInt8} {n : Nat} (hl : c ∉ l)
    (hn : l.length < n) : memchr (l ++ c :: r) c n = some l.length := by
  obtain ⟨k, rfl⟩ : ∃ k, n = l.length + (k + 1) := ⟨n - l.length - 1, by omega⟩
  have hfind : l.findIdx? (· == c) = none := by
    rw [List.findIdx?_eq_none_iff]
    intro x hx
    have hne : x ≠ c := fun hc => hl (hc ▸ hx)
    simp [hne]
  rw [memchr, List.take_append, List.take_of_length_le (by omega), List.findIdx?_append, hfind]
  have hk : l.length + (k + 1) - l.length = k + 1 := by omega
  simp [hk, List.findIdx?_cons]

theorem memchr_eq_none {mem : Bytes} {c : UInt8} {n : Nat} (h : c ∉ mem.take n) :
    memchr mem c n = none := by
  rw [memchr, List.findIdx?_eq_none_iff]
  intro x hx
  have hne : x ≠ c := fun hc => h (hc ▸ hx)
  simp [hne]

/-- What `memchr` finds is inside the searched bytes, is `c`, and is the first. -/
theorem memchr_eq_some {mem : Bytes} {c : UInt8} {n i : Nat} (h : memchr mem c n = some i) :
    i < n ∧ mem[i]? = some c ∧ c ∉ mem.take i := by
  rw [memchr, List.findIdx?_eq_some_iff_getElem] at h
  obtain ⟨hi, hc, hmin⟩ := h
  have hi' : i < n ∧ i < mem.length := by simpa [Nat.lt_min] using hi
  refine ⟨hi'.1, ?_, ?_⟩
  · rw [List.getElem?_eq_getElem hi'.2]
    simpa [List.getElem_take] using hc
  · intro hmem
    obtain ⟨j, hj, hval⟩ := List.getElem_of_mem hmem
    have hji : j < i := by simp at hj; omega
    have := hmin j hji
    simp only [List.getElem_take, beq_iff_eq] at this hval
    exact this hval

/-! ### `strncmp` -/

/-- Only as many bytes are compared. -/
theorem strncmp_front (p a b : Bytes) : strncmp (p ++ a) b p.length = strncmp p b p.length := by
  induction p generalizing b with
  | nil => simp [strncmp]
  | cons x p ih => simp [strncmp, ih]

/-- Only as many bytes are read. -/
theorem strncmp_take (a b : Bytes) (n : Nat) : strncmp (a.take n) b n = strncmp a b n := by
  induction n generalizing a b with
  | zero => rfl
  | succ n ih =>
      cases a with
      | nil => rfl
      | cons x a => rw [List.take_succ_cons, strncmp, strncmp, List.tail_cons, List.tail_cons, ih]; rfl

/-- Comparing a zero-free text with as much memory as it is long. -/
theorem strncmp_length {a b : Bytes} (hb : (0 : UInt8) ∉ b) :
    strncmp a b b.length = true ↔ a.take b.length = b := by
  induction b generalizing a with
  | nil => simp [strncmp]
  | cons y b ih =>
      have hy : y ≠ 0 := fun hc => hb (by simp [hc])
      have hb' : (0 : UInt8) ∉ b := fun hc => hb (by simp [hc])
      rw [List.length_cons, strncmp]
      cases a with
      | nil => simp [Ne.symm hy]
      | cons x a =>
          simp only [List.headD_cons, List.tail_cons, Bool.and_eq_true, beq_iff_eq,
            Bool.or_eq_true, List.take_succ_cons, List.cons.injEq, ih hb']
          constructor
          · rintro ⟨hxy, hx | h⟩
            · exact absurd (hxy ▸ hx) hy
            · exact ⟨hxy, h⟩
          · rintro ⟨hxy, h⟩
            exact ⟨hxy, Or.inr h⟩

/-- Comparing as many bytes as a zero-free text has asks whether it is a prefix. -/
theorem strncmp_isPrefixOf {p : Bytes} (hp : (0 : UInt8) ∉ p) (a b : Bytes) :
    strncmp (p ++ a) b p.length = p.isPrefixOf b := by
  induction p generalizing b with
  | nil => simp [strncmp]
  | cons x p ih =>
      have hx : x ≠ 0 := fun hc => hp (by simp [hc])
      have hp' : (0 : UInt8) ∉ p := fun hc => hp (by simp [hc])
      rw [List.length_cons, strncmp]
      cases b with
      | nil => simp [hx]
      | cons y b =>
          have hzero : (x == 0) = false := by simpa using hx
          simp [hzero, ih hp', List.isPrefixOf]

/-! ### C strings in memory -/

/-- Overwriting the byte behind a text. -/
theorem set_length_append (s : Bytes) (b c : UInt8) (rest : Bytes) :
    (s ++ b :: rest).set s.length c = s ++ c :: rest := by
  rw [List.set_append_right _ _ (Nat.le_refl _), Nat.sub_self, List.set_cons_zero]

/-- Behind a zero byte nothing is read. -/
theorem cstr_front (s rest : Bytes) : cstr (s ++ 0 :: rest) = cstr s := by
  induction s with
  | nil => rfl
  | cons b s ih =>
      rw [List.cons_append, cstr, cstr, List.takeWhile_cons, List.takeWhile_cons, ← cstr, ih, ← cstr]

theorem cstr_eq_self {s : Bytes} (hs : (0 : UInt8) ∉ s) : cstr s = s := by
  refine List.takeWhile_eq_self_iff.mpr ?_
  intro x hx
  have hne : x ≠ 0 := fun hc => hs (hc ▸ hx)
  simpa using hne

/-- A zero-free text followed by a zero byte is read back whole. -/
theorem cstr_append_zero {s : Bytes} (hs : (0 : UInt8) ∉ s) (rest : Bytes) :
    cstr (s ++ 0 :: rest) = s := by
  rw [cstr_front, cstr_eq_self hs]

theorem zero_notMem_cstr (mem : Bytes) : (0 : UInt8) ∉ cstr mem := by
  intro h
  simpa using List.mem_takeWhile_imp h

theorem cstr_cstr (mem : Bytes) : cstr (cstr mem) = cstr mem := cstr_eq_self (zero_notMem_cstr mem)

theorem cstr_length_le (mem : Bytes) : (cstr mem).length ≤ mem.length :=
  (List.takeWhile_prefix _).length_le

end ChordDht
