/-
Numbers as decimal text.

`decimal` is what `printf` writes for `%d`, `%u` and `%lu` of a non-negative number;
`strtoul` and `atoi` are the C library's readers in base ten, which skip white space,
take an optional sign and stop at the first byte that is not a digit.  A number
read back from its own text is the number, whatever follows it.
-/
import ChordDht.Lib.CString

namespace ChordDht

/-- The decimal text of a number. -/
def decimal (n : Nat) : Bytes := (Nat.toDigits 10 n).map fun c => UInt8.ofNat c.toNat

/-- The number a digit string stands for. -/
def digitsValue (ds : Bytes) : Nat := ds.foldl (fun v d => 10 * v + (d.toNat - 48)) 0

/-- `strtoul(s, NULL, 10)`: an unsigned long; too large a number gives `ULONG_MAX`. -/
def strtoul (s : Bytes) : Nat :=
  let t := s.dropWhile isSpace
  let negative := t.headD 0 == 45
  let u := if t.headD 0 == 45 || t.headD 0 == 43 then t.tail else t
  let v := digitsValue (u.takeWhile isDigit)
  if 2 ^ 64 ≤ v then 2 ^ 64 - 1 else if negative then (2 ^ 64 - v) % 2 ^ 64 else v

/-- `strtol(s, NULL, 10)`, clamped to the range of `long`. -/
def strtol (s : Bytes) : Int :=
  let t := s.dropWhile isSpace
  let u := if t.headD 0 == 45 || t.headD 0 == 43 then t.tail else t
  let v : Int := digitsValue (u.takeWhile isDigit)
  if t.headD 0 == 45 then max (-v) (-2 ^ 63) else min v (2 ^ 63 - 1)

/-- `atoi(s)` as the C library computes it: `strtol` cut down to an `int`. -/
def atoi (s : Bytes) : Int := (strtol s).bmod (2 ^ 32)

/-! ### The shape of decimal text -/

theorem toNat_digit {k : Nat} (hk : k < 10) : (UInt8.ofNat (48 + k)).toNat = 48 + k := by
  rw [UInt8.toNat_ofNat']
  omega

/-- A number is its tens followed by its last digit. -/
theorem decimal_eq (n : Nat) :
    decimal n = (if n < 10 then [] else decimal (n / 10)) ++ [UInt8.ofNat (48 + n % 10)] := by
  have hchar : ∀ k, k < 10 → UInt8.ofNat (Nat.digitChar k).toNat = UInt8.ofNat (48 + k) := by
    intro k hk
    rw [Nat.toNat_digitChar_of_lt_ten hk]
  unfold decimal
  by_cases h : n < 10
  · rw [Nat.toDigits_of_lt_base h, if_pos h, Nat.mod_eq_of_lt h]
    simp [hchar n h]
  · rw [Nat.toDigits_of_base_le (by omega) (by omega), if_neg h]
    simp [hchar (n % 10) (Nat.mod_lt _ (by omega))]

theorem decimal_ne_nil (n : Nat) : decimal n ≠ [] := by
  rw [decimal_eq]
  simp

theorem isDigit_of_mem_decimal (n : Nat) : ∀ b ∈ decimal n, isDigit b = true := by
  induction n using Nat.strong_induction_on with
  | _ n ih =>
      intro b hb
      rw [decimal_eq] at hb
      rcases List.mem_append.mp hb with hb | hb
      · by_cases h : n < 10
        · simp [h] at hb
        · rw [if_neg h] at hb
          exact ih (n / 10) (by omega) b hb
      · have hb : b = UInt8.ofNat (48 + n % 10) := by simpa using hb
        have hval := toNat_digit (Nat.mod_lt n (show 0 < 10 by omega))
        have hmod : n % 10 < 10 := Nat.mod_lt _ (by omega)
        simp only [isDigit, Bool.and_eq_true, decide_eq_true_eq, UInt8.le_iff_toNat_le, hb, hval]
        constructor
        · simp
        · have : (57 : UInt8).toNat = 57 := rfl
          omega

theorem digitsValue_append (ds : Bytes) (d : UInt8) :
    digitsValue (ds ++ [d]) = 10 * digitsValue ds + (d.toNat - 48) := by
  simp [digitsValue, List.foldl_append]

/-- Digits in front of `k` others count `10 ^ k` times as much. -/
theorem digitsValue_append_digits (ds es : Bytes) :
    digitsValue (ds ++ es) = digitsValue ds * 10 ^ es.length + digitsValue es := by
  induction es using List.reverseRecOn with
  | nil => simp [digitsValue]
  | append_singleton es d ih =>
      rw [← List.append_assoc, digitsValue_append, digitsValue_append, ih, List.length_append,
        List.length_singleton, pow_succ]
      ring

/-- A number that is cut short is another number, unless it is zero. -/
theorem digitsValue_take_iff {ds : Bytes} {k : Nat} :
    digitsValue (ds.take k) = digitsValue ds ↔ digitsValue ds = 0 ∨ ds.length ≤ k := by
  by_cases hk : ds.length ≤ k
  · simp [List.take_of_length_le hk, hk]
  · have hwhole := digitsValue_append_digits (ds.take k) (ds.drop k)
    obtain ⟨j, hj⟩ : ∃ j, (ds.drop k).length = j + 1 := ⟨(ds.drop k).length - 1, by
      rw [List.length_drop]
      omega⟩
    have hpos : 0 < 10 ^ j := Nat.pow_pos (by omega)
    have hten : digitsValue (ds.take k) * 10 ^ (j + 1) = 10 * (digitsValue (ds.take k) * 10 ^ j) := by
      rw [pow_succ]
      ring
    have hle : digitsValue (ds.take k) ≤ digitsValue (ds.take k) * 10 ^ j := Nat.le_mul_of_pos_right _ hpos
    rw [List.take_append_drop, hj, hten] at hwhole
    omega

theorem digitsValue_take_le (ds : Bytes) (k : Nat) : digitsValue (ds.take k) ≤ digitsValue ds := by
  have hwhole := digitsValue_append_digits (ds.take k) (ds.drop k)
  have hle : digitsValue (ds.take k) ≤ digitsValue (ds.take k) * 10 ^ (ds.drop k).length :=
    Nat.le_mul_of_pos_right _ (Nat.pow_pos (by omega))
  rw [List.take_append_drop] at hwhole
  omega

/-- **Reading a number's text gives the number.** -/
theorem digitsValue_decimal (n : Nat) : digitsValue (decimal n) = n := by
  induction n using Nat.strong_induction_on with
  | _ n ih =>
      have hmod : n % 10 < 10 := Nat.mod_lt _ (by omega)
      rw [decimal_eq, digitsValue_append, toNat_digit hmod]
      by_cases h : n < 10
      · rw [if_pos h]
        simp [digitsValue]
        omega
      · rw [if_neg h, ih (n / 10) (by omega)]
        omega

/-- No leading zero, unless the number is zero. -/
theorem decimal_head_ne_zero {n : Nat} (hn : n ≠ 0) : (decimal n).head? ≠ some 48 := by
  induction n using Nat.strong_induction_on with
  | _ n ih =>
      rw [decimal_eq]
      by_cases h : n < 10
      · have hval := toNat_digit h
        rw [if_pos h, Nat.mod_eq_of_lt h]
        simp only [List.nil_append, List.head?_cons, ne_eq, Option.some.injEq]
        intro hc
        rw [hc] at hval
        have : (48 : UInt8).toNat = 48 := rfl
        omega
      · have ih' := ih (n / 10) (by omega) (by omega)
        obtain ⟨d, ds, hd⟩ := List.exists_cons_of_ne_nil (decimal_ne_nil (n / 10))
        rw [if_neg h, hd]
        rw [hd] at ih'
        simpa using ih'

theorem decimal_length_le_iff {n k : Nat} (hk : 0 < k) : (decimal n).length ≤ k ↔ n < 10 ^ k := by
  rw [decimal, List.length_map]
  exact Nat.length_toDigits_le_iff (by omega) hk

theorem decimal_length_le {n k : Nat} (hk : 0 < k) (h : n < 10 ^ k) : (decimal n).length ≤ k :=
  (decimal_length_le_iff hk).mpr h

/-- A number is never longer in decimal than in unary. -/
theorem decimal_length_le_self {n : Nat} (hn : 0 < n) : (decimal n).length ≤ n :=
  decimal_length_le hn (Nat.lt_pow_self (by omega))

/-! ### Digit strings in front of other text -/

theorem isDigit_bounds {b : UInt8} (h : isDigit b = true) : 48 ≤ b.toNat ∧ b.toNat ≤ 57 := by
  simpa [isDigit, UInt8.le_iff_toNat_le] using h

theorem not_isSpace_of_isDigit {b : UInt8} (h : isDigit b = true) : isSpace b = false := by
  have hb := isDigit_bounds h
  have hne : b ≠ 32 := by rintro rfl; simp at hb
  simp only [isSpace, Bool.or_eq_false_iff, beq_eq_false_iff_ne, Bool.and_eq_false_iff,
    decide_eq_false_iff_not, UInt8.le_iff_toNat_le]
  refine ⟨hne, Or.inr ?_⟩
  have : (13 : UInt8).toNat = 13 := rfl
  omega

theorem not_isAlpha_of_isDigit {c : UInt8} (h : isDigit c = true) : isAlpha c = false := by
  have hbounds := isDigit_bounds h
  have h65 : (65 : UInt8).toNat = 65 := rfl
  have h97 : (97 : UInt8).toNat = 97 := rfl
  simp only [isAlpha, Bool.or_eq_false_iff, Bool.and_eq_false_iff, decide_eq_false_iff_not,
    UInt8.le_iff_toNat_le]
  omega

theorem not_isDigit_of_isAlpha {c : UInt8} (h : isAlpha c = true) : isDigit c = false := by
  cases hdigit : isDigit c with
  | false => rfl
  | true =>
      rw [not_isAlpha_of_isDigit hdigit] at h
      exact absurd h Bool.false_ne_true

/-- The digits at the head of the text are all of `ds` when no digit follows. -/
theorem takeWhile_digits {ds rest : Bytes} (hds : ∀ b ∈ ds, isDigit b = true)
    (hrest : isDigit (rest.headD 0) = false) : (ds ++ rest).takeWhile isDigit = ds := by
  rw [List.takeWhile_append_of_pos hds]
  cases rest with
  | nil => simp
  | cons b rest =>
      have hb : isDigit b = false := by simpa using hrest
      simp [hb]

/-- Where no digit stands there is none if less of the text is seen. -/
theorem isDigit_headD_take {s : Bytes} (h : isDigit (s.headD 0) = false) (k : Nat) :
    isDigit ((s.take k).headD 0) = false := by
  cases k with
  | zero => rfl
  | succ k =>
      cases s with
      | nil => rfl
      | cons b s => exact h

/-- What the readers see of spaces followed by digits. -/
theorem read_digits {sp ds rest : Bytes} (hsp : ∀ b ∈ sp, isSpace b = true) (hne : ds ≠ [])
    (hds : ∀ b ∈ ds, isDigit b = true) :
    (sp ++ ds ++ rest).dropWhile isSpace = ds ++ rest ∧
      (ds ++ rest).headD 0 ≠ 45 ∧ (ds ++ rest).headD 0 ≠ 43 := by
  obtain ⟨d, ds', rfl⟩ := List.exists_cons_of_ne_nil hne
  have hd : isDigit d = true := hds d (by simp)
  have hb := isDigit_bounds hd
  refine ⟨?_, ?_, ?_⟩
  · rw [List.append_assoc, List.dropWhile_append_of_pos hsp]
    simp [not_isSpace_of_isDigit hd]
  · simp only [List.cons_append, List.headD_cons]
    rintro rfl
    simp at hb
  · simp only [List.cons_append, List.headD_cons]
    rintro rfl
    simp at hb

/-- **A number ends in its line**: what stands behind a line that is not blank is not read. -/
theorem strtoul_line {line : Bytes} (h : ∃ b ∈ line, isSpace b = false) (more : Bytes) :
    strtoul (line ++ 13 :: more) = strtoul line := by
  have hne : line.dropWhile isSpace ≠ [] := by
    intro hc
    obtain ⟨b, hb, hspace⟩ := h
    rw [List.dropWhile_eq_nil_iff.mp hc b hb] at hspace
    cases hspace
  obtain ⟨c, cs, ht⟩ := List.exists_cons_of_ne_nil hne
  have hdrop : (line ++ 13 :: more).dropWhile isSpace = c :: (cs ++ 13 :: more) := by
    rw [List.dropWhile_append, ht]
    rfl
  have hdigits : ∀ u : Bytes, (u ++ 13 :: more).takeWhile isDigit = u.takeWhile isDigit := by
    intro u
    induction u with
    | nil => rfl
    | cons b u ih => rw [List.cons_append, List.takeWhile_cons, List.takeWhile_cons, ih]
  have hall := hdigits (c :: cs)
  rw [List.cons_append] at hall
  simp only [strtoul, hdrop, ht, List.headD_cons, List.tail_cons]
  split
  · rw [hdigits]
  · rw [hall]

/-- `strtoul` on spaces, a digit string and something that is not a digit. -/
theorem strtoul_digits {sp ds rest : Bytes} (hsp : ∀ b ∈ sp, isSpace b = true) (hne : ds ≠ [])
    (hds : ∀ b ∈ ds, isDigit b = true) (hrest : isDigit (rest.headD 0) = false)
    (hlt : digitsValue ds < 2 ^ 64) : strtoul (sp ++ ds ++ rest) = digitsValue ds := by
  obtain ⟨hdrop, hminus, hplus⟩ := @read_digits sp ds rest hsp hne hds
  simp only [strtoul, hdrop, takeWhile_digits hds hrest, beq_iff_eq, hminus, hplus, Bool.or_eq_true,
    or_self, if_false]
  rw [if_neg (by omega)]

/-- `atoi` on a digit string and something that is not a digit. -/
theorem atoi_digits {ds rest : Bytes} (hne : ds ≠ []) (hds : ∀ b ∈ ds, isDigit b = true)
    (hrest : isDigit (rest.headD 0) = false) (hlt : digitsValue ds < 2 ^ 31) :
    atoi (ds ++ rest) = digitsValue ds := by
  obtain ⟨hdrop, hminus, hplus⟩ := @read_digits [] ds rest (fun b hb => absurd hb List.not_mem_nil) hne hds
  have hlong : strtol (ds ++ rest) = digitsValue ds := by
    rw [List.nil_append] at hdrop
    simp only [strtol, hdrop, takeWhile_digits hds hrest, beq_iff_eq, hminus, hplus, Bool.or_eq_true,
      or_self, if_false]
    omega
  rw [atoi, hlong, Int.bmod_eq_of_le (by omega) (by omega)]

/-! ### Any text -/

/-- What a reader of numbers finds in a text: white space, a sign and digits, each as far as it
is there, and behind them something that could not be part of it. -/
def Numeral (text : Bytes) (negative : Bool) (digits : Bytes) : Prop :=
  ∃ blanks sign rest, text = blanks ++ sign ++ digits ++ rest ∧ (∀ b ∈ blanks, isSpace b = true) ∧
    (sign = [45] ∧ negative = true ∨ sign = [43] ∧ negative = false ∨ sign = [] ∧ negative = false) ∧
    (∀ d ∈ digits, isDigit d = true) ∧ isDigit (rest.headD 0) = false ∧
    (sign ++ digits = [] → isSpace (rest.headD 0) = false ∧ rest.headD 0 ≠ 43 ∧ rest.headD 0 ≠ 45)

theorem headD_dropWhile {p : UInt8 → Bool} (hp : p 0 = false) (s : Bytes) :
    p ((s.dropWhile p).headD 0) = false := by
  induction s with
  | nil => exact hp
  | cons b s ih =>
      rw [List.dropWhile_cons]
      cases hb : p b with
      | true => exact ih
      | false => exact hb

/-- Digits behind white space and a sign. -/
theorem numeral_signed {blanks sign : Bytes} {negative : Bool} (u : Bytes) (hblanks : ∀ b ∈ blanks, isSpace b = true)
    (hsign : sign = [45] ∧ negative = true ∨ sign = [43] ∧ negative = false) :
    Numeral (blanks ++ (sign ++ u)) negative (u.takeWhile isDigit) := by
  refine ⟨blanks, sign, u.dropWhile isDigit, ?_, hblanks, hsign.imp_right Or.inl,
    fun d hd => List.mem_takeWhile_imp hd, headD_dropWhile rfl u, ?_⟩
  · rw [List.append_assoc, List.takeWhile_append_dropWhile, List.append_assoc]
  · rcases hsign with ⟨rfl, -⟩ | ⟨rfl, -⟩ <;> exact fun hc => by cases hc

/-- There is one in every text. -/
theorem numeral_exists (text : Bytes) : ∃ negative digits, Numeral text negative digits := by
  have hblanks : ∀ b ∈ text.takeWhile isSpace, isSpace b = true := fun b hb => List.mem_takeWhile_imp hb
  have hspace := headD_dropWhile (p := isSpace) rfl text
  have hsplit := List.takeWhile_append_dropWhile (p := isSpace) (l := text)
  generalize text.takeWhile isSpace = blanks at hblanks hsplit
  generalize text.dropWhile isSpace = t at hspace hsplit
  subst hsplit
  by_cases hminus : t.head? = some 45
  · obtain ⟨u, rfl⟩ := List.head?_eq_some_iff.mp hminus
    exact ⟨true, _, numeral_signed u hblanks (Or.inl ⟨rfl, rfl⟩)⟩
  · by_cases hplus : t.head? = some 43
    · obtain ⟨u, rfl⟩ := List.head?_eq_some_iff.mp hplus
      exact ⟨false, _, numeral_signed u hblanks (Or.inr ⟨rfl, rfl⟩)⟩
    · refine ⟨false, t.takeWhile isDigit, blanks, [], t.dropWhile isDigit, ?_, hblanks,
        Or.inr (Or.inr ⟨rfl, rfl⟩), fun d hd => List.mem_takeWhile_imp hd, headD_dropWhile rfl t, ?_⟩
      · rw [List.append_nil, List.append_assoc, List.takeWhile_append_dropWhile]
      · intro hnone
        have hall := List.takeWhile_append_dropWhile (p := isDigit) (l := t)
        rw [List.nil_append] at hnone
        rw [hnone, List.nil_append] at hall
        rw [hall]
        cases t with
        | nil => exact ⟨rfl, by decide, by decide⟩
        | cons b t =>
            rw [List.head?_cons, Option.some.injEq] at hminus hplus
            exact ⟨hspace, hplus, hminus⟩

/-- **The number that `strtoul` reads** in any text. -/
theorem strtoul_numeral {text : Bytes} {negative : Bool} {digits : Bytes} (h : Numeral text negative digits) :
    strtoul text = if 2 ^ 64 ≤ digitsValue digits then 2 ^ 64 - 1
      else if negative then (2 ^ 64 - digitsValue digits) % 2 ^ 64 else digitsValue digits := by
  obtain ⟨blanks, sign, rest, rfl, hblanks, hsign, hdigits, hrest, hnone⟩ := h
  have hread := takeWhile_digits hdigits hrest
  have hdrop : (blanks ++ sign ++ digits ++ rest).dropWhile isSpace = sign ++ (digits ++ rest) := by
    rw [List.append_assoc, List.append_assoc, List.dropWhile_append_of_pos hblanks]
    rcases hsign with ⟨rfl, -⟩ | ⟨rfl, -⟩ | ⟨rfl, -⟩
    · rfl
    · rfl
    · cases digits with
      | nil =>
          have hspace := (hnone rfl).1
          cases rest with
          | nil => rfl
          | cons b rest => exact List.dropWhile_cons_of_neg (by simpa using hspace)
      | cons d digits =>
          have hd := not_isSpace_of_isDigit (hdigits d List.mem_cons_self)
          exact List.dropWhile_cons_of_neg (by simpa using hd)
  unfold strtoul
  rw [hdrop]
  rcases hsign with ⟨rfl, rfl⟩ | ⟨rfl, rfl⟩ | ⟨rfl, rfl⟩
  · simp [hread]
  · simp [hread]
  · have hunsigned : (digits ++ rest).headD 0 ≠ 45 ∧ (digits ++ rest).headD 0 ≠ 43 := by
      cases digits with
      | nil => exact ⟨(hnone rfl).2.2, (hnone rfl).2.1⟩
      | cons d digits =>
          have hd := isDigit_bounds (hdigits d List.mem_cons_self)
          refine ⟨?_, ?_⟩
          · rintro (rfl : d = 45)
            exact absurd hd.1 (by decide)
          · rintro (rfl : d = 43)
            exact absurd hd.1 (by decide)
    simp only [List.nil_append, beq_iff_eq, hunsigned.1, hunsigned.2, Bool.or_eq_true, or_self, if_false, hread,
      Bool.false_eq_true]

/-- A zero byte ends the text. -/
theorem strtoul_zero (text more : Bytes) : strtoul (text ++ 0 :: more) = strtoul text := by
  obtain ⟨negative, digits, h⟩ := numeral_exists text
  rw [strtoul_numeral h]
  obtain ⟨blanks, sign, rest, rfl, hblanks, hsign, hdigits, hrest, hnone⟩ := h
  refine strtoul_numeral ⟨blanks, sign, rest ++ 0 :: more, by simp, hblanks, hsign, hdigits, ?_, ?_⟩
  · cases rest with
    | nil => rfl
    | cons b rest => exact hrest
  · intro hempty
    cases rest with
    | nil => exact ⟨rfl, (by decide : (0 : UInt8) ≠ 43), (by decide : (0 : UInt8) ≠ 45)⟩
    | cons b rest => exact hnone hempty

end ChordDht
