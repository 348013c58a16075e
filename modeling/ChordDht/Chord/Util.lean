/-
`chord-node/util.c`: searching memory and hashing a URI.

`memstr` looks for a text in memory that is not a C string.  Its loop moves the scan
pointer to the next occurrence of the text's first byte and compares there; when the
comparison fails it scans again from the very same byte, finds it again, and never
moves on.  `memstrLoop_eq` is that loop, for every amount of fuel; `memstr_eq` says what
the function comes to without mentioning fuel, and `finds_first_iff` when that is the
first occurrence.
-/
import ChordDht.Lib.CString
import ChordDht.Lib.Outcome
import ChordDht.Lib.Search

namespace ChordDht.Chord

/-- The loop of `memstr`, with the scan pointer at offset `haystack`. -/
def memstrLoop (mem : Bytes) (n : Nat) (needle : Bytes) : Nat → Nat → Outcome (Option Nat)
  | 0, _ => .diverges
  | fuel + 1, haystack =>
      match memchr (mem.drop haystack) (needle.headD 0) (n - haystack) with
      | none => .returns none
      | some k =>
          if strncmp (mem.drop (haystack + k)) needle needle.length then
            .returns (some (haystack + k))
          else memstrLoop mem n needle fuel (haystack + k)

/-- `memstr(haystack, n, needle)`, as an offset; a scan that visits a byte twice is stuck. -/
def memstr (mem : Bytes) (n : Nat) (needle : Bytes) : Outcome (Option Nat) :=
  memstrLoop mem n needle 2 0

/-- The sum of the big-endian words of a buffer of even length. -/
def hashWords (hash : UInt32) : Bytes → UInt32
  | hi :: lo :: rest => hashWords (hash + (hi.toUInt32 <<< (8 : UInt32) ||| lo.toUInt32)) rest
  | _ => hash

def pseudoHash (buffer : Bytes) : UInt16 :=
  let padded := if buffer.length % 2 = 1 then buffer ++ [0] else buffer
  let hash := hashWords 0 padded
  let folded : UInt32 := (hash &&& (0xFFFF : UInt32)) + (hash >>> (16 : UInt32))
  (~~~folded).toUInt16

/-! ### What the scan of `memstr` comes to -/

/-- Standing on the first byte of the needle without a match, the loop stays there. -/
theorem memstrLoop_stuck {mem needle : Bytes} {n i : Nat} (hi : i < n)
    (hbyte : mem[i]? = some (needle.headD 0))
    (hne : strncmp (mem.drop i) needle needle.length = false) :
    ∀ fuel, memstrLoop mem n needle fuel i = .diverges := by
  intro fuel
  induction fuel with
  | zero => rfl
  | succ fuel ih =>
      obtain ⟨hlt, hval⟩ := List.getElem?_eq_some_iff.mp hbyte
      have hdrop : mem.drop i = [] ++ needle.headD 0 :: mem.drop (i + 1) := by
        rw [List.nil_append, ← hval, ← List.drop_eq_getElem_cons hlt]
      have hfound : memchr (mem.drop i) (needle.headD 0) (n - i) = some 0 := by
        rw [hdrop]
        exact memchr_append_of_notMem (by simp) (by simpa using Nat.sub_pos_of_lt hi)
      rw [memstrLoop, hfound]
      simpa [hne] using ih

/-- The loop makes one comparison, and with any more fuel it comes to nothing else. -/
theorem memstrLoop_eq (mem : Bytes) (n : Nat) (needle : Bytes) (fuel : Nat) :
    memstrLoop mem n needle (fuel + 1) 0 =
      match memchr mem (needle.headD 0) n with
      | none => .returns none
      | some k =>
          if strncmp (mem.drop k) needle needle.length then .returns (some k) else .diverges := by
  rw [memstrLoop, List.drop_zero, Nat.sub_zero]
  cases hk : memchr mem (needle.headD 0) n with
  | none => rfl
  | some k =>
      obtain ⟨hlt, hbyte, -⟩ := memchr_eq_some hk
      by_cases hcmp : strncmp (mem.drop k) needle needle.length = true
      · simp [hcmp]
      · have hfalse : strncmp (mem.drop k) needle needle.length = false := by simpa using hcmp
        simp only [Nat.zero_add, hfalse]
        exact memstrLoop_stuck hlt hbyte hfalse fuel

/-- **`memstr` looks at one place only**: the first byte of the searched memory that
starts the needle.  If the needle is not there the call never returns. -/
theorem memstr_eq (mem : Bytes) (n : Nat) (needle : Bytes) :
    memstr mem n needle =
      match memchr mem (needle.headD 0) n with
      | none => .returns none
      | some k =>
          if strncmp (mem.drop k) needle needle.length then .returns (some k) else .diverges :=
  memstrLoop_eq mem n needle 1

/-- The search writes nothing. -/
theorem memstr_ne_faults (mem : Bytes) (n : Nat) (needle : Bytes) : memstr mem n needle ≠ .faults := by
  rw [memstr_eq]
  split
  · simp
  · split <;> simp

/-! ### The first occurrence -/

/-- The loop ends, on the first place of the needle in the haystack, or on none. -/
def FindsFirst (hay : Bytes) (padding : Nat) (needle : Bytes) : Prop :=
  ∃ fuel, memstrLoop (hay ++ List.replicate padding 0) hay.length needle fuel 0
    = .returns (search needle hay)

/-- The zero bytes behind the haystack are no part of the needle. -/
theorem prefix_zeros {needle : Bytes} (hzero : (0 : UInt8) ∉ needle) (hay : Bytes) (padding : Nat) :
    needle <+: hay ++ List.replicate padding 0 ↔ needle <+: hay := by
  constructor
  · intro h
    by_cases hlen : needle.length ≤ hay.length
    · exact List.prefix_of_prefix_length_le h (List.prefix_append ..) hlen
    · exfalso
      obtain ⟨rest, hrest⟩ : hay <+: needle :=
        List.prefix_of_prefix_length_le (List.prefix_append ..) h (by omega)
      rw [← hrest, List.prefix_append_right_inj] at h
      rw [← hrest] at hlen hzero
      obtain ⟨b, hb⟩ := List.exists_mem_of_ne_nil rest (by
        intro hc
        rw [hc, List.append_nil] at hlen
        exact hlen (Nat.le_refl _))
      have hmem := h.subset hb
      rw [List.eq_of_mem_replicate hmem] at hb
      exact hzero (List.mem_append_right _ hb)
  · intro h
    exact h.trans (List.prefix_append ..)

theorem strncmp_padded {hay needle : Bytes} {k padding : Nat} (hzero : (0 : UInt8) ∉ needle)
    (hk : k ≤ hay.length) :
    strncmp ((hay ++ List.replicate padding 0).drop k) needle needle.length = true ↔ needle <+: hay.drop k := by
  rw [strncmp_length hzero, List.drop_append_of_le_length hk, eq_comm, ← List.prefix_iff_eq_take,
    prefix_zeros hzero]

/-- In front of its first byte the needle does not stand. -/
theorem not_prefix_drop {hay needle : Bytes} {k j : Nat} (hne : needle ≠ [])
    (hk : needle.headD 0 ∉ hay.take k) (hj : j < k) : ¬ needle <+: hay.drop j := by
  intro h
  obtain ⟨c, cs, rfl⟩ := List.exists_cons_of_ne_nil hne
  obtain ⟨rest, hrest⟩ := h
  have hget : hay[j]? = some c := by
    rw [← List.head?_drop, ← hrest]
    rfl
  refine hk (List.mem_iff_getElem?.mpr ⟨j, ?_⟩)
  rw [List.getElem?_take_of_lt hj, hget]
  rfl

/-- **When `memstr` finds the first occurrence**: if where the needle's first byte first
stands, the needle does. -/
theorem finds_first_iff {needle : Bytes} (hne : needle ≠ []) (hzero : (0 : UInt8) ∉ needle) (hay : Bytes)
    (padding : Nat) : FindsFirst hay padding needle ↔
      ∀ k, hay.findIdx? (· == needle.headD 0) = some k → needle <+: hay.drop k := by
  have hchr : memchr (hay ++ List.replicate padding 0) (needle.headD 0) hay.length
      = hay.findIdx? (· == needle.headD 0) := by
    rw [memchr, List.take_left]
  have hloop : ∀ fuel, memstrLoop (hay ++ List.replicate padding 0) hay.length needle (fuel + 1) 0 =
      match hay.findIdx? (· == needle.headD 0) with
      | none => .returns none
      | some k =>
          if strncmp ((hay ++ List.replicate padding 0).drop k) needle needle.length
            then .returns (some k) else .diverges := by
    intro fuel
    rw [memstrLoop_eq, hchr]
  have hhead : ∀ {t : Bytes}, needle <+: t → needle.headD 0 ∈ t := by
    intro t ht
    obtain ⟨c, cs, rfl⟩ := List.exists_cons_of_ne_nil hne
    exact ht.subset (List.mem_cons_self ..)
  cases hfirst : hay.findIdx? (· == needle.headD 0) with
  | none =>
      have hnot : search needle hay = none := by
        rw [search_eq_none]
        rintro ⟨front, back, hhay⟩
        have hmem := hhead (List.prefix_append needle back)
        have hmiss := List.findIdx?_eq_none_iff.mp hfirst (needle.headD 0) (by
          rw [← hhay, List.append_assoc]
          exact List.mem_append_right _ hmem)
        simp at hmiss
      refine iff_of_true ⟨1, ?_⟩ ?_
      · rw [hloop, hfirst, hnot]
      · intro k hk
        cases hk
  | some k =>
      have hspot : memchr hay (needle.headD 0) hay.length = some k := by
        rw [memchr, List.take_length, hfirst]
      obtain ⟨hlt, -, hbefore⟩ := memchr_eq_some hspot
      have hcmp := @strncmp_padded hay needle k padding hzero (by omega)
      constructor
      · rintro ⟨fuel, hfuel⟩ k' hk'
        rw [← Option.some.inj hk']
        by_contra hnot
        cases fuel with
        | zero => cases hfuel
        | succ fuel =>
            rw [hloop, hfirst] at hfuel
            simp only [if_neg (hcmp.not.mpr hnot)] at hfuel
            cases hfuel
      · intro h
        have hthere := h k rfl
        have hsearch : search needle hay = some k :=
          search_eq_some.mpr ⟨by omega, hthere, fun j hj => not_prefix_drop hne hbefore hj⟩
        refine ⟨1, ?_⟩
        rw [hloop, hfirst, hsearch]
        simp only [if_pos (hcmp.mpr hthere)]

theorem finds_first_line : FindsFirst (ascii "ab" ++ crlf ++ ascii "cd" ++ crlf) 3 crlf :=
  (finds_first_iff (by decide) (by decide) _ 3).mpr (by decide)

/-- A carriage return in front of the line end: the line end is there, and is never found. -/
theorem torn_line_not_found : crlf ≠ [] ∧ (0 : UInt8) ∉ crlf ∧
    search crlf ([13] ++ crlf) = some 1 ∧ ¬ FindsFirst ([13] ++ crlf) 1 crlf := by
  refine ⟨by decide, by decide, by decide, ?_⟩
  rintro ⟨fuel, hfuel⟩
  cases fuel with
  | zero => cases hfuel
  | succ fuel =>
      rw [memstrLoop_eq] at hfuel
      exact absurd hfuel (by decide)

/-! ### Searching for a line end -/

/-- A line that is there with its end is found. -/
theorem memstr_line {line rest : Bytes} {n : Nat} (hline : (13 : UInt8) ∉ line)
    (hn : line.length < n) :
    memstr (line ++ crlf ++ rest) n crlf = .returns (some line.length) := by
  have hmem : line ++ crlf ++ rest = line ++ 13 :: (10 :: rest) := by simp [crlf]
  have hcmp : strncmp (13 :: 10 :: rest) crlf crlf.length = true := by
    rw [strncmp_length (by decide)]
    rfl
  rw [memstr_eq, hmem]
  have hchr : memchr (line ++ 13 :: (10 :: rest)) (crlf.headD 0) n = some line.length :=
    memchr_append_of_notMem hline hn
  rw [hchr]
  simp [hcmp]

/-- Without a carriage return among the received bytes there is no line yet. -/
theorem memstr_none {mem : Bytes} {n : Nat} (h : (13 : UInt8) ∉ mem.take n) :
    memstr mem n crlf = .returns none := by
  rw [memstr_eq]
  have hchr : memchr mem (crlf.headD 0) n = none := memchr_eq_none h
  rw [hchr]

/-- **A carriage return without its line feed freezes the node.** -/
theorem memstr_torn {line rest : Bytes} {n : Nat} (hline : (13 : UInt8) ∉ line)
    (hn : line.length < n) (hrest : rest.headD 0 ≠ 10) :
    memstr (line ++ 13 :: rest) n crlf = .diverges := by
  have hcmp : strncmp (13 :: rest) crlf crlf.length = false := by
    rw [Bool.eq_false_iff, Ne, strncmp_length (by decide)]
    cases rest with
    | nil => simp [crlf]
    | cons b rest => simpa [crlf] using hrest
  rw [memstr_eq]
  have hchr : memchr (line ++ 13 :: rest) (crlf.headD 0) n = some line.length :=
    memchr_append_of_notMem hline hn
  rw [hchr]
  simp [hcmp]

end ChordDht.Chord
