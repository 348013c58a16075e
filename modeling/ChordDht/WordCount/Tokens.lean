/-
What the counting and the formats come to.

A text counts as its words, the maximal runs of letters in lower case: `tokenize_words`.
A token is a word with a positive count; writing tokens and reading them back is putting
them into a map, `parse_tokens`, and what is written of a map is the longest part of its
entries that fits, `toMapFormat_fitPrefix` and `toReduceFormat_fitPrefix`.
-/
import ChordDht.Lib.Runs
import ChordDht.WordCount.Formats

namespace ChordDht.WordCount

/-- The words of a text. -/
def words (text : Bytes) : List Bytes := (runs isAlpha text).map lower

/-- As they are counted: the word buffer holds no more than 255 letters. -/
def cutWords (text : Bytes) : List Bytes := (runs isAlpha text).map fun r => (lower r).take wordMax

def ones (ws : List Bytes) : List (Bytes × ℤ) := ws.map fun w => (w, 1)

/-! ### Counting -/

/-- Letters are kept in lower case, the first 255 of them. -/
theorem pushLetter_take (r : Bytes) (c : UInt8) :
    pushLetter ((lower r).take wordMax) c = (lower (r ++ [c])).take wordMax := by
  have hlower : lower (r ++ [c]) = lower r ++ [toLower c] := by simp [lower]
  rw [pushLetter, hlower, List.length_take]
  by_cases h : (lower r).length < wordMax
  · rw [if_pos (by omega), List.take_of_length_le (Nat.le_of_lt h), List.take_of_length_le]
    rw [List.length_append, List.length_singleton]
    omega
  · rw [if_neg (by omega), List.take_append_of_le_length (by omega)]

theorem tokenize_run {run : Bytes} (hall : ∀ c ∈ run, isAlpha c = true) (hm : HashMap) :
    ∀ (r : Bytes), run.foldl tokenizeStep (hm, (lower r).take wordMax)
      = (hm, (lower (r ++ run)).take wordMax) := by
  induction run with
  | nil => intro r; simp
  | cons c run ih =>
      intro r
      have hc : isAlpha c = true := hall c (List.mem_cons_self ..)
      rw [List.foldl_cons, tokenizeStep, if_pos hc, pushLetter_take,
        ih (fun d hd => hall d (List.mem_cons_of_mem _ hd)), List.append_assoc, List.singleton_append]

/-- **A text is counted word by word.** -/
theorem tokenize_words (text : Bytes) : ∀ (hm : HashMap),
    tokenizeEnd (text.foldl tokenizeStep (hm, [])) = putAll hm (ones (cutWords text)) := by
  have hword : ∀ {run : Bytes}, run ≠ [] → 0 < ((lower run).take wordMax).length := by
    intro run hne
    have hpos := List.length_pos_iff.mpr hne
    have hmax : wordMax = 255 := rfl
    rw [List.length_take, lower, List.length_map]
    omega
  have hrun : ∀ {run : Bytes}, (∀ c ∈ run, isAlpha c = true) → ∀ (hm : HashMap),
      run.foldl tokenizeStep (hm, []) = (hm, (lower run).take wordMax) := by
    intro run hall hm
    exact tokenize_run hall hm []
  induction text using @runs_induction UInt8 isAlpha with
  | nil => intro hm; rfl
  | separator c more hc ih =>
      intro hm
      have hstep : tokenizeStep (hm, []) c = (hm, []) := by
        rw [tokenizeStep, if_neg (by rw [hc]; decide)]
        rfl
      rw [List.foldl_cons, hstep, ih hm, cutWords, cutWords, runs_cons more hc]
  | last run hne hall =>
      intro hm
      rw [hrun hall, tokenizeEnd, if_pos (hword hne), cutWords, runs_self hne hall]
      rfl
  | run run c more hne hall hc ih =>
      intro hm
      have hstep : tokenizeStep (hm, (lower run).take wordMax) c
          = (hmPutInc hm ((lower run).take wordMax) 1, []) := by
        rw [tokenizeStep, if_neg (by rw [hc]; decide), if_pos (hword hne)]
      have hcut : cutWords (run ++ c :: more) = (lower run).take wordMax :: cutWords more := by
        rw [cutWords, runs_first hne hall hc]
        rfl
      rw [List.foldl_append, List.foldl_cons, hrun hall, hstep, ih, hcut]
      rfl

/-! ### Tokens -/

/-- A word and a count as they stand in a message. -/
structure Token (t : Bytes × ℤ) : Prop where
  nonempty : t.1 ≠ []
  letters : ∀ c ∈ t.1, isAlpha c = true
  lower : lower t.1 = t.1
  short : t.1.length ≤ wordMax
  pos : 0 < t.2

def mapEntry (t : Bytes × ℤ) : Bytes := t.1 ++ List.replicate t.2.toNat 49

def reduceEntry (t : Bytes × ℤ) : Bytes := t.1 ++ decimalInt t.2

theorem mapEntry_length {t : Bytes × ℤ} (h : 0 ≤ t.2) : ((mapEntry t).length : ℤ) = t.1.length + t.2 := by
  rw [mapEntry, List.length_append, List.length_replicate]
  omega

theorem reduceEntry_digits {t : Bytes × ℤ} (h : Token t) : ∀ c ∈ decimalInt t.2, isDigit c = true := by
  have hpos := h.pos
  rw [decimalInt, if_neg (by omega)]
  exact isDigit_of_mem_decimal _

/-- A count that is in range has few digits. -/
theorem decimalInt_short {n : ℤ} (hpos : 0 < n) (h : n < 2 ^ 32) : (decimalInt n).length < 32 := by
  have hshort := @decimal_length_le n.toNat 10 (by omega) (by omega)
  rw [decimalInt, if_neg (by omega)]
  omega

theorem reduceEntry_pos {t : Bytes × ℤ} (h : Token t) : 0 < (reduceEntry t).length := by
  have hpos := List.length_pos_iff.mpr h.nonempty
  rw [reduceEntry, List.length_append]
  omega

/-- Each entry is a byte long at least. -/
theorem length_le_flatMap {entry : Bytes × ℤ → Bytes} {ts : List (Bytes × ℤ)}
    (h : ∀ t ∈ ts, 0 < (entry t).length) : ts.length ≤ (ts.flatMap entry).length := by
  have hle := List.length_le_sum_of_one_le (ts.map fun t => (entry t).length) ?_
  · rwa [List.length_map, ← List.length_flatMap] at hle
  · intro n hn
    obtain ⟨t, ht, rfl⟩ := List.mem_map.mp hn
    exact h t ht

theorem map_length {ts : List (Bytes × ℤ)} (h : ∀ t ∈ ts, 0 ≤ t.2) :
    ((ts.flatMap mapEntry).length : ℤ) = weight ts := by
  induction ts with
  | nil => rfl
  | cons t ts ih =>
      have ht := mapEntry_length (h t (List.mem_cons_self ..))
      have hts := ih fun u hu => h u (List.mem_cons_of_mem _ hu)
      rw [List.flatMap_cons, List.length_append, weight_cons]
      omega

/-! ### Reading tokens back -/

theorem parse_letters {run : Bytes} (hall : ∀ c ∈ run, isAlpha c = true) (count : ℤ) (hm : HashMap) :
    ∀ (r : Bytes), run.foldl parseStep ⟨.inWord, (lower r).take wordMax, count, hm⟩
      = ⟨.inWord, (lower (r ++ run)).take wordMax, count, hm⟩ := by
  induction run with
  | nil => intro r; simp
  | cons c run ih =>
      intro r
      have hc : isAlpha c = true := hall c (List.mem_cons_self ..)
      have hstep : parseStep ⟨.inWord, (lower r).take wordMax, count, hm⟩ c
          = ⟨.inWord, (lower (r ++ [c])).take wordMax, count, hm⟩ := by
        simp only [parseStep, hc, if_true, pushLetter_take]
      rw [List.foldl_cons, hstep, ih (fun d hd => hall d (List.mem_cons_of_mem _ hd)), List.append_assoc,
        List.singleton_append]

theorem parse_ones (word : Bytes) (hm : HashMap) : ∀ (n : Nat) (count : ℤ),
    (List.replicate n 49).foldl parseStep ⟨.inOnes, word, count, hm⟩
      = ⟨.inOnes, word, count + n, hm⟩ := by
  intro n
  induction n with
  | zero => intro count; simp
  | succ n ih =>
      intro count
      have hstep : parseStep ⟨.inOnes, word, count, hm⟩ 49 = ⟨.inOnes, word, count + 1, hm⟩ := rfl
      rw [List.replicate_succ, List.foldl_cons, hstep, ih]
      congr 1
      omega

/-- Between two tokens. -/
def Parser.Between (p : Parser) : Prop := p.state = .start ∨ p.state = .inOnes

/-- One token is put when the next one begins. -/
theorem parse_token {t : Bytes × ℤ} (ht : Token t) {p : Parser} (hp : p.Between) :
    (mapEntry t).foldl parseStep p = ⟨.inOnes, t.1, t.2, parseEnd p⟩ := by
  obtain ⟨c, run, hword⟩ := List.exists_cons_of_ne_nil ht.nonempty
  have hletters := ht.letters
  rw [hword] at hletters
  have hc : isAlpha c = true := hletters c (List.mem_cons_self ..)
  have hone : ¬ c = 49 := by
    intro h
    rw [h] at hc
    exact absurd hc (by decide)
  obtain ⟨count, hfirst⟩ : ∃ count, parseStep p c = ⟨.inWord, (lower [c]).take wordMax, count, parseEnd p⟩ := by
    rcases hp with hstate | hstate
    · refine ⟨p.count, ?_⟩
      simp only [parseStep, parseEnd, hstate, hc, if_true]
      rfl
    · refine ⟨0, ?_⟩
      simp only [parseStep, parseEnd, hstate, hc, hone, if_true, if_false]
      rfl
  have hrun := parse_letters (fun d hd => hletters d (List.mem_cons_of_mem _ hd)) count (parseEnd p) [c]
  obtain ⟨n, hn⟩ : ∃ n : Nat, t.2 = 1 + n := ⟨(t.2 - 1).toNat, by have := ht.pos; omega⟩
  have hcount : t.2.toNat = n + 1 := by omega
  have hkept : (lower ([c] ++ run)).take wordMax = t.1 := by
    rw [List.singleton_append, ← hword, ht.lower, List.take_of_length_le ht.short]
  have hbegin : parseStep ⟨.inWord, t.1, count, parseEnd p⟩ 49 = ⟨.inOnes, t.1, 1, parseEnd p⟩ := rfl
  rw [mapEntry, List.foldl_append, hcount, List.replicate_succ, List.foldl_cons]
  conv_lhs => rw [hword]
  rw [List.foldl_cons, hfirst, hrun, hkept, hbegin, parse_ones, hn]

/-- **Tokens are put as they are read.** -/
theorem parse_tokens : ∀ (ts : List (Bytes × ℤ)), (∀ t ∈ ts, Token t) → ∀ {p : Parser}, p.Between →
    parseEnd ((ts.flatMap mapEntry).foldl parseStep p) = putAll (parseEnd p) ts := by
  intro ts
  induction ts with
  | nil => intro _ p _; rfl
  | cons t ts ih =>
      intro hts p hp
      have ht := hts t (List.mem_cons_self ..)
      have hput : parseEnd ⟨.inOnes, t.1, t.2, parseEnd p⟩ = hmPutInc (parseEnd p) t.1 t.2 := by
        have hlen := List.length_pos_iff.mpr ht.nonempty
        rw [parseEnd, if_pos rfl, Parser.finalize]
        exact if_pos ⟨hlen, ht.pos⟩
      rw [List.flatMap_cons, List.foldl_append, parse_token ht hp,
        ih (fun u hu => hts u (List.mem_cons_of_mem _ hu)) (Or.inr rfl), hput]
      rfl

/-! ### Writing what fits -/

/-- The longest part of the entries that is written: behind `used` bytes, each needs room
for its text and for the zero at the end. -/
def fitPrefix (entry : Bytes × ℤ → Bytes) (maxLen : Nat) : Nat → List (Bytes × ℤ) → List (Bytes × ℤ)
  | _, [] => []
  | used, t :: ts =>
      if used + (entry t).length + 1 ≤ maxLen then
        t :: fitPrefix entry maxLen (used + (entry t).length) ts
      else []

section FitPrefix

variable {entry : Bytes × ℤ → Bytes} {maxLen : Nat}

theorem fitPrefix_prefix : ∀ (ts : List (Bytes × ℤ)) (used : Nat),
    fitPrefix entry maxLen used ts <+: ts := by
  intro ts
  induction ts with
  | nil => intro used; exact List.prefix_refl _
  | cons t ts ih =>
      intro used
      rw [fitPrefix]
      split
      · exact List.prefix_cons_inj t |>.mpr (ih _)
      · exact List.nil_prefix

/-- There is room for what is written, and for the zero. -/
theorem fitPrefix_room (ts : List (Bytes × ℤ)) : ∀ used, fitPrefix entry maxLen used ts = [] ∨
    used + ((fitPrefix entry maxLen used ts).flatMap entry).length + 1 ≤ maxLen := by
  induction ts with
  | nil => intro used; exact Or.inl rfl
  | cons t ts ih =>
      intro used
      rw [fitPrefix]
      by_cases h : used + (entry t).length + 1 ≤ maxLen
      · refine Or.inr ?_
        rw [if_pos h, List.flatMap_cons, List.length_append]
        rcases ih (used + (entry t).length) with hnone | hroom
        · rw [hnone, List.flatMap_nil, List.length_nil]
          omega
        · omega
      · exact Or.inl (if_neg h)

/-- **All of it is written exactly when** all of it fits. -/
theorem fitPrefix_eq_self : ∀ (ts : List (Bytes × ℤ)) (used : Nat), used + 1 ≤ maxLen →
    (fitPrefix entry maxLen used ts = ts ↔ used + (ts.flatMap entry).length + 1 ≤ maxLen) := by
  intro ts
  induction ts with
  | nil => intro used hused; simpa [fitPrefix] using hused
  | cons t ts ih =>
      intro used hused
      rw [fitPrefix, List.flatMap_cons, List.length_append, ← Nat.add_assoc]
      by_cases h : used + (entry t).length + 1 ≤ maxLen
      · rw [if_pos h, List.cons.injEq, ← ih _ h]
        exact ⟨fun hc => hc.2, fun hc => ⟨rfl, hc⟩⟩
      · rw [if_neg h]
        constructor
        · intro hc
          exact nomatch hc
        · intro hc
          omega

end FitPrefix

/-- Numbers below `2 ^ 64` are not changed by the conversion. -/
theorem sizeT_eq {x : ℤ} {n : Nat} (h : x = n) (hn : n < 2 ^ 64) : sizeT x = n := by
  rw [sizeT, h]
  omega

/-- What both callbacks of `hm_foreach` do with one entry: they append its text if there
is room for it and a zero, and nothing after an entry there was no room for. -/
structure Appends (entry : Bytes × ℤ → Bytes) (maxLen : Nat)
    (append : FormatCtx → Bytes × ℤ → FormatCtx) (t : Bytes × ℤ) : Prop where
  full : ∀ buffer, append ⟨buffer, true⟩ t = ⟨buffer, true⟩
  room : ∀ buffer : Bytes, buffer.length + (entry t).length + 1 < 2 ^ 64 →
    append ⟨buffer, false⟩ t =
      if buffer.length + (entry t).length + 1 ≤ maxLen then ⟨buffer ++ entry t, false⟩ else ⟨buffer, true⟩

section Appends

variable {entry : Bytes × ℤ → Bytes} {maxLen : Nat} {append : FormatCtx → Bytes × ℤ → FormatCtx}

theorem fold_full (buffer : Bytes) : ∀ (ts : List (Bytes × ℤ)),
    (∀ t ∈ ts, Appends entry maxLen append t) → ts.foldl append ⟨buffer, true⟩ = ⟨buffer, true⟩ := by
  intro ts
  induction ts with
  | nil => intro _; rfl
  | cons t ts ih =>
      intro hts
      rw [List.foldl_cons, (hts t (List.mem_cons_self ..)).full]
      exact ih fun u hu => hts u (List.mem_cons_of_mem _ hu)

/-- **All callbacks together** write the longest part that fits, and set the flag when that is
not all.  No sum leaves the range of a `size_t`, what is written being no more than `size`. -/
theorem fold_fitPrefix (size : Nat) : ∀ (ts : List (Bytes × ℤ)) (buffer : Bytes),
    (∀ t ∈ ts, Appends entry maxLen append t) → buffer.length ≤ size →
      maxLen ≤ size ∨ buffer.length + (ts.flatMap entry).length ≤ size →
        (∀ t ∈ ts, size + (entry t).length + 1 < 2 ^ 64) →
          (ts.foldl append ⟨buffer, false⟩).buffer
              = buffer ++ (fitPrefix entry maxLen buffer.length ts).flatMap entry ∧
            ((ts.foldl append ⟨buffer, false⟩).overflow = false ↔
              fitPrefix entry maxLen buffer.length ts = ts) := by
  intro ts
  induction ts with
  | nil => intro buffer _ _ _ _; simp [fitPrefix]
  | cons t ts ih =>
      intro buffer hts hbuffer hsmall hsize
      have hrest : ∀ u ∈ ts, Appends entry maxLen append u := fun u hu => hts u (List.mem_cons_of_mem _ hu)
      have hone := hsize t (List.mem_cons_self ..)
      rw [List.flatMap_cons, List.length_append] at hsmall
      rw [List.foldl_cons, (hts t (List.mem_cons_self ..)).room buffer (by omega), fitPrefix]
      by_cases h : buffer.length + (entry t).length + 1 ≤ maxLen
      · obtain ⟨hwritten, hflag⟩ := ih (buffer ++ entry t) hrest (by rw [List.length_append]; omega)
          (by rw [List.length_append]; omega) fun u hu => hsize u (List.mem_cons_of_mem _ hu)
        rw [List.length_append] at hwritten hflag
        rw [if_pos h, if_pos h, hwritten, List.flatMap_cons, List.append_assoc, List.cons.injEq, hflag]
        exact ⟨rfl, ⟨fun hall => ⟨rfl, hall⟩, fun hall => hall.2⟩⟩
      · rw [if_neg h, if_neg h, fold_full buffer ts hrest, List.flatMap_nil, List.append_nil]
        simp

/-- One entry is no longer than all of them. -/
theorem entry_length_le {ts : List (Bytes × ℤ)} {t : Bytes × ℤ} (ht : t ∈ ts) :
    (entry t).length ≤ (ts.flatMap entry).length := by
  rw [List.length_flatMap]
  exact List.le_sum_of_mem (List.mem_map.mpr ⟨t, ht, rfl⟩)

theorem entry_sizes {ts : List (Bytes × ℤ)} (h : 2 * (ts.flatMap entry).length + 1 < 2 ^ 64) :
    ∀ t ∈ ts, (ts.flatMap entry).length + (entry t).length + 1 < 2 ^ 64 := by
  intro t ht
  have hle := @entry_length_le entry ts t ht
  omega

/-- With room for everything the flag is not set. -/
theorem fold_room {ts : List (Bytes × ℤ)} (hts : ∀ t ∈ ts, Appends entry maxLen append t)
    (hroom : (ts.flatMap entry).length + 1 ≤ maxLen) (hmax : maxLen < 2 ^ 63) :
    ts.foldl append ⟨[], false⟩ = ⟨ts.flatMap entry, false⟩ := by
  have hall : fitPrefix entry maxLen 0 ts = ts := (fitPrefix_eq_self ts 0 (by omega)).mpr (by omega)
  have hsize : ∀ t ∈ ts, maxLen + (entry t).length + 1 < 2 ^ 64 := by
    intro t ht
    have hle := @entry_length_le entry ts t ht
    omega
  obtain ⟨hwritten, hflag⟩ := fold_fitPrefix maxLen ts [] hts (Nat.zero_le _) (Or.inl (Nat.le_refl _)) hsize
  rw [List.length_nil, hall] at hwritten hflag
  rw [FormatCtx.mk.injEq]
  exact ⟨hwritten, hflag.mpr rfl⟩

/-- With no room for a letter and the zero nothing is written. -/
theorem fitPrefix_small {ts : List (Bytes × ℤ)} (hpos : ∀ t ∈ ts, 0 < (entry t).length) (h : maxLen ≤ 1) :
    fitPrefix entry maxLen 0 ts = [] := by
  cases ts with
  | nil => rfl
  | cons t ts =>
      have ht := hpos t (List.mem_cons_self ..)
      rw [fitPrefix, if_neg (by omega)]

end Appends

theorem appends_map {t : Bytes × ℤ} (h : 0 ≤ t.2) (maxLen : Nat) :
    Appends mapEntry maxLen (appendMapEntry maxLen) t := by
  refine ⟨fun _ => rfl, ?_⟩
  intro buffer hsize
  have hlen := mapEntry_length h
  have hneeded : sizeT (t.1.length + t.2 + 1) = (mapEntry t).length + 1 :=
    sizeT_eq (by omega) (by omega)
  have htotal : sizeT (buffer.length + sizeT (t.1.length + t.2 + 1))
      = buffer.length + (mapEntry t).length + 1 := by
    rw [hneeded]
    exact sizeT_eq (by omega) (by omega)
  simp only [appendMapEntry, Bool.false_eq_true, if_false, htotal]
  by_cases hroom : buffer.length + (mapEntry t).length + 1 ≤ maxLen
  · rw [if_neg (by omega), if_pos hroom]
    rfl
  · rw [if_pos (by omega), if_neg hroom]

theorem appends_reduce {t : Bytes × ℤ} (h : (decimalInt t.2).length < 32) (maxLen : Nat) :
    Appends reduceEntry maxLen (appendReduceEntry maxLen) t := by
  refine ⟨fun _ => rfl, ?_⟩
  intro buffer hsize
  have hlen : (reduceEntry t).length = t.1.length + (decimalInt t.2).length := List.length_append
  have hneeded : sizeT (t.1.length + (decimalInt t.2).length + 1) = (reduceEntry t).length + 1 :=
    sizeT_eq (by omega) (by omega)
  have htotal : sizeT (buffer.length + sizeT (t.1.length + (decimalInt t.2).length + 1))
      = buffer.length + (reduceEntry t).length + 1 := by
    rw [hneeded]
    exact sizeT_eq (by omega) (by omega)
  have hdigits : ¬ 32 ≤ (decimalInt t.2).length := by omega
  simp only [appendReduceEntry, Bool.false_eq_true, if_false, hdigits, htotal]
  by_cases hroom : buffer.length + (reduceEntry t).length + 1 ≤ maxLen
  · rw [if_neg (by omega), if_pos hroom]
    rfl
  · rw [if_pos (by omega), if_neg hroom]

/-- **A reply to a map request** is as much of the entries as fits. -/
theorem toMapFormat_fitPrefix {hm : HashMap} {maxLen size : Nat} (hpos : ∀ t ∈ hm.entries, 0 < t.2)
    (hsmall : maxLen ≤ size ∨ (hm.entries.flatMap mapEntry).length ≤ size)
    (hsize : ∀ t ∈ hm.entries, size + (mapEntry t).length + 1 < 2 ^ 64) :
    wcToMapFormat hm maxLen = (fitPrefix mapEntry maxLen 0 hm.entries).flatMap mapEntry := by
  have hone : ∀ t ∈ hm.entries, 0 < (mapEntry t).length := by
    intro t ht
    have hlen := mapEntry_length (Int.le_of_lt (hpos t ht))
    have hcount := hpos t ht
    omega
  rw [wcToMapFormat]
  split
  · rename_i hnone
    rw [fitPrefix_small hone hnone, List.flatMap_nil]
  · exact (fold_fitPrefix size hm.entries [] (fun t ht => appends_map (Int.le_of_lt (hpos t ht)) maxLen)
      (Nat.zero_le _) (by rwa [List.length_nil, Nat.zero_add]) hsize).1

/-- **A reply to a reduce request** is as much of the entries as fits. -/
theorem toReduceFormat_fitPrefix {hm : HashMap} {maxLen size : Nat}
    (hone : ∀ t ∈ hm.entries, 0 < (reduceEntry t).length)
    (hdigits : ∀ t ∈ hm.entries, (decimalInt t.2).length < 32)
    (hsmall : maxLen ≤ size ∨ (hm.entries.flatMap reduceEntry).length ≤ size)
    (hsize : ∀ t ∈ hm.entries, size + (reduceEntry t).length + 1 < 2 ^ 64) :
    wcToReduceFormat hm maxLen = (fitPrefix reduceEntry maxLen 0 hm.entries).flatMap reduceEntry := by
  rw [wcToReduceFormat]
  split
  · rename_i hnone
    rw [fitPrefix_small hone hnone, List.flatMap_nil]
  · exact (fold_fitPrefix size hm.entries [] (fun t ht => appends_reduce (hdigits t ht) maxLen)
      (Nat.zero_le _) (by rwa [List.length_nil, Nat.zero_add]) hsize).1

end ChordDht.WordCount
