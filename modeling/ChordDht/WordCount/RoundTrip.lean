/-
Both formats are read back.

Whatever texts a map was counted from and whatever the limit, what is written is the longest
part of its entries, in their order, that fits the limit with a zero; the parser of each
format reads exactly these entries from it.  So a limit that is too small costs whole
entries, and never a digit or a letter.
-/
import ChordDht.WordCount.Phases
import ChordDht.WordCount.Table

namespace ChordDht.WordCount

/-! ### The longest part that fits -/

/-- What is written of some entries when there are `maxLen` bytes: the first ones, as many as
have room with the zero. -/
structure LongestFit (entry : Bytes × ℤ → Bytes) (maxLen : Nat) (ts written : List (Bytes × ℤ)) : Prop where
  front : written <+: ts
  room : written = [] ∨ (written.flatMap entry).length + 1 ≤ maxLen
  longest : ∀ us, us <+: ts → (us.flatMap entry).length + 1 ≤ maxLen → us <+: written

section FitPrefix

variable {entry : Bytes × ℤ → Bytes} {maxLen : Nat}

/-- Any part that fits is in front of it. -/
theorem fitPrefix_longest (ts : List (Bytes × ℤ)) : ∀ (used : Nat) (us : List (Bytes × ℤ)), us <+: ts →
    used + (us.flatMap entry).length + 1 ≤ maxLen → us <+: fitPrefix entry maxLen used ts := by
  induction ts with
  | nil =>
      intro used us hfront _
      rw [List.prefix_nil.mp hfront]
      exact List.nil_prefix
  | cons t ts ih =>
      intro used us hfront hroom
      cases us with
      | nil => exact List.nil_prefix
      | cons u us =>
          obtain ⟨rfl, hmore⟩ := List.cons_prefix_cons.mp hfront
          rw [List.flatMap_cons, List.length_append] at hroom
          rw [fitPrefix, if_pos (by omega)]
          exact List.cons_prefix_cons.mpr ⟨rfl, ih _ us hmore (by omega)⟩

theorem fitPrefix_fits (ts : List (Bytes × ℤ)) : LongestFit entry maxLen ts (fitPrefix entry maxLen 0 ts) := by
  have hfront : fitPrefix entry maxLen 0 ts <+: ts := fitPrefix_prefix ts 0
  refine ⟨hfront, ?_, ?_⟩
  · have hroom := @fitPrefix_room entry maxLen ts 0
    rwa [Nat.zero_add] at hroom
  · intro us hfront hroom
    exact fitPrefix_longest ts 0 us hfront (by rwa [Nat.zero_add])

end FitPrefix

/-! ### Maps that were counted -/

/-- The words of all texts, as they are counted. -/
def countedWords (texts : List Bytes) : List (Bytes × ℤ) := texts.flatMap fun text => ones (cutWords (cstr text))

/-- **Counting texts** one after the other. -/
theorem Holds.countAll {hm : HashMap} {ts : List (Bytes × ℤ)} (h : Holds hm ts) (texts : List Bytes) :
    Holds (texts.foldl wcTokenizeAndCount hm) (ts ++ countedWords texts) := by
  induction texts generalizing hm ts with
  | nil => rwa [countedWords, List.flatMap_nil, List.append_nil]
  | cons text texts ih =>
      have hrest := ih (h.tokenize text)
      rwa [List.append_assoc] at hrest

/-- The entries of such a map are tokens, each word once. -/
theorem counted_entries (nBuckets : Nat) (texts : List Bytes) :
    Summary (texts.foldl wcTokenizeAndCount (hmCreate nBuckets)).entries ∧
      ∀ t ∈ (texts.foldl wcTokenizeAndCount (hmCreate nBuckets)).entries, Token t := by
  have hholds := (holds_create nBuckets).countAll texts
  rw [List.nil_append] at hholds
  refine ⟨hholds.summary, hholds.tokens ?_⟩
  intro t ht
  obtain ⟨text, -, hmem⟩ := List.mem_flatMap.mp ht
  exact tokens_cut _ t hmem

/-! ### Reading back -/

/-- **Ones are read back.** -/
theorem fromMapFormat_entries {ts : List (Bytes × ℤ)} (hs : Summary ts) (hts : ∀ t ∈ ts, Token t) :
    (wcFromMapFormat (ts.flatMap mapEntry)).entries.Perm ts := by
  rw [fromMapFormat_tokens hts]
  have hholds := holds_tokens hts
  exact hholds.summary.perm hs hholds.tally

/-- **Decimal counts are read back.** -/
theorem parseCounts_entries {ts : List (Bytes × ℤ)} (hs : Summary ts) (hts : ∀ t ∈ ts, Token t) :
    (counts (parseCounts (ts.flatMap reduceEntry).length (ts.flatMap reduceEntry) [])).Perm ts := by
  have hnone : Summary (counts []) := ⟨List.nodup_nil, fun t ht => absurd ht List.not_mem_nil⟩
  have hsummary := accumulateAll_summary (fun t ht => (hts t ht).pos) hnone
  rw [parseCounts_places _ [] (Nat.le_refl _), numbered_tokens hts]
  refine hsummary.perm hs ?_
  intro k
  rw [accumulateAll_tally]
  exact zero_add _

/-- Where there is memory no sum is as large as a `size_t` can be. -/
theorem Malloc.room {malloc : Malloc} {msgLen : Nat}
    (h : malloc.gives (if msgLen ≤ 1 then 1 else msgLen) = true) : msgLen < 2 ^ 63 := by
  have hbounded := malloc.bounded _ h
  by_cases hsmall : msgLen ≤ 1
  · omega
  · rwa [if_neg hsmall] at hbounded

theorem allocated_eq {malloc : Malloc} {msgLen : Nat} {text text' : Bytes} (h : msgLen < 2 ^ 63 → text = text') :
    allocated malloc msgLen text
      = if malloc.gives (if msgLen ≤ 1 then 1 else msgLen) then some text' else none := by
  rw [allocated]
  by_cases hgives : malloc.gives (if msgLen ≤ 1 then 1 else msgLen) = true
  · rw [if_pos hgives, if_pos hgives, h (Malloc.room hgives)]
  · rw [if_neg hgives, if_neg hgives]

/-- **Both formats decode back, and are cut between entries only.**  From a map that any texts
were counted in, any limit and any memory: each of the two functions returns the longest part of
the entries that fits, if there is memory, and the parser for it reads exactly these. -/
theorem formats_read_back (nBuckets : Nat) (texts : List Bytes) (malloc : Malloc) (msgLen : Nat)
    (hint : ∀ t ∈ (texts.foldl wcTokenizeAndCount (hmCreate nBuckets)).entries, t.2 < 2 ^ 31) :
    let hm := texts.foldl wcTokenizeAndCount (hmCreate nBuckets)
    let gives := malloc.gives (if msgLen ≤ 1 then 1 else msgLen)
    (∃ written, LongestFit mapEntry msgLen hm.entries written ∧
      allocated malloc msgLen (wcToMapFormat hm msgLen)
        = (if gives then some (written.flatMap mapEntry) else none) ∧
      (wcFromMapFormat (written.flatMap mapEntry)).entries.Perm written) ∧
    ∃ written, LongestFit reduceEntry msgLen hm.entries written ∧
      allocated malloc msgLen (wcToReduceFormat hm msgLen)
        = (if gives then some (written.flatMap reduceEntry) else none) ∧
      cstr (written.flatMap reduceEntry) = written.flatMap reduceEntry ∧
      (counts (parseCounts (written.flatMap reduceEntry).length (written.flatMap reduceEntry) [])).Perm written := by
  obtain ⟨hsummary, htokens⟩ := counted_entries nBuckets texts
  generalize texts.foldl wcTokenizeAndCount (hmCreate nBuckets) = hm at hint hsummary htokens
  have hword : wordMax = 255 := rfl
  have hshort : ∀ t ∈ hm.entries, (mapEntry t).length < 2 ^ 32 ∧ (reduceEntry t).length < 2 ^ 32 ∧
      (decimalInt t.2).length < 32 := by
    intro t ht
    have htoken := htokens t ht
    have hletters := htoken.short
    have hpos := htoken.pos
    have hcount := hint t ht
    have hlen := mapEntry_length (Int.le_of_lt hpos)
    have hreduce := reduceEntry_length_le htoken
    exact ⟨by omega, by omega, decimalInt_short hpos (by omega)⟩
  refine ⟨⟨fitPrefix mapEntry msgLen 0 hm.entries, fitPrefix_fits _, ?_, ?_⟩,
    ⟨fitPrefix reduceEntry msgLen 0 hm.entries, fitPrefix_fits _, ?_, ?_, ?_⟩⟩
  · refine allocated_eq ?_
    intro hmax
    refine toMapFormat_fitPrefix hsummary.pos (Or.inl (Nat.le_refl msgLen)) ?_
    intro t ht
    have hlen := (hshort t ht).1
    omega
  · have hfront : fitPrefix mapEntry msgLen 0 hm.entries <+: hm.entries := fitPrefix_prefix _ 0
    exact fromMapFormat_entries (hsummary.front hfront) fun t ht => htokens t (hfront.subset ht)
  · refine allocated_eq ?_
    intro hmax
    refine toReduceFormat_fitPrefix (fun t ht => reduceEntry_pos (htokens t ht)) (fun t ht => (hshort t ht).2.2)
      (Or.inl (Nat.le_refl msgLen)) ?_
    intro t ht
    have hlen := (hshort t ht).2.1
    omega
  · have hfront : fitPrefix reduceEntry msgLen 0 hm.entries <+: hm.entries := fitPrefix_prefix _ 0
    exact cstr_eq_self (zero_notMem_reduce fun t ht => htokens t (hfront.subset ht))
  · have hfront : fitPrefix reduceEntry msgLen 0 hm.entries <+: hm.entries := fitPrefix_prefix _ 0
    exact parseCounts_entries (hsummary.front hfront) fun t ht => htokens t (hfront.subset ht)

/-- Two texts, and room for two of their four words. -/
theorem formats_read_back_two :
    ∃ written, LongestFit mapEntry 8
        ([ascii "To be, or", ascii "not to"].foldl wcTokenizeAndCount (hmCreate 4)).entries written ∧
      allocated .plenty 8 (wcToMapFormat ([ascii "To be, or", ascii "not to"].foldl wcTokenizeAndCount (hmCreate 4)) 8)
        = (if Malloc.plenty.gives 8 then some (written.flatMap mapEntry) else none) ∧
      (wcFromMapFormat (written.flatMap mapEntry)).entries.Perm written :=
  (formats_read_back 4 [ascii "To be, or", ascii "not to"] .plenty 8 (by decide +kernel)).1

end ChordDht.WordCount
