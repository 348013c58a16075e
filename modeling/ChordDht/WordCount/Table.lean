/-
The table that is printed.

Reading the replies to the reduce requests is adding what stands where digits follow a
word, which for tokens is the tokens; so the entries are a summary of them.  The
comparison is a linear order, and sorting by it puts entries of different words into the
one order there is: `combine_tokens`.
-/
import ChordDht.Lib.Places
import ChordDht.WordCount.Combine
import ChordDht.WordCount.Tokens

namespace ChordDht.WordCount

/-! ### The order of the rows -/

/-- `strcmp` goes byte by byte. -/
theorem strcmp_eq : ∀ (a b : Bytes), strcmp a b = compare a b := by
  intro a
  induction a with
  | nil =>
      intro b
      cases b with
      | nil => rfl
      | cons y b => rfl
  | cons x a ih =>
      intro b
      cases b with
      | nil => rfl
      | cons y b =>
          rw [List.compare_eq_compareLex, List.compareLex_cons_cons, ← List.compare_eq_compareLex, strcmp, ih]
          by_cases hlt : x < y
          · rw [if_pos hlt, Std.compare_eq_lt.mpr hlt]
            rfl
          · rw [if_neg hlt]
            by_cases hgt : y < x
            · rw [if_pos hgt, Std.compare_eq_gt.mpr hgt]
              rfl
            · have heq : x = y := UInt8.le_antisymm (UInt8.not_lt.mp hgt) (UInt8.not_lt.mp hlt)
              rw [if_neg hgt, heq, Std.compare_self]
              rfl

theorem lt_of_strcmp : ∀ {a b : Bytes}, strcmp a b = .lt → a < b := by
  intro a
  induction a with
  | nil =>
      intro b h
      cases b with
      | nil => cases h
      | cons y b => exact List.nil_lt_cons y b
  | cons x a ih =>
      intro b h
      cases b with
      | nil => cases h
      | cons y b =>
          rw [strcmp] at h
          rw [List.cons_lt_cons_iff]
          by_cases hlt : x < y
          · exact Or.inl hlt
          · rw [if_neg hlt] at h
            by_cases hgt : y < x
            · rw [if_pos hgt] at h
              cases h
            · rw [if_neg hgt] at h
              exact Or.inr ⟨UInt8.le_antisymm (UInt8.not_lt.mp hgt) (UInt8.not_lt.mp hlt), ih h⟩

/-- The comparison goes by the count, the larger first, and then by the word. -/
theorem cmp_eq : cmpByCountDescWordAsc
    = compareLex (fun a b => compareOn Entry.count b a) (compareOn Entry.word) := by
  funext a b
  rw [compareLex, compareOn, compareOn, cmpByCountDescWordAsc, strcmp_eq]
  by_cases hlt : a.count < b.count
  · rw [if_pos hlt, Std.compare_eq_gt.mpr hlt]
    rfl
  · rw [if_neg hlt]
    by_cases hgt : b.count < a.count
    · rw [if_pos hgt, Std.compare_eq_lt.mpr hgt]
      rfl
    · have heq : a.count = b.count := by omega
      rw [if_neg hgt, heq, Std.compare_self]
      rfl

instance : Std.TransCmp cmpByCountDescWordAsc := by
  rw [cmp_eq]
  infer_instance

/-- One row comes before another. -/
def Before (a b : Entry) : Prop := b.count < a.count ∨ a.count = b.count ∧ a.word < b.word

theorem before_of_cmp {a b : Entry} (h : cmpByCountDescWordAsc a b ≠ .gt) (hne : a.word ≠ b.word) :
    Before a b := by
  rw [cmpByCountDescWordAsc] at h
  by_cases hlt : a.count < b.count
  · rw [if_pos hlt] at h
    exact absurd rfl h
  · rw [if_neg hlt] at h
    by_cases hgt : b.count < a.count
    · exact Or.inl hgt
    · rw [if_neg hgt] at h
      refine Or.inr ⟨by omega, ?_⟩
      cases hcmp : strcmp a.word b.word with
      | lt => exact lt_of_strcmp hcmp
      | eq =>
          rw [strcmp_eq] at hcmp
          exact absurd (Std.compare_eq_iff_eq.mp hcmp) hne
      | gt => exact absurd hcmp h

/-- **Sorted entries** of different words are in order. -/
theorem sorted_before {entries : List Entry} (hwords : (entries.map Entry.word).Nodup)
    (hsorted : entries.Pairwise fun a b => cmpByCountDescWordAsc a b ≠ .gt) : entries.Pairwise Before := by
  refine List.Pairwise.imp₂ ?_ hsorted (List.pairwise_map.mp hwords)
  intro a b hcmp hne
  exact before_of_cmp hcmp hne

theorem sortEntries_perm (entries : List Entry) : (sortEntries entries).Perm entries := List.mergeSort_perm _ _

theorem sortEntries_sorted (entries : List Entry) :
    (sortEntries entries).Pairwise fun a b => cmpByCountDescWordAsc a b ≠ .gt := by
  have hsorted : (sortEntries entries).Pairwise fun a b => (cmpByCountDescWordAsc a b != .gt) = true := by
    refine List.pairwise_mergeSort ?_ ?_ entries
    · intro a b c hab hbc
      simp only [bne_iff_ne, Ordering.isLE_iff_ne_gt.symm] at hab hbc ⊢
      exact Std.TransCmp.isLE_trans hab hbc
    · intro a b
      rw [@Std.OrientedCmp.eq_swap _ cmpByCountDescWordAsc _ b a]
      cases cmpByCountDescWordAsc a b with
      | lt => rfl
      | eq => rfl
      | gt => rfl
  exact hsorted.imp fun h => by simpa using h

theorem sortEntries_before {entries : List Entry} (hwords : (entries.map Entry.word).Nodup) :
    (sortEntries entries).Pairwise Before :=
  sorted_before (((sortEntries_perm entries).map Entry.word).nodup_iff.mpr hwords) (sortEntries_sorted entries)

/-! ### Adding up -/

/-- The entries as pairs. -/
def counts (entries : List Entry) : List (Bytes × ℤ) := entries.map fun e => (e.word, e.count)

theorem put_accumulate (word : Bytes) (count : ℤ) (entries : List Entry) :
    Put word count (counts entries) (counts (accumulate word count entries)) := by
  induction entries with
  | nil => exact @Put.new [] [] word List.not_mem_nil count
  | cons e es ih =>
      rw [accumulate]
      by_cases h : e.word = word
      · rw [if_pos h, ← h]
        exact Put.amid [] (counts es) e.word e.count count
      · rw [if_neg h]
        exact ih.there h

/-- All of the tokens are added. -/
def accumulateAll (entries : List Entry) (ts : List (Bytes × ℤ)) : List Entry :=
  ts.foldl (fun es t => accumulate t.1 t.2 es) entries

/-- The tallies of what was added are those of all of it. -/
theorem accumulateAll_tally (ts : List (Bytes × ℤ)) : ∀ (entries : List Entry) (k : Bytes),
    tally (counts (accumulateAll entries ts)) k = tally (counts entries) k + tally ts k := by
  induction ts with
  | nil => intro entries k; exact (add_zero _).symm
  | cons t ts ih =>
      intro entries k
      have hput := (put_accumulate t.1 t.2 entries).tally k
      rw [tally_cons]
      exact (ih (accumulate t.1 t.2 entries) k).trans (by omega)

/-- **The entries are a summary** of what was added. -/
theorem accumulateAll_summary {ts : List (Bytes × ℤ)} (hts : ∀ t ∈ ts, 0 < t.2) :
    ∀ {entries : List Entry}, Summary (counts entries) → Summary (counts (accumulateAll entries ts)) := by
  induction ts with
  | nil => intro entries hs; exact hs
  | cons t ts ih =>
      intro entries hs
      have hput := put_accumulate t.1 t.2 entries
      exact ih (fun u hu => hts u (List.mem_cons_of_mem _ hu)) (hput.summary (hts t (List.mem_cons_self ..)) hs)

/-- The words of the entries are those there were and those that were added. -/
theorem accumulate_words (word : Bytes) (count : ℤ) {entries : List Entry}
    (hwords : (entries.map Entry.word).Nodup) : ((accumulate word count entries).map Entry.word).Nodup ∧
      ∀ w, w ∈ (accumulate word count entries).map Entry.word ↔ w = word ∨ w ∈ entries.map Entry.word := by
  induction entries with
  | nil => exact ⟨List.nodup_singleton _, fun w => by simp [accumulate]⟩
  | cons e es ih =>
      rw [List.map_cons, List.nodup_cons] at hwords
      obtain ⟨hnodup, hmem⟩ := ih hwords.2
      rw [accumulate]
      by_cases h : e.word = word
      · rw [if_pos h, List.map_cons, List.map_cons]
        refine ⟨List.nodup_cons.mpr hwords, ?_⟩
        intro w
        rw [List.mem_cons, ← h]
        exact ⟨Or.inr, fun hc => hc.elim Or.inl id⟩
      · rw [if_neg h, List.map_cons, List.map_cons]
        refine ⟨List.nodup_cons.mpr ⟨?_, hnodup⟩, ?_⟩
        · rw [hmem]
          exact fun hc => hc.elim h hwords.1
        · intro w
          rw [List.mem_cons, List.mem_cons, hmem]
          exact or_left_comm

theorem accumulateAll_words (ts : List (Bytes × ℤ)) : ∀ {entries : List Entry},
    (entries.map Entry.word).Nodup → ((accumulateAll entries ts).map Entry.word).Nodup ∧
      ∀ w, w ∈ (accumulateAll entries ts).map Entry.word ↔ w ∈ ts.map Prod.fst ∨ w ∈ entries.map Entry.word := by
  induction ts with
  | nil => intro entries h; exact ⟨h, fun w => by simp [accumulateAll]⟩
  | cons t ts ih =>
      intro entries h
      obtain ⟨hnodup, hmem⟩ := accumulate_words t.1 t.2 h
      obtain ⟨hnodup', hmem'⟩ := ih hnodup
      refine ⟨hnodup', ?_⟩
      intro w
      rw [List.map_cons, List.mem_cons, or_assoc, or_left_comm, ← hmem]
      exact hmem' w

/-! ### Reading -/

/-- What a text says: for each place the word, and the number behind it. -/
def numbered (text : Bytes) : List (Bytes × ℤ) :=
  (places isAlpha isDigit text).map fun place => (place.1, (digitsValue place.2 : ℤ))

theorem parseCounts_skip {c : UInt8} (hc : isAlpha c = false) (fuel : Nat) (more : Bytes) (entries : List Entry) :
    parseCounts fuel (c :: more) entries = parseCounts fuel more entries := by
  cases fuel with
  | zero => rfl
  | succ fuel =>
      have hdrop : (c :: more).dropWhile (fun c => !isAlpha c) = more.dropWhile fun c => !isAlpha c :=
        List.dropWhile_cons_of_pos (by simp [hc])
      rw [parseCounts, parseCounts, hdrop]

/-- The digits of a count are skipped when they were read. -/
theorem parseCounts_digits (fuel : Nat) (text : Bytes) (entries : List Entry) :
    parseCounts fuel (text.dropWhile isDigit) entries = parseCounts fuel text entries := by
  induction text with
  | nil => rfl
  | cons c text ih =>
      cases hc : isDigit c with
      | true => rw [List.dropWhile_cons_of_pos hc, ih, parseCounts_skip (not_isAlpha_of_isDigit hc)]
      | false => rw [List.dropWhile_cons_of_neg (by simp [hc])]

/-- **A word is read**, with the digits behind it if there are any. -/
theorem parseCounts_run {run : Bytes} (hne : run ≠ []) (hall : ∀ c ∈ run, isAlpha c = true) {rest : Bytes}
    (hrest : ∀ c ∈ rest.head?, isAlpha c = false) (fuel : Nat) (entries : List Entry) :
    parseCounts (fuel + 1) (run ++ rest) entries =
      if rest.takeWhile isDigit = [] then parseCounts fuel rest entries
      else parseCounts fuel rest (accumulate run (digitsValue (rest.takeWhile isDigit)) entries) := by
  obtain ⟨c, word, hword⟩ := List.exists_cons_of_ne_nil hne
  have hc : isAlpha c = true := hall c (by rw [hword]; exact List.mem_cons_self ..)
  have hskip : (run ++ rest).dropWhile (fun c => !isAlpha c) = run ++ rest := by
    rw [hword, List.cons_append, List.dropWhile_cons_of_neg (by simp [hc])]
  have htake : (run ++ rest).takeWhile isAlpha = run := by
    have hend : rest.takeWhile isAlpha = [] := @takeWhile_apart UInt8 isAlpha rest hrest []
    rw [List.takeWhile_append_of_pos hall, hend, List.append_nil]
  have hdrop : (run ++ rest).dropWhile isAlpha = rest := by
    rw [List.dropWhile_append_of_pos hall]
    cases rest with
    | nil => rfl
    | cons d rest => exact List.dropWhile_cons_of_neg (by simp [hrest d rfl])
  have hsome : ¬ run ++ rest = [] := by simp [hne]
  simp only [parseCounts, hskip, if_neg hsome, htake, hdrop, parseCounts_digits]

/-- **What is added is what stands at the places.** -/
theorem parseCounts_places (text : Bytes) : ∀ {fuel : Nat} (entries : List Entry), text.length ≤ fuel →
    parseCounts fuel text entries = accumulateAll entries (numbered text) := by
  have hnil : ∀ fuel entries, parseCounts fuel [] entries = entries := by
    intro fuel entries
    cases fuel with
    | zero => rfl
    | succ fuel => rfl
  induction text using @runs_induction UInt8 isAlpha with
  | nil => intro fuel entries _; exact hnil fuel entries
  | separator c more hc ih =>
      intro fuel entries hfuel
      rw [parseCounts_skip hc, ih entries (Nat.le_of_succ_le hfuel), numbered, numbered, places_cons more hc]
  | last run hne hall =>
      intro fuel entries hfuel
      have hpos := List.length_pos_iff.mpr hne
      obtain ⟨fuel, rfl⟩ : ∃ k, fuel = k + 1 := ⟨fuel - 1, by omega⟩
      have hlast := @parseCounts_run run hne hall [] (fun c hc => by cases hc) fuel entries
      rw [List.append_nil, List.takeWhile_nil, if_pos rfl, hnil] at hlast
      rw [hlast, numbered, places_self hall]
      rfl
  | run run c more hne hall hc ih =>
      intro fuel entries hfuel
      have hpos := List.length_pos_iff.mpr hne
      rw [List.length_append, List.length_cons] at hfuel
      obtain ⟨fuel, rfl⟩ : ∃ k, fuel = k + 1 := ⟨fuel - 1, by omega⟩
      have hhead : ∀ d ∈ (c :: more).head?, isAlpha d = false := by
        intro d hd
        obtain rfl : c = d := Option.mem_some.mp hd
        exact hc
      rw [parseCounts_run hne hall hhead, numbered, places_run hne hall hc more]
      cases hdigit : isDigit c with
      | true =>
          rw [List.takeWhile_cons_of_pos hdigit, if_neg (List.cons_ne_nil _ _), parseCounts_skip hc,
            ih _ (by omega)]
          rfl
      | false =>
          rw [List.takeWhile_cons_of_neg (by simp [hdigit]), if_pos rfl, parseCounts_skip hc, ih _ (by omega)]
          rfl

/-- Without letters there is no place. -/
theorem numbered_none {text : Bytes} (h : ∀ c ∈ text, isAlpha c = false) : numbered text = [] := by
  induction text with
  | nil => rfl
  | cons c text ih =>
      rw [numbered, places_cons text (h c (List.mem_cons_self ..))]
      exact ih fun d hd => h d (List.mem_cons_of_mem _ hd)

/-- One token says what it is. -/
theorem numbered_token {t : Bytes × ℤ} (h : Token t) : numbered (reduceEntry t) = [t] := by
  have hpos := h.pos
  have hdigits := reduceEntry_digits h
  have hvalue : decimalInt t.2 = decimal t.2.toNat := by rw [decimalInt, if_neg (by omega)]
  have hcount : (digitsValue (decimalInt t.2) : ℤ) = t.2 := by
    rw [hvalue, digitsValue_decimal]
    omega
  obtain ⟨d, ds, hds⟩ := List.exists_cons_of_ne_nil (decimal_ne_nil t.2.toNat)
  rw [← hvalue] at hds
  rw [hds] at hdigits hcount
  have hd := hdigits d (List.mem_cons_self ..)
  have hmore : ∀ c ∈ ds, isDigit c = true := fun c hc => hdigits c (List.mem_cons_of_mem _ hc)
  have hrest := numbered_none fun c hc => not_isAlpha_of_isDigit (hmore c hc)
  have hfirst := @places_run UInt8 isAlpha isDigit t.1 h.nonempty h.letters d (not_isAlpha_of_isDigit hd) ds
  rw [if_pos hd, List.takeWhile_eq_self_iff.mpr hmore] at hfirst
  rw [numbered] at hrest ⊢
  rw [reduceEntry, hds, hfirst, List.map_append, hrest, List.append_nil, List.map_singleton, hcount]

/-- Tokens begin with a letter. -/
theorem reduce_head? {ts : List (Bytes × ℤ)} (hts : ∀ t ∈ ts, Token t) :
    ∀ c ∈ (ts.flatMap reduceEntry).head?, isDigit c = false := by
  intro c hc
  cases ts with
  | nil => cases hc
  | cons t ts =>
      have ht := hts t (List.mem_cons_self ..)
      obtain ⟨d, word, hword⟩ := List.exists_cons_of_ne_nil ht.nonempty
      rw [List.flatMap_cons, reduceEntry, hword] at hc
      obtain rfl : d = c := Option.mem_some.mp hc
      exact not_isDigit_of_isAlpha (ht.letters d (by rw [hword]; exact List.mem_cons_self ..))

/-- They end with a digit. -/
theorem reduce_getLast? {ts : List (Bytes × ℤ)} (hts : ∀ t ∈ ts, Token t) :
    ∀ c ∈ (ts.flatMap reduceEntry).getLast?, isAlpha c = false := by
  intro c hc
  rcases List.eq_nil_or_concat ts with rfl | ⟨front, t, rfl⟩
  · cases hc
  · rw [List.concat_eq_append] at hts hc
    have ht := hts t (List.mem_append_right _ (List.mem_singleton.mpr rfl))
    have hpos := ht.pos
    have hne : decimalInt t.2 ≠ [] := by
      rw [decimalInt, if_neg (by omega)]
      exact decimal_ne_nil _
    rw [List.flatMap_append, List.flatMap_singleton, reduceEntry, ← List.append_assoc,
      List.getLast?_append_of_ne_nil _ hne] at hc
    exact not_isAlpha_of_isDigit (reduceEntry_digits ht c (List.mem_of_mem_getLast? hc))

/-- **Tokens say what they are.** -/
theorem numbered_tokens {ts : List (Bytes × ℤ)} (hts : ∀ t ∈ ts, Token t) :
    numbered (ts.flatMap reduceEntry) = ts := by
  induction ts with
  | nil => rfl
  | cons t ts ih =>
      have ht := hts t (List.mem_cons_self ..)
      have hrest : ∀ u ∈ ts, Token u := fun u hu => hts u (List.mem_cons_of_mem _ hu)
      have hlast := @reduce_getLast? [t] (by simpa using ht)
      rw [List.flatMap_singleton] at hlast
      have hall := ih hrest
      have hone := numbered_token ht
      rw [numbered] at hall hone ⊢
      rw [List.flatMap_cons, places_apart (reduce_head? hrest) _ hlast, List.map_append, hone, hall,
        List.singleton_append]

/-- **The table** has a row for each word of the tokens, with its tally. -/
theorem combine_tokens {ts : List (Bytes × ℤ)} (hts : ∀ t ∈ ts, Token t) (hne : ts ≠ [])
    (hzero : (0 : UInt8) ∉ ts.flatMap reduceEntry) :
    ∃ rows : List Entry,
      combineAndPrint (ts.flatMap reduceEntry) = ascii "word,frequency\n" ++ rows.flatMap row ∧
      rows.Pairwise Before ∧ ∀ w n, Entry.mk w n ∈ rows ↔ tally ts w = n ∧ 0 < n := by
  have hlength := length_le_flatMap fun t ht => reduceEntry_pos (hts t ht)
  have hfresh : Summary (counts []) := ⟨List.nodup_nil, fun t ht => absurd ht List.not_mem_nil⟩
  have hsummary := accumulateAll_summary (fun t ht => (hts t ht).pos) hfresh
  refine ⟨sortEntries (accumulateAll [] ts), ?_, ?_, ?_⟩
  · have htext : ¬ ts.flatMap reduceEntry = [] := by
      intro hnil
      rw [hnil] at hlength
      exact hne (List.length_eq_zero_iff.mp (Nat.le_zero.mp hlength))
    rw [combineAndPrint, cstr_eq_self hzero]
    show (if ts.flatMap reduceEntry = [] then _ else _) = _
    rw [if_neg htext, parseCounts_places _ [] (Nat.le_refl _), numbered_tokens hts]
  · refine sortEntries_before ?_
    have hkeys := hsummary.keys
    rwa [counts, List.map_map] at hkeys
  · intro w n
    have hmem : Entry.mk w n ∈ sortEntries (accumulateAll [] ts) ↔ (w, n) ∈ counts (accumulateAll [] ts) := by
      rw [sortEntries, List.mem_mergeSort, counts, List.mem_map]
      constructor
      · intro h
        exact ⟨_, h, rfl⟩
      · intro ⟨e, he, hpair⟩
        obtain ⟨rfl, rfl⟩ := Prod.mk.inj hpair
        exact he
    rw [hmem, hsummary.mem_iff, accumulateAll_tally]
    show tally [] w + tally ts w = n ∧ 0 < n ↔ _
    rw [tally_nil, zero_add]

end ChordDht.WordCount
