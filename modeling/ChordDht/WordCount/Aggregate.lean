/-
`combine_and_print` on any text, in `long`s, with whatever `qsort` the library has.

The counts are read digit by digit and added to entries, and each step that leaves the range
of a `long` has no meaning.  If all counts and their sums fit, none does, and what is printed
is a row for each word that has a count somewhere, in the one order there is; it does not
matter then in which order the replies came that the text is made of.
-/
import ChordDht.Lib.Outcome
import ChordDht.WordCount.Phases
import ChordDht.WordCount.Table

namespace ChordDht.WordCount

open Outcome

/-- `LONG_MAX`. -/
def longMax : ℤ := 2 ^ 63 - 1

/-- What a `long` is computed to; none of them is negative here. -/
def toLong (n : ℤ) : Outcome ℤ := if n ≤ longMax then .returns n else .faults

/-- The loop over the digits of a count. -/
def readCount : Bytes → ℤ → Outcome ℤ
  | [], count => .returns count
  | c :: digits, count => do
      let tens ← toLong (count * 10)
      let count ← toLong (tens + ((c.toNat - 48 : Nat) : ℤ))
      readCount digits count

/-- Add to the entry of the word, or append one. -/
def accumulateLong (word : Bytes) (count : ℤ) : List Entry → Outcome (List Entry)
  | [] => .returns [⟨word, count⟩]
  | e :: es =>
      if e.word = word then do
        let sum ← toLong (e.count + count)
        return { e with count := sum } :: es
      else do
        let es ← accumulateLong word count es
        return e :: es

/-- The loop over the text. -/
def parseCountsLong : Nat → Bytes → List Entry → Outcome (List Entry)
  | 0, _, _ => .diverges
  | fuel + 1, text, entries =>
      let p := text.dropWhile fun c => !isAlpha c
      if p = [] then .returns entries
      else
        let word := p.takeWhile isAlpha
        let rest := p.dropWhile isAlpha
        let digits := rest.takeWhile isDigit
        if digits = [] then parseCountsLong fuel rest entries
        else do
          let count ← readCount digits 0
          let entries ← accumulateLong word count entries
          parseCountsLong fuel (rest.dropWhile isDigit) entries

/-- What `qsort` does with the comparison: it moves the entries to an order that the comparison
does not contradict. -/
structure Qsort where
  sort : List Entry → List Entry
  perm : ∀ entries, (sort entries).Perm entries
  sorted : ∀ entries, (sort entries).Pairwise fun a b => cmpByCountDescWordAsc a b ≠ .gt

/-- Merge sort is one. -/
def Qsort.merge : Qsort := ⟨sortEntries, sortEntries_perm, sortEntries_sorted⟩

/-- `combine_and_print`: what is printed. -/
def combineAndPrintLong (qsort : Qsort) (reduceData : Bytes) : Outcome Bytes :=
  let text := cstr reduceData
  if text = [] then .returns []
  else do
    let entries ← parseCountsLong (text.length + 1) text []
    return ascii "word,frequency\n" ++ (qsort.sort entries).flatMap row

/-- All counts of the text fit in a `long`, and for each word their sum does. -/
structure Fits (text : Bytes) : Prop where
  counts : ∀ t ∈ numbered text, t.2 ≤ longMax
  sums : ∀ word, tally (numbered text) word ≤ longMax

/-! ### In range -/

theorem toLong_eq {n : ℤ} (h : n ≤ longMax) : toLong n = .returns n := if_pos h

theorem le_digits (digits : Bytes) (v : Nat) : v ≤ digits.foldl (fun v d => 10 * v + (d.toNat - 48)) v := by
  induction digits generalizing v with
  | nil => exact Nat.le_refl v
  | cons d digits ih =>
      have hrest := ih (10 * v + (d.toNat - 48))
      rw [List.foldl_cons]
      omega

/-- A count that fits is read without leaving the range. -/
theorem readCount_eq (digits : Bytes) : ∀ (v : Nat),
    ((digits.foldl (fun v d => 10 * v + (d.toNat - 48)) v : Nat) : ℤ) ≤ longMax →
      readCount digits v = .returns ((digits.foldl (fun v d => 10 * v + (d.toNat - 48)) v : Nat) : ℤ) := by
  induction digits with
  | nil => intro v _; rfl
  | cons d digits ih =>
      intro v hfits
      rw [List.foldl_cons] at hfits ⊢
      have hle := le_digits digits (10 * v + (d.toNat - 48))
      have hstep : (v : ℤ) * 10 + ((d.toNat - 48 : Nat) : ℤ) = ((10 * v + (d.toNat - 48) : Nat) : ℤ) := by
        push_cast
        omega
      rw [readCount, toLong_eq (by omega), returns_bind, hstep, toLong_eq (by omega), returns_bind, ih _ hfits]

/-- Where the sums fit they are added without leaving the range. -/
theorem accumulateLong_eq {word : Bytes} {count : ℤ} {entries : List Entry}
    (hfits : ∀ e ∈ accumulate word count entries, e.count ≤ longMax) :
    accumulateLong word count entries = .returns (accumulate word count entries) := by
  induction entries with
  | nil => rfl
  | cons e es ih =>
      rw [accumulate] at hfits ⊢
      rw [accumulateLong]
      by_cases hword : e.word = word
      · rw [if_pos hword] at hfits ⊢
        have hsum : e.count + count ≤ longMax := hfits _ (List.mem_cons_self ..)
        rw [if_pos hword, toLong_eq hsum]
        rfl
      · rw [if_neg hword] at hfits ⊢
        rw [if_neg hword, ih fun e' he' => hfits e' (List.mem_cons_of_mem _ he')]
        rfl

/-- No entry has less in the second list than in the first. -/
def Grows (entries entries' : List Entry) : Prop := ∀ e ∈ entries, ∃ e' ∈ entries', e.count ≤ e'.count

theorem Grows.trans {es es' es'' : List Entry} (h : Grows es es') (h' : Grows es' es'') : Grows es es'' := by
  intro e he
  obtain ⟨e', he', hle⟩ := h e he
  obtain ⟨e'', he'', hle'⟩ := h' e' he'
  exact ⟨e'', he'', hle.trans hle'⟩

/-- Adding to entries that are not negative leaves none with less, and one with what was added. -/
theorem accumulate_grows {word : Bytes} {count : ℤ} (hcount : 0 ≤ count) {entries : List Entry}
    (hpos : ∀ e ∈ entries, 0 ≤ e.count) : Grows entries (accumulate word count entries) ∧
      (∃ e ∈ accumulate word count entries, count ≤ e.count) ∧
      ∀ e ∈ accumulate word count entries, 0 ≤ e.count := by
  induction entries with
  | nil =>
      refine ⟨fun e he => absurd he List.not_mem_nil, ⟨_, List.mem_singleton.mpr rfl, Int.le_refl _⟩, ?_⟩
      intro e he
      rw [List.mem_singleton.mp he]
      exact hcount
  | cons e es ih =>
      have he := hpos e (List.mem_cons_self ..)
      have hes := fun e' he' => hpos e' (List.mem_cons_of_mem _ he')
      rw [accumulate]
      by_cases hword : e.word = word
      · rw [if_pos hword]
        refine ⟨?_, ⟨_, List.mem_cons_self .., show count ≤ e.count + count by omega⟩, ?_⟩
        · intro e' he'
          rcases List.mem_cons.mp he' with rfl | he'
          · exact ⟨_, List.mem_cons_self .., show e'.count ≤ e'.count + count by omega⟩
          · exact ⟨e', List.mem_cons_of_mem _ he', Int.le_refl _⟩
        · intro e' he'
          rcases List.mem_cons.mp he' with rfl | he'
          · show 0 ≤ e.count + count
            omega
          · exact hes e' he'
      · obtain ⟨hgrows, ⟨new, hnew, hle⟩, hall⟩ := ih hes
        rw [if_neg hword]
        refine ⟨?_, ⟨new, List.mem_cons_of_mem _ hnew, hle⟩, ?_⟩
        · intro e' he'
          rcases List.mem_cons.mp he' with rfl | he'
          · exact ⟨e', List.mem_cons_self .., Int.le_refl _⟩
          · obtain ⟨e'', he'', hle'⟩ := hgrows e' he'
            exact ⟨e'', List.mem_cons_of_mem _ he'', hle'⟩
        · intro e' he'
          rcases List.mem_cons.mp he' with rfl | he'
          · exact he
          · exact hall e' he'

theorem parseCounts_grows : ∀ (fuel : Nat) (text : Bytes) {entries : List Entry},
    (∀ e ∈ entries, 0 ≤ e.count) → Grows entries (parseCounts fuel text entries) := by
  intro fuel
  induction fuel with
  | zero => intro text entries _ e he; exact ⟨e, he, Int.le_refl _⟩
  | succ fuel ih =>
      intro text entries hpos
      simp only [parseCounts]
      split
      · exact fun e he => ⟨e, he, Int.le_refl _⟩
      · split
        · exact ih _ hpos
        · obtain ⟨hgrows, -, hall⟩ := accumulate_grows (Int.natCast_nonneg _) hpos
          exact hgrows.trans (ih _ hall)

/-- **If the counts that come out fit, no step leaves the range.** -/
theorem parseCountsLong_eq : ∀ {fuel : Nat} {text : Bytes} {entries : List Entry}, text.length < fuel →
    (∀ e ∈ entries, 0 ≤ e.count) → (∀ e ∈ parseCounts fuel text entries, e.count ≤ longMax) →
      parseCountsLong fuel text entries = .returns (parseCounts fuel text entries) := by
  intro fuel
  induction fuel with
  | zero => intro text entries hlt; exact absurd hlt (Nat.not_lt_zero _)
  | succ fuel ih =>
      intro text entries hlt hpos hfits
      simp only [parseCounts, parseCountsLong] at hfits ⊢
      have hskip := (List.dropWhile_suffix (l := text) fun c => !isAlpha c).length_le
      generalize hp : text.dropWhile (fun c => !isAlpha c) = p at hfits hskip ⊢
      by_cases hnone : p = []
      · rw [if_pos hnone, if_pos hnone]
      · rw [if_neg hnone] at hfits
        rw [if_neg hnone, if_neg hnone]
        -- what is left begins with a letter, so the loop moves on
        have hletter : 0 < (p.takeWhile isAlpha).length := by
          obtain ⟨c, more, rfl⟩ := List.exists_cons_of_ne_nil hnone
          have hc : isAlpha c = true := by
            have hhead := List.head?_dropWhile_not (fun c => !isAlpha c) text
            rw [hp] at hhead
            simpa using hhead
          rw [List.takeWhile_cons_of_pos hc]
          exact Nat.succ_pos _
        have hrest : (p.dropWhile isAlpha).length < fuel := by
          have hsplit := congrArg List.length (List.takeWhile_append_dropWhile (p := isAlpha) (l := p))
          rw [List.length_append] at hsplit
          omega
        by_cases hdigits : (p.dropWhile isAlpha).takeWhile isDigit = []
        · rw [if_pos hdigits] at hfits
          rw [if_pos hdigits, if_pos hdigits]
          exact ih hrest hpos hfits
        · rw [if_neg hdigits] at hfits
          rw [if_neg hdigits, if_neg hdigits]
          obtain ⟨hgrows, ⟨new, hnew, hle⟩, hall⟩ := @accumulate_grows (p.takeWhile isAlpha) _
            (Int.natCast_nonneg (digitsValue ((p.dropWhile isAlpha).takeWhile isDigit))) entries hpos
          have hlater := parseCounts_grows fuel ((p.dropWhile isAlpha).dropWhile isDigit) hall
          have hbounded : ∀ e ∈ accumulate (p.takeWhile isAlpha)
              (digitsValue ((p.dropWhile isAlpha).takeWhile isDigit)) entries, e.count ≤ longMax := by
            intro e he
            obtain ⟨e', he', hle'⟩ := hlater e he
            exact hle'.trans (hfits e' he')
          have hread : readCount ((p.dropWhile isAlpha).takeWhile isDigit) 0
              = .returns ((digitsValue ((p.dropWhile isAlpha).takeWhile isDigit) : Nat) : ℤ) :=
            readCount_eq _ 0 (hle.trans (hbounded new hnew))
          rw [hread, returns_bind, accumulateLong_eq hbounded, returns_bind]
          have hmore := (List.dropWhile_suffix (l := p.dropWhile isAlpha) isDigit).length_le
          exact ih (Nat.lt_of_le_of_lt hmore hrest) hall hfits

/-! ### The rows -/

/-- The entries of a text. -/
def aggregated (text : Bytes) : List Entry := accumulateAll [] (numbered text)

theorem aggregated_words (text : Bytes) : ((aggregated text).map Entry.word).Nodup :=
  (@accumulateAll_words (numbered text) [] List.nodup_nil).1

/-- There is an entry for each word that has a count somewhere, with the sum of its counts. -/
theorem mem_aggregated (text w : Bytes) (n : ℤ) : Entry.mk w n ∈ aggregated text ↔
    w ∈ (numbered text).map Prod.fst ∧ tally (numbered text) w = n := by
  have hcounts : (w, n) ∈ counts (aggregated text) ↔ Entry.mk w n ∈ aggregated text := by
    rw [counts, List.mem_map]
    constructor
    · rintro ⟨e, he, hpair⟩
      obtain ⟨rfl, rfl⟩ := Prod.mk.inj hpair
      exact he
    · intro he
      exact ⟨_, he, rfl⟩
  have hkeys : (counts (aggregated text)).map Prod.fst = (aggregated text).map Entry.word := by
    rw [counts, List.map_map]
    rfl
  have htally : tally (counts (aggregated text)) w = tally (numbered text) w :=
    (accumulateAll_tally _ _ w).trans (zero_add _)
  rw [← hcounts, mem_iff_tally (by rw [hkeys]; exact aggregated_words text), hkeys, htally, aggregated,
    (@accumulateAll_words (numbered text) [] List.nodup_nil).2, List.map_nil]
  simp

/-- **Two sorted lists of the same entries** are the same. -/
theorem before_unique {rows rows' : List Entry} (h : rows.Pairwise Before) (h' : rows'.Pairwise Before)
    (hperm : rows.Perm rows') : rows = rows' := by
  refine List.Perm.eq_of_pairwise ?_ h h' hperm
  intro a b _ _ hab hba
  rcases hab with hlt | ⟨heq, hlt⟩
  · rcases hba with hlt' | ⟨heq', -⟩
    · omega
    · omega
  · rcases hba with hlt' | ⟨-, hlt'⟩
    · omega
    · exact absurd hlt' (List.lt_asymm hlt)

theorem Qsort.before (qsort : Qsort) (text : Bytes) : (qsort.sort (aggregated text)).Pairwise Before :=
  sorted_before (((qsort.perm _).map Entry.word).nodup_iff.mpr (aggregated_words text)) (qsort.sorted _)

/-- **In range the table is printed.** -/
theorem combineAndPrintLong_eq (qsort : Qsort) {reduceData : Bytes} (hne : cstr reduceData ≠ [])
    (hfits : Fits (cstr reduceData)) : combineAndPrintLong qsort reduceData
      = .returns (ascii "word,frequency\n" ++ (qsort.sort (aggregated (cstr reduceData))).flatMap row) := by
  have hentries := @parseCounts_places (cstr reduceData) ((cstr reduceData).length + 1) [] (Nat.le_succ _)
  have hbounded : ∀ e ∈ aggregated (cstr reduceData), e.count ≤ longMax := by
    rintro ⟨w, n⟩ he
    rw [mem_aggregated] at he
    rw [← he.2]
    exact hfits.sums w
  have hlong := @parseCountsLong_eq ((cstr reduceData).length + 1) (cstr reduceData) [] (Nat.lt_succ_self _)
    (fun e he => absurd he List.not_mem_nil) (by rw [hentries]; exact hbounded)
  simp only [combineAndPrintLong, if_neg hne, hlong, hentries]
  rfl

/-! ### The order of the replies -/

/-- A text that can stand between others: it begins with no digit and ends with no letter. -/
structure Whole (text : Bytes) : Prop where
  head : ∀ c ∈ text.head?, isDigit c = false
  last : ∀ c ∈ text.getLast?, isAlpha c = false

/-- Texts that do not touch say together what each of them says. -/
theorem numbered_flatten {texts : List Bytes} (h : ∀ text ∈ texts, Whole text) :
    numbered texts.flatten = texts.flatMap numbered := by
  have hhead : ∀ {ts : List Bytes}, (∀ text ∈ ts, Whole text) → ∀ c ∈ ts.flatten.head?, isDigit c = false := by
    intro ts
    induction ts with
    | nil => intro _ c hc; cases hc
    | cons t ts ih =>
        intro hts c hc
        rw [List.flatten_cons, List.head?_append] at hc
        cases ht : t.head? with
        | none => exact ih (fun u hu => hts u (List.mem_cons_of_mem _ hu)) c (by rwa [ht, Option.none_or] at hc)
        | some d =>
            rw [ht, Option.some_or] at hc
            exact (hts t (List.mem_cons_self ..)).head c (by rwa [ht])
  induction texts with
  | nil => rfl
  | cons text texts ih =>
      have hrest : ∀ t ∈ texts, Whole t := fun t ht => h t (List.mem_cons_of_mem _ ht)
      have hall := ih hrest
      rw [numbered] at hall
      rw [List.flatten_cons, List.flatMap_cons, numbered,
        places_apart (hhead hrest) text (h text (List.mem_cons_self ..)).last, List.map_append, hall]
      rfl

/-- What a worker replies to a reduce request is whole. -/
theorem whole_tokens {ts : List (Bytes × ℤ)} (hts : ∀ t ∈ ts, Token t) : Whole (ts.flatMap reduceEntry) :=
  ⟨reduce_head? hts, reduce_getLast? hts⟩

theorem aggregated_perm {text text' : Bytes} (h : (numbered text).Perm (numbered text')) :
    (aggregated text).Perm (aggregated text') := by
  refine (List.perm_ext_iff_of_nodup (List.Nodup.of_map Entry.word (aggregated_words text))
    (List.Nodup.of_map Entry.word (aggregated_words text'))).mpr ?_
  rintro ⟨w, n⟩
  rw [mem_aggregated, mem_aggregated, tally_perm h, (h.map Prod.fst).mem_iff]

/-- **The replies may come in any order**, if none of them touches the next. -/
theorem replies_any_order {replies replies' : List Bytes} (hreplies : replies.Perm replies')
    (hall : ∀ r ∈ replies, (0 : UInt8) ∉ r ∧ Whole r) (hfits : Fits replies.flatten) (qsort qsort' : Qsort) :
    combineAndPrintLong qsort' replies'.flatten = combineAndPrintLong qsort replies.flatten := by
  have hall' : ∀ r ∈ replies', (0 : UInt8) ∉ r ∧ Whole r := fun r hr => hall r (hreplies.mem_iff.mpr hr)
  have hcstr : ∀ {rs : List Bytes}, (∀ r ∈ rs, (0 : UInt8) ∉ r ∧ Whole r) → cstr rs.flatten = rs.flatten := by
    intro rs hrs
    refine cstr_eq_self ?_
    intro hmem
    obtain ⟨r, hr, hzero⟩ := List.mem_flatten.mp hmem
    exact (hrs r hr).1 hzero
  have hnumbered : (numbered replies.flatten).Perm (numbered replies'.flatten) := by
    rw [numbered_flatten fun r hr => (hall r hr).2, numbered_flatten fun r hr => (hall' r hr).2]
    exact hreplies.flatMap_right _
  by_cases hnone : replies.flatten = []
  · have hnone' : replies'.flatten = [] := List.nil_perm.mp (hnone ▸ hreplies.flatten)
    rw [hnone, hnone']
    rfl
  · have hne' : replies'.flatten ≠ [] := fun hc => hnone (List.nil_perm.mp (hc ▸ hreplies.flatten.symm))
    have hfits' : Fits replies'.flatten := by
      refine ⟨fun t ht => hfits.counts t (hnumbered.mem_iff.mpr ht), ?_⟩
      intro w
      rw [← tally_perm hnumbered]
      exact hfits.sums w
    rw [combineAndPrintLong_eq qsort (by rwa [hcstr hall]) (by rwa [hcstr hall]),
      combineAndPrintLong_eq qsort' (by rwa [hcstr hall']) (by rwa [hcstr hall']), hcstr hall, hcstr hall',
      before_unique (qsort'.before _) (qsort.before _)
        (((qsort'.perm _).trans (aggregated_perm hnumbered).symm).trans (qsort.perm _).symm)]

/-- That holds of what the workers reply to reduce requests. -/
theorem reduce_replies_any_order {groups groups' : List (List (Bytes × ℤ))} (hperm : groups.Perm groups')
    (hts : ∀ ts ∈ groups, ∀ t ∈ ts, Token t)
    (hfits : Fits (groups.map fun ts => ts.flatMap reduceEntry).flatten) (qsort qsort' : Qsort) :
    combineAndPrintLong qsort' (groups'.map fun ts => ts.flatMap reduceEntry).flatten
      = combineAndPrintLong qsort (groups.map fun ts => ts.flatMap reduceEntry).flatten := by
  refine replies_any_order (hperm.map _) ?_ hfits qsort qsort'
  intro r hr
  obtain ⟨ts, hmem, rfl⟩ := List.mem_map.mp hr
  exact ⟨zero_notMem_reduce (hts ts hmem), whole_tokens (hts ts hmem)⟩

/-- **`combine_and_print` adds up and orders.**  On a text whose counts and sums fit in a `long`
there is a row for each word that stands somewhere with a number behind it, with the sum of these
numbers, the larger first and words with the same sum in their order; and the replies the text is
made of may come in any order. -/
theorem combine_aggregates (qsort : Qsort) :
    (∀ reduceData : Bytes, cstr reduceData ≠ [] → Fits (cstr reduceData) → ∃ rows : List Entry,
      combineAndPrintLong qsort reduceData = .returns (ascii "word,frequency\n" ++ rows.flatMap row) ∧
      rows.Pairwise Before ∧ (rows.map Entry.word).Nodup ∧
      (∀ w n, Entry.mk w n ∈ rows ↔
        (∃ i digits, placeAt isAlpha isDigit (cstr reduceData) i = some (w, digits)) ∧
        tally (numbered (cstr reduceData)) w = n) ∧
      ∀ i run digits, placeAt isAlpha isDigit (cstr reduceData) i = some (run, digits) ↔
        ∃ before after, before.length = i ∧ cstr reduceData = before ++ (run ++ (digits ++ after)) ∧
          Maximal isAlpha before run (digits ++ after) ∧ Maximal isDigit (before ++ run) digits after) ∧
    ∀ replies replies' : List Bytes, replies.Perm replies' → (∀ r ∈ replies, (0 : UInt8) ∉ r ∧ Whole r) →
      Fits replies.flatten → ∀ qsort' : Qsort,
        combineAndPrintLong qsort' replies'.flatten = combineAndPrintLong qsort replies.flatten := by
  refine ⟨?_, ?_⟩
  · intro reduceData hne hfits
    have hperm := qsort.perm (aggregated (cstr reduceData))
    refine ⟨_, combineAndPrintLong_eq qsort hne hfits, qsort.before _,
      (hperm.map Entry.word).nodup_iff.mpr (aggregated_words _), ?_,
      fun i run digits => placeAt_eq_some fun _ => not_isAlpha_of_isDigit⟩
    intro w n
    rw [hperm.mem_iff, mem_aggregated]
    refine and_congr_left fun _ => ?_
    simp only [numbered, List.map_map, List.mem_map, Function.comp_apply, mem_places]
    constructor
    · rintro ⟨⟨run, digits⟩, ⟨i, hat⟩, rfl⟩
      exact ⟨i, digits, hat⟩
    · rintro ⟨i, digits, hat⟩
      exact ⟨(w, digits), ⟨i, hat⟩, rfl⟩
  · intro replies replies' hreplies hall hfits qsort'
    exact replies_any_order hreplies hall hfits qsort qsort'

theorem fits_small : Fits (ascii "to2be1to3") := by
  have hnumbers : numbered (ascii "to2be1to3") = [(ascii "to", 2), (ascii "be", 1), (ascii "to", 3)] := by
    decide +kernel
  have hmax : longMax = 9223372036854775807 := rfl
  refine ⟨by rw [hnumbers]; decide +kernel, ?_⟩
  intro word
  rw [hnumbers, tally_cons, tally_cons, tally_cons, tally_nil]
  split_ifs <;> omega

/-- Two replies, in both orders. -/
theorem combine_aggregates_small : (∃ rows : List Entry,
    combineAndPrintLong .merge (ascii "to2be1to3") = .returns (ascii "word,frequency\n" ++ rows.flatMap row) ∧
      rows.Pairwise Before) ∧
    combineAndPrintLong .merge [ascii "to3", ascii "to2be1"].flatten
      = combineAndPrintLong .merge [ascii "to2be1", ascii "to3"].flatten := by
  have hwhole : ∀ r ∈ [ascii "to2be1", ascii "to3"], (0 : UInt8) ∉ r ∧ Whole r := by
    intro r hr
    simp only [List.mem_cons, List.not_mem_nil, or_false] at hr
    rcases hr with rfl | rfl
    · exact ⟨by decide +kernel, by decide +kernel, by decide +kernel⟩
    · exact ⟨by decide +kernel, by decide +kernel, by decide +kernel⟩
  have hcstr : cstr (ascii "to2be1to3") = ascii "to2be1to3" := by decide +kernel
  obtain ⟨rows, hprint, hbefore, -⟩ := (combine_aggregates .merge).1 (ascii "to2be1to3")
    (by rw [hcstr]; decide +kernel) (by rw [hcstr]; exact fits_small)
  exact ⟨⟨rows, hprint, hbefore⟩,
    (combine_aggregates .merge).2 _ _ (List.Perm.swap ..) hwhole fits_small .merge⟩

end ChordDht.WordCount
