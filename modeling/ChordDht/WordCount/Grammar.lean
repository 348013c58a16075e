/-
What a payload means to `wc_from_map_format`, whatever it is.

A place of the text is where a maximal run of letters has ones right behind it; it counts
for the word of the run, as many times as there are ones.  The parser reads the text from
the left with three states and puts what it read at five points; what it has put at the
end are the places, in their order: `parse_places`.  While it reads, what it keeps is no
more than what it has read, so no count leaves the range of an `int`.
-/
import ChordDht.Lib.Places
import ChordDht.WordCount.Shortage

namespace ChordDht.WordCount

def isOne (c : UInt8) : Bool := c == 49

/-- What a text says: for each place the word, as it is kept, and the number of ones. -/
def marked (text : Bytes) : List (Bytes × ℤ) :=
  (places isAlpha isOne text).map fun place => ((lower place.1).take wordMax, (place.2.length : ℤ))

theorem isAlpha_of_isOne {c : UInt8} (h : isOne c = true) : isAlpha c = false := by
  have hc : c = 49 := beq_iff_eq.mp h
  rw [hc]
  rfl

/-- They are tokens. -/
theorem marked_tokens (text : Bytes) : ∀ t ∈ marked text, Token t := by
  intro t ht
  obtain ⟨⟨run, ones⟩, hplace, rfl⟩ := List.mem_map.mp ht
  obtain ⟨i, hat⟩ := mem_places.mp hplace
  obtain ⟨before, after, -, -, hrun, hones⟩ := (placeAt_eq_some fun _ => isAlpha_of_isOne).mp hat
  have hpos := List.length_pos_iff.mpr hones.nonempty
  exact token_kept hrun.nonempty hrun.all (Int.natCast_pos.mpr hpos)

/-! ### Reading -/

/-- **The ones behind a word** are counted, and then the word is put. -/
theorem parse_inOnes {word : Bytes} (hword : word ≠ []) (hm : HashMap) (text : Bytes) :
    ∀ {count : ℤ}, 0 < count →
      parseEnd (text.foldl parseStep ⟨.inOnes, word, count, hm⟩)
        = parseEnd (text.foldl parseStep
            ⟨.start, [], 0, hmPutInc hm word (count + (text.takeWhile isOne).length)⟩) := by
  have hput : ∀ {count : ℤ}, 0 < count →
      Parser.finalize ⟨.inOnes, word, count, hm⟩ = hmPutInc hm word count := by
    intro count hcount
    exact if_pos ⟨List.length_pos_iff.mpr hword, hcount⟩
  induction text with
  | nil =>
      intro count hcount
      rw [List.takeWhile_nil, List.length_nil, Nat.cast_zero, add_zero]
      exact hput hcount
  | cons c text ih =>
      intro count hcount
      rw [List.foldl_cons, List.foldl_cons]
      by_cases hone : c = 49
      · subst hone
        have hmore : ((49 :: text).takeWhile isOne).length = (text.takeWhile isOne).length + 1 := rfl
        have hread : parseStep ⟨.inOnes, word, count, hm⟩ 49 = ⟨.inOnes, word, count + 1, hm⟩ := rfl
        rw [hread, ih (by omega), hmore, Nat.cast_add, Nat.cast_one, add_assoc, add_comm 1]
        rfl
      · have hnone : (c :: text).takeWhile isOne = [] :=
          List.takeWhile_cons_of_neg (by rw [isOne, beq_iff_eq]; exact hone)
        rw [hnone, List.length_nil, Nat.cast_zero, add_zero]
        -- the pair is put before the character is looked at as at the start
        cases hc : isAlpha c with
        | true => simp only [parseStep, hone, hc, if_false, if_true, hput hcount]
        | false => simp only [parseStep, hone, hc, if_false, Bool.false_eq_true, hput hcount]

/-- A run of letters is read into the word, the first 255 of them. -/
theorem parse_run {run : Bytes} (hne : run ≠ []) (hall : ∀ c ∈ run, isAlpha c = true) (word : Bytes)
    (hm : HashMap) : run.foldl parseStep ⟨.start, word, 0, hm⟩ = ⟨.inWord, (lower run).take wordMax, 0, hm⟩ := by
  obtain ⟨c, more, rfl⟩ := List.exists_cons_of_ne_nil hne
  have hc : isAlpha c = true := hall c (List.mem_cons_self ..)
  have hfirst : parseStep ⟨.start, word, 0, hm⟩ c = ⟨.inWord, (lower [c]).take wordMax, 0, hm⟩ := by
    simp only [parseStep, hc, if_true]
    rfl
  rw [List.foldl_cons, hfirst, parse_letters fun d hd => hall d (List.mem_cons_of_mem _ hd)]
  rfl

/-- **What is put is what stands at the places.** -/
theorem parse_places (text : Bytes) : ∀ (word : Bytes) (hm : HashMap),
    parseEnd (text.foldl parseStep ⟨.start, word, 0, hm⟩) = putAll hm (marked text) := by
  induction text using @runs_induction UInt8 isAlpha with
  | nil => intro word hm; rfl
  | separator c more hc ih =>
      intro word hm
      have hskip : parseStep ⟨.start, word, 0, hm⟩ c = ⟨.start, word, 0, hm⟩ := by
        simp only [parseStep, hc, Bool.false_eq_true, if_false]
      rw [List.foldl_cons, hskip, ih, marked, marked, places_cons more hc]
  | last run hne hall =>
      intro word hm
      rw [parse_run hne hall, marked, places_self hall]
      rfl
  | run run c more hne hall hc ih =>
      intro word hm
      rw [List.foldl_append, List.foldl_cons, parse_run hne hall, marked, places_run hne hall hc more]
      by_cases hone : c = 49
      · subst hone
        have hkept : (lower run).take wordMax ≠ [] := by
          have hpos := List.length_pos_iff.mpr hne
          have hmax : wordMax = 255 := rfl
          rw [← List.length_pos_iff, List.length_take, lower, List.length_map]
          omega
        have hbegin : parseStep ⟨.inWord, (lower run).take wordMax, 0, hm⟩ 49
            = ⟨.inOnes, (lower run).take wordMax, 1, hm⟩ := rfl
        rw [hbegin, parse_inOnes hkept hm more Int.one_pos, ih, if_pos (by rfl), List.map_append]
        have hones : (1 : ℤ) + (more.takeWhile isOne).length = ((49 :: more.takeWhile isOne).length : ℤ) := by
          rw [List.length_cons, Nat.cast_add, Nat.cast_one, add_comm]
        rw [hones]
        rfl
      · have hdiscard : parseStep ⟨.inWord, (lower run).take wordMax, 0, hm⟩ c = ⟨.start, [], 0, hm⟩ := by
          simp only [parseStep, hc, hone, Bool.false_eq_true, if_false]
        have hnone : ¬ isOne c = true := by
          rw [isOne, beq_iff_eq]
          exact hone
        rw [hdiscard, ih, if_neg hnone]
        rfl

/-- The map of a payload is filled with what stands at its places. -/
theorem holds_marked (payload : Bytes) : Holds (wcFromMapFormat payload) (marked (cstr payload)) := by
  rw [wcFromMapFormat, parse_places]
  exact holds_tokens (marked_tokens (cstr payload))

/-! ### What is kept while reading -/

/-- The variables of the parser when it has read so much of a payload. -/
def parsed (text : Bytes) : Parser := text.foldl parseStep ⟨.start, [], 0, hmCreate 1024⟩

/-- What it keeps is no more than what it has read. -/
theorem parsed_reading (text : Bytes) :
    Reading (parsed text).hm (parsed text).word (parsed text).count text.length := by
  have hfold : ∀ {p : Parser} {read : Nat}, Reading p.hm p.word p.count read →
      Reading (text.foldl parseStep p).hm (text.foldl parseStep p).word (text.foldl parseStep p).count
        (read + text.length) := by
    induction text with
    | nil => intro p read h; exact h
    | cons c text ih =>
        intro p read h
        have hrest := @ih (parseStep p c) (read + 1) (h.parseStep true c)
        rwa [Nat.add_assoc, Nat.add_comm 1] at hrest
  have hall := @hfold ⟨.start, [], 0, hmCreate 1024⟩ 0 (reading_create 1024)
  rwa [Nat.zero_add] at hall

/-- **The map of a payload** weighs no more than the payload. -/
theorem weight_fromMapFormat (payload : Bytes) :
    weight (wcFromMapFormat payload).entries ≤ (cstr payload).length := by
  rw [← wcFromMapFormatIn_true]
  exact (filled_fromMapFormat (fun _ => true) payload).weight

/-! ### The grammar -/

/-- **A payload is parsed exactly by its grammar.**  The map gives a word the ones of all
places where it stands, and no word that stands at none; a place is where a maximal run of
letters is, the first 255 of which are the word, with a maximal run of ones right behind it.
All counts stay in range on the way. -/
theorem fromMapFormat_grammar (payload : Bytes) (hlength : (cstr payload).length < 2 ^ 31) :
    (∀ key, hmGet (wcFromMapFormat payload) key =
      if 0 < tally (marked (cstr payload)) (lower key) then some (tally (marked (cstr payload)) (lower key))
      else none) ∧
      (∀ key n, (key, n) ∈ (wcFromMapFormat payload).entries ↔ tally (marked (cstr payload)) key = n ∧ 0 < n) ∧
      ((wcFromMapFormat payload).entries.map Prod.fst).Nodup ∧
      (∀ key, 0 < tally (marked (cstr payload)) key ↔ ∃ i run ones,
        placeAt isAlpha isOne (cstr payload) i = some (run, ones) ∧ (lower run).take 255 = key) ∧
      (∀ i run ones, placeAt isAlpha isOne (cstr payload) i = some (run, ones) ↔
        ∃ before after, before.length = i ∧ cstr payload = before ++ (run ++ (ones ++ after)) ∧
          Maximal isAlpha before run (ones ++ after) ∧ Maximal isOne (before ++ run) ones after) ∧
      (∀ done rest, cstr payload = done ++ rest →
        (parsed done).count < 2 ^ 31 ∧ ∀ t ∈ (parsed done).hm.entries, t.2 < 2 ^ 31) ∧
      ∀ t ∈ (wcFromMapFormat payload).entries, t.2 < 2 ^ 31 := by
  have hholds := holds_marked payload
  refine ⟨?_, ?_, hholds.summary.keys, ?_, fun i run ones => placeAt_eq_some fun _ => isAlpha_of_isOne, ?_, ?_⟩
  · intro key
    rw [hmGet_lists hholds.placed hholds.summary.lists, hholds.tally]
  · intro key n
    rw [hholds.summary.mem_iff, hholds.tally]
  · intro key
    rw [tally_pos_iff fun t ht => (marked_tokens _ t ht).pos]
    simp only [marked, List.map_map, List.mem_map, Function.comp_apply, mem_places]
    constructor
    · rintro ⟨⟨run, ones⟩, ⟨i, hat⟩, hkey⟩
      exact ⟨i, run, ones, hat, hkey⟩
    · rintro ⟨i, run, ones, hat, hkey⟩
      exact ⟨(run, ones), ⟨i, hat⟩, hkey⟩
  · intro done rest htext
    have hreading := parsed_reading done
    have hcount := hreading.count
    have hnonneg := hreading.filled.nonneg
    have hle := congrArg List.length htext
    rw [List.length_append] at hle
    refine ⟨by omega, ?_⟩
    intro t ht
    have hentry := (hreading.filled.entries t ht).2
    omega
  · intro t ht
    have hentry := entry_le_weight hholds.summary.pos ht
    have hweight := weight_fromMapFormat payload
    omega

/-- Junk, another digit and a word without ones count nothing. -/
theorem fromMapFormat_junk : (cstr (ascii "11The1,the112x!end")).length < 2 ^ 31 ∧
    (∀ key, hmGet (wcFromMapFormat (ascii "11The1,the112x!end")) key =
      if 0 < tally (marked (cstr (ascii "11The1,the112x!end"))) (lower key) then
        some (tally (marked (cstr (ascii "11The1,the112x!end"))) (lower key))
      else none) ∧ marked (cstr (ascii "11The1,the112x!end")) = [(ascii "the", 1), (ascii "the", 2)] :=
  ⟨by decide +kernel, (fromMapFormat_grammar _ (by decide +kernel)).1, by decide +kernel⟩

end ChordDht.WordCount
