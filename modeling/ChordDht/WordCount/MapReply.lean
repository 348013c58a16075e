/-
Map requests: what a worker replies to a chunk.

A chunk is counted as its words, though the last byte of a full one has no room in the
message; the reply is the entries of the map it was counted in, as many as fit the
limit, and reading a reply gives the counts of the chunk exactly when all of them did:
`decode_iff`.
-/
import ChordDht.WordCount.Frames
import ChordDht.WordCount.Tokens

namespace ChordDht.WordCount

open Outcome

/-- The bytes a text of these words takes as a reply to a map request. -/
def encodedSize (text : Bytes) : Nat :=
  ((words text).dedup.map fun w => w.length + (words text).count w).sum

/-! ### The words of a text -/

theorem isAlpha_toLower {c : UInt8} (h : isAlpha c = true) : isAlpha (toLower c) = true := by
  have h65 : (65 : UInt8).toNat = 65 := rfl
  have h90 : (90 : UInt8).toNat = 90 := rfl
  have h97 : (97 : UInt8).toNat = 97 := rfl
  have h122 : (122 : UInt8).toNat = 122 := rfl
  have h32 : (32 : UInt8).toNat = 32 := rfl
  by_cases hup : 65 ≤ c ∧ c ≤ 90
  · rw [toLower, if_pos hup]
    simp only [isAlpha, Bool.or_eq_true, Bool.and_eq_true, decide_eq_true_eq, UInt8.le_iff_toNat_le,
      UInt8.toNat_add] at hup ⊢
    omega
  · rwa [toLower, if_neg hup]

theorem cutWords_eq {text : Bytes} (h : ShortRuns text) : cutWords text = words text := by
  refine List.map_congr_left ?_
  intro r hr
  refine List.take_of_length_le ?_
  rw [lower, List.length_map]
  exact h r hr

/-- What is kept of a run of letters, with a positive count, is a token. -/
theorem token_kept {run : Bytes} (hne : run ≠ []) (hall : ∀ c ∈ run, isAlpha c = true) {n : ℤ} (hn : 0 < n) :
    Token ((lower run).take wordMax, n) := by
  have hpos := List.length_pos_iff.mpr hne
  have hmax : wordMax = 255 := rfl
  refine ⟨?_, ?_, ?_, List.length_take_le .., hn⟩
  · show (lower run).take wordMax ≠ []
    rw [← List.length_pos_iff, List.length_take, lower, List.length_map]
    omega
  · intro c hc
    obtain ⟨d, hd, rfl⟩ := List.mem_map.mp (List.mem_of_mem_take hc)
    exact isAlpha_toLower (hall d hd)
  · show lower ((lower run).take wordMax) = (lower run).take wordMax
    rw [lower_take, lower_lower]

/-- A word of the text, as it is counted, is a token. -/
theorem tokens_cut (text : Bytes) : ∀ t ∈ ones (cutWords text), Token t := by
  intro t ht
  obtain ⟨w, hw, rfl⟩ := List.mem_map.mp ht
  obtain ⟨r, hr, rfl⟩ := List.mem_map.mp hw
  obtain ⟨hne, hall⟩ := mem_runs hr
  exact token_kept hne hall Int.one_pos

theorem tokens_ones {text : Bytes} (h : ShortRuns text) : ∀ t ∈ ones (words text), Token t := by
  rw [← cutWords_eq h]
  exact tokens_cut text

/-- What is kept of each run, with a separator for each, has room in the text and one byte more. -/
theorem weight_runs {f : Bytes → Bytes} (hf : ∀ r, (f r).length ≤ r.length) (text : Bytes) :
    weight (ones ((runs isAlpha text).map f)) ≤ text.length + 1 := by
  have hle := @runs_length_le UInt8 isAlpha text
  have hweight : weight (ones ((runs isAlpha text).map f))
      ≤ (((runs isAlpha text).map fun r => r.length + 1).sum : Nat) := by
    unfold ones
    generalize runs isAlpha text = rs
    induction rs with
    | nil => exact Int.le_refl _
    | cons r rs ih =>
        have hlen := hf r
        rw [List.map_cons, List.map_cons, weight_cons, List.map_cons, List.sum_cons]
        push_cast at ih ⊢
        omega
  omega

/-- The words of a text, each with a separator, have room in it and one byte more. -/
theorem weight_ones (text : Bytes) : weight (ones (words text)) ≤ text.length + 1 :=
  weight_runs (fun r => by rw [lower, List.length_map]) text

theorem weight_cut (text : Bytes) : weight (ones (cutWords text)) ≤ text.length + 1 := by
  refine weight_runs ?_ text
  intro r
  rw [lower, List.length_take, List.length_map]
  omega

/-! ### A map filled with tokens -/

/-- Its entries are tokens. -/
theorem Holds.tokens {hm : HashMap} {ts : List (Bytes × ℤ)} (h : Holds hm ts)
    (hts : ∀ t ∈ ts, Token t) : ∀ e ∈ hm.entries, Token e := by
  intro ⟨k, n⟩ he
  have hpos := h.summary.pos _ he
  have htally := h.summary.tally_of_mem he
  have hkey : k ∈ ts.map Prod.fst := by
    refine (tally_pos_iff fun t ht => (hts t ht).pos).mp ?_
    rw [← h.tally, htally]
    exact hpos
  obtain ⟨t, ht, rfl⟩ := List.mem_map.mp hkey
  have htoken := hts t ht
  exact ⟨htoken.nonempty, htoken.letters, htoken.lower, htoken.short, hpos⟩

theorem holds_tokens {ts : List (Bytes × ℤ)} (hts : ∀ t ∈ ts, Token t) :
    Holds (putAll (hmCreate 1024) ts) ts := by
  refine @Holds.putAll ts [] _ (holds_create 1024) ?_
  intro t ht
  exact ⟨(hts t ht).lower, (hts t ht).pos⟩

/-- Tokens are written without a zero byte. -/
theorem zero_notMem_map {ts : List (Bytes × ℤ)} (hts : ∀ t ∈ ts, Token t) :
    (0 : UInt8) ∉ ts.flatMap mapEntry := by
  intro hmem
  obtain ⟨t, ht, hzero⟩ := List.mem_flatMap.mp hmem
  rcases List.mem_append.mp hzero with hzero | hzero
  · exact absurd ((hts t ht).letters 0 hzero) (by decide)
  · exact absurd (List.eq_of_mem_replicate hzero) (by decide)

/-- Counting a text puts its words. -/
theorem Holds.tokenize {hm : HashMap} {ts : List (Bytes × ℤ)} (h : Holds hm ts) (text : Bytes) :
    Holds (wcTokenizeAndCount hm text) (ts ++ ones (cutWords (cstr text))) := by
  rw [wcTokenizeAndCount, tokenize_words]
  exact h.putAll fun t ht => ⟨(tokens_cut _ t ht).lower, (tokens_cut _ t ht).pos⟩

/-- **Reading tokens** fills a map with them. -/
theorem fromMapFormat_tokens {ts : List (Bytes × ℤ)} (hts : ∀ t ∈ ts, Token t) :
    wcFromMapFormat (ts.flatMap mapEntry) = putAll (hmCreate 1024) ts := by
  unfold wcFromMapFormat
  rw [cstr_eq_self (zero_notMem_map hts), parse_tokens ts hts (Or.inl rfl)]
  rfl

/-- What a payload counts to: its text up to the zero. -/
theorem tokenize_payload {text : Bytes} (hzero : (0 : UInt8) ∉ text) (hshort : ShortRuns text)
    (rest : Bytes) :
    wcTokenizeAndCount (hmCreate 1024) (text ++ 0 :: rest) = putAll (hmCreate 1024) (ones (words text)) := by
  rw [wcTokenizeAndCount, cstr_append_zero hzero, tokenize_words, cutWords_eq hshort]

/-! ### The size of a reply -/

/-- The counts of the words of a text. -/
theorem summary_dedup (ws : List Bytes) : Summary (ws.dedup.map fun w => (w, (ws.count w : ℤ))) := by
  refine ⟨?_, ?_⟩
  · rw [List.map_map]
    exact (List.map_id ws.dedup).symm ▸ List.nodup_dedup ws
  · intro t ht
    obtain ⟨w, hw, rfl⟩ := List.mem_map.mp ht
    have hcount := List.count_pos_iff.mpr (List.mem_dedup.mp hw)
    show (0 : ℤ) < ws.count w
    omega

theorem tally_dedup (ws : List Bytes) (k : Bytes) :
    tally (ws.dedup.map fun w => (w, (ws.count w : ℤ))) k = ws.count k := by
  by_cases hk : k ∈ ws
  · exact (summary_dedup ws).tally_of_mem (List.mem_map.mpr ⟨k, List.mem_dedup.mpr hk, rfl⟩)
  · rw [tally_of_notMem, List.count_eq_zero.mpr hk]
    · rfl
    · rw [List.map_map]
      intro hmem
      obtain ⟨w, hw, rfl⟩ := List.mem_map.mp hmem
      exact hk (List.mem_dedup.mp hw)

/-- The entries of the map that a text is counted in take the size of the text's words. -/
theorem encodedSize_eq {text : Bytes} {hm : HashMap} (h : Holds hm (ones (words text))) :
    (hm.entries.flatMap mapEntry).length = encodedSize text := by
  have hperm : hm.entries.Perm ((words text).dedup.map fun w => (w, ((words text).count w : ℤ))) := by
    refine h.summary.perm (summary_dedup _) ?_
    intro k
    rw [h.tally, tally_dedup]
    exact tally_ones (words text) k
  have hsum := (hperm.map fun t => (t.1.length : ℤ) + t.2).sum_eq
  have hlen := map_length fun t ht => Int.le_of_lt (h.summary.pos t ht)
  have hsize : (((words text).dedup.map fun w => (w, ((words text).count w : ℤ))).map
      fun t => (t.1.length : ℤ) + t.2).sum = encodedSize text := by
    unfold encodedSize
    rw [Nat.cast_list_sum, List.map_map, List.map_map]
    refine congrArg List.sum (List.map_congr_left ?_)
    intro w _
    exact (Nat.cast_add _ _).symm
  rw [hsize] at hsum
  have hweight : weight hm.entries = encodedSize text := hsum
  omega

/-! ### What is written and read back -/

/-- The map a text is counted in. -/
def counted (text : Bytes) : HashMap := putAll (hmCreate 1024) (ones (words text))

theorem holds_counted {text : Bytes} (h : ShortRuns text) : Holds (counted text) (ones (words text)) :=
  holds_tokens (tokens_ones h)

theorem encodedSize_le {text : Bytes} (h : ShortRuns text) : encodedSize text ≤ text.length + 1 := by
  have hholds := holds_counted h
  have hsize := encodedSize_eq hholds
  have hlen := map_length fun t ht => Int.le_of_lt (hholds.summary.pos t ht)
  have hweight := hholds.weight
  have hones := weight_ones text
  omega

/-- Reading some of the entries of a map gives their tallies. -/
theorem decode_tally {ts : List (Bytes × ℤ)} (hts : ∀ t ∈ ts, Token t) (w : Bytes) :
    (hmGet (wcFromMapFormat (ts.flatMap mapEntry)) w).getD 0 = tally ts (lower w) := by
  rw [fromMapFormat_tokens hts]
  exact (holds_tokens hts).hmGet w

/-- **The whole reply is read as the counts of the text.** -/
theorem decode_counted {text : Bytes} (h : ShortRuns text) (w : Bytes) :
    (hmGet (wcFromMapFormat ((counted text).entries.flatMap mapEntry)) w).getD 0
      = (words text).count (lower w) := by
  have hholds := holds_counted h
  rw [decode_tally (hholds.tokens (tokens_ones h)), hholds.tally]
  exact tally_ones (words text) (lower w)

/-- With room for everything, everything is written. -/
theorem mapFormat_full {text : Bytes} (h : ShortRuns text) (hlen : text.length ≤ chunkMaxSize) {n : Nat}
    (hn : encodedSize text < n) :
    wcToMapFormat (counted text) n = (counted text).entries.flatMap mapEntry := by
  have hholds := holds_counted h
  have hsize := encodedSize_eq hholds
  have hle := encodedSize_le h
  have hmax : chunkMaxSize = 1497 := rfl
  rw [toMapFormat_fitPrefix hholds.summary.pos (Or.inr (Nat.le_refl _)) (entry_sizes (by omega))]
  rw [(fitPrefix_eq_self (counted text).entries 0 (by omega)).mpr (by omega)]

/-- **With less room a count is lost.** -/
theorem decode_iff {text : Bytes} (h : ShortRuns text) (hlen : text.length ≤ chunkMaxSize) {n : Nat}
    (hn : 0 < n) :
    (∀ w, (hmGet (wcFromMapFormat (wcToMapFormat (counted text) n)) w).getD 0
      = (words text).count (lower w)) ↔ encodedSize text < n := by
  have hholds := holds_counted h
  have hsize := encodedSize_eq hholds
  have hle := encodedSize_le h
  have hmax : chunkMaxSize = 1497 := rfl
  have htokens := hholds.tokens (tokens_ones h)
  constructor
  · intro hcounts
    refine Decidable.byContradiction ?_
    intro hsmall
    rw [toMapFormat_fitPrefix hholds.summary.pos (Or.inr (Nat.le_refl _)) (entry_sizes (by omega))] at hcounts
    obtain ⟨more, hmore⟩ : fitPrefix mapEntry n 0 (counted text).entries <+: (counted text).entries :=
      fitPrefix_prefix _ 0
    have hne : fitPrefix mapEntry n 0 (counted text).entries ≠ (counted text).entries := by
      intro hall
      have hfits := (fitPrefix_eq_self _ 0 (by omega)).mp hall
      omega
    generalize fitPrefix mapEntry n 0 (counted text).entries = written at hcounts hmore hne
    -- the first entry that was left out
    obtain ⟨e, rest, rfl⟩ : ∃ e rest, more = e :: rest := by
      refine List.exists_cons_of_ne_nil ?_
      intro hnil
      rw [hnil, List.append_nil] at hmore
      exact hne hmore
    have he : e ∈ (counted text).entries := by
      rw [← hmore]
      exact List.mem_append_right _ (List.mem_cons_self ..)
    have hmissing : e.1 ∉ written.map Prod.fst := by
      have hnodup := hholds.summary.keys
      rw [← hmore, List.map_append, List.map_cons] at hnodup
      intro hmem
      exact (List.nodup_append.mp hnodup).2.2 _ hmem _ (List.mem_cons_self ..) rfl
    have hwritten : ∀ t ∈ written, Token t := by
      intro t ht
      refine htokens t ?_
      rw [← hmore]
      exact List.mem_append_left _ ht
    have hcount := hcounts e.1
    rw [decode_tally hwritten, (htokens e he).lower, tally_of_notMem hmissing] at hcount
    have hall := hholds.tally e.1
    have hpos := hholds.summary.pos e he
    rw [hholds.summary.tally_of_mem he, ones, tally_ones, ← hcount] at hall
    omega
  · intro hroom w
    rw [mapFormat_full h hlen hroom]
    exact decode_counted h w

/-! ### A chunk in a message -/

/-- What a full chunk loses in the message is not a letter. -/
theorem runs_sent {chunk : Bytes} (h : Chunk chunk) : runs isAlpha (sent chunk) = runs isAlpha chunk := by
  have hlen := h.length
  have hmax : chunkMaxSize = 1497 := rfl
  by_cases hroom : chunk.length ≤ 1496
  · rw [sent_eq_self hroom]
  · rcases List.eq_nil_or_concat chunk with hnil | ⟨front, c, hchunk⟩
    · exact absurd hnil h.nonempty
    · rw [List.concat_eq_append] at hchunk
      have hc : isAlpha c = false := h.last (by omega) c (by rw [hchunk]; simp)
      have hfront : sent chunk = front := by
        rw [hchunk, List.length_append, List.length_singleton] at hlen hroom
        rw [hchunk]
        exact List.take_left' (by omega)
      rw [hfront, hchunk, runs_concat front hc]

/-- Digits in front are no part of a word. -/
theorem runs_announced {text : Bytes} {n : Nat} (h : announced text = some n) :
    runs isAlpha (text.drop 3) = runs isAlpha text := by
  obtain ⟨-, a, b, c, rest, rfl, ha, hb, hc, -⟩ := announced_le h
  rw [runs_cons _ (not_isAlpha_of_isDigit ha), runs_cons _ (not_isAlpha_of_isDigit hb),
    runs_cons _ (not_isAlpha_of_isDigit hc)]
  rfl

/-- **A text with the runs of the chunk** is replied to like the chunk. -/
theorem mapReply_runs {text chunk : Bytes} (hzero : (0 : UInt8) ∉ text) (hshort : ShortRuns chunk)
    (hruns : runs isAlpha text = runs isAlpha chunk) (rest : Bytes) (n : Nat) :
    mapReply (text ++ 0 :: rest) n = wcToMapFormat (counted chunk) n := by
  have hshort' : ShortRuns text := by
    rw [ShortRuns, hruns]
    exact hshort
  rw [mapReply, tokenize_payload hzero hshort', words, hruns]
  rfl

/-- In a message there is always room for the reply. -/
theorem encodedSize_lt {chunk : Bytes} (h : Chunk chunk) : encodedSize chunk < 1498 := by
  have hsize : encodedSize (sent chunk) = encodedSize chunk := by
    unfold encodedSize words
    rw [runs_sent h]
  have hshort : ShortRuns (sent chunk) := by
    rw [ShortRuns, runs_sent h]
    exact h.short
  have hle := encodedSize_le hshort
  have hsent := sent_length chunk
  omega

/-- **The legacy branch** replies to a chunk with all entries of its map. -/
theorem handleLegacy_chunk {chunk : Bytes} (h : Chunk chunk) (hzero : (0 : UInt8) ∉ chunk) :
    handleLegacy (mapFrame chunk) = .returns (.ofText ((counted chunk).entries.flatMap mapEntry)) := by
  have hsize := encodedSize_lt h
  have hmax : maxMsgLen = 1500 := rfl
  rw [mapFrame, handleLegacy_map hzero,
    mapReply_runs (zero_notMem_sent hzero) h.short (runs_sent h), mapFormat_full h.short h.length (by omega)]

end ChordDht.WordCount
