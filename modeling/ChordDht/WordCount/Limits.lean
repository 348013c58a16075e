/-
The limits on the way from the file to the table.

A message has room for 1496 bytes of a chunk, and a chunk may have one more; a reply has
room for all counts of a text that came in a message, since each word pays for its letters
and for a separator, which is a one when it comes again; and what a payload counts to is no
longer in decimal than the payload was in ones.  With another limit, or with less memory, a
reply is shorter, and can still be sent.
-/
import ChordDht.WordCount.FileChunks
import ChordDht.WordCount.Grammar
import ChordDht.WordCount.Phases

namespace ChordDht.WordCount

/-! ### The message -/

/-- **What a message drops** of a chunk: its last byte at most, and a letter only when there is
nothing else. -/
theorem sent_drops {file chunk rest : Bytes} (h : Chunked file chunk rest) :
    chunk = sent chunk ∨ ∃ c, chunk = sent chunk ++ [c] ∧ (isAlpha c = true → ∀ d ∈ chunk, isAlpha d = true) := by
  have hlen := h.length
  have hmax : chunkMaxSize = 1497 := rfl
  by_cases hroom : chunk.length ≤ 1496
  · exact Or.inl (sent_eq_self hroom).symm
  · obtain ⟨front, c, hchunk⟩ := (List.eq_nil_or_concat chunk).resolve_left h.nonempty
    rw [List.concat_eq_append] at hchunk
    have hfront : sent chunk = front := by
      rw [hchunk, List.length_append, List.length_singleton] at hlen hroom
      rw [hchunk]
      exact List.take_left' (by omega)
    refine Or.inr ⟨c, by rw [hfront, hchunk], ?_⟩
    intro hc
    rcases h.last with ⟨-, hlt⟩ | hlast | ⟨-, hall⟩
    · omega
    · have hnot := hlast c (by rw [hchunk]; simp)
      rw [hc] at hnot
      exact absurd hnot.symm Bool.false_ne_true
    · exact hall

/-! ### Whatever the limit -/

/-- A text that can be sent with its zero when there are `maxLen` bytes. -/
structure Sendable (maxLen : Nat) (text : Bytes) : Prop where
  zero : (0 : UInt8) ∉ text
  room : text.length + 1 ≤ maxLen

theorem sendable_nil {maxLen : Nat} (h : 0 < maxLen) : Sendable maxLen [] := ⟨List.not_mem_nil, h⟩

theorem sendable_fitPrefix {entry : Bytes × ℤ → Bytes} {maxLen : Nat} (h : 0 < maxLen) {ts : List (Bytes × ℤ)}
    (hzero : ∀ us, us <+: ts → (0 : UInt8) ∉ us.flatMap entry) :
    Sendable maxLen ((fitPrefix entry maxLen 0 ts).flatMap entry) := by
  rcases @fitPrefix_room entry maxLen ts 0 with hnone | hroom
  · rw [hnone]
    exact sendable_nil h
  · have hfront : fitPrefix entry maxLen 0 ts <+: ts := fitPrefix_prefix ts 0
    exact ⟨hzero _ hfront, by rwa [Nat.zero_add] at hroom⟩

section Replies

variable {hm : HashMap} {read maxLen : Nat}

/-- **A reply to a map request can be sent.** -/
theorem Filled.sendable_map (h : Filled hm read) (hread : read ≤ recvBufferSize) (hpos : 0 < maxLen)
    (hmax : maxLen ≤ maxMsgLen) : Sendable maxLen (wcToMapFormat hm maxLen) := by
  have hsize : recvBufferSize = 2048 := rfl
  have hmost : maxMsgLen = 1500 := rfl
  have hentries := h.entries
  rw [toMapFormat_fitPrefix (fun t ht => (hentries t ht).1.pos) (Or.inl (Nat.le_refl maxLen)) ?_]
  · exact sendable_fitPrefix hpos fun us hus => zero_notMem_map fun t ht => (hentries t (hus.subset ht)).1
  · intro t ht
    obtain ⟨htoken, hentry⟩ := hentries t ht
    have hlen := mapEntry_length (Int.le_of_lt htoken.pos)
    omega

/-- **A reply to a reduce request can be sent.** -/
theorem Filled.sendable_reduce (h : Filled hm read) (hread : read ≤ recvBufferSize) (hpos : 0 < maxLen)
    (hmax : maxLen ≤ maxMsgLen) : Sendable maxLen (wcToReduceFormat hm maxLen) := by
  have hsize : recvBufferSize = 2048 := rfl
  have hmost : maxMsgLen = 1500 := rfl
  have hentries := h.entries
  have hdigits : ∀ t ∈ hm.entries, (decimalInt t.2).length < 32 := by
    intro t ht
    obtain ⟨htoken, hentry⟩ := hentries t ht
    exact decimalInt_short htoken.pos (by omega)
  rw [toReduceFormat_fitPrefix (fun t ht => reduceEntry_pos (hentries t ht).1) hdigits
    (Or.inl (Nat.le_refl maxLen)) ?_]
  · exact sendable_fitPrefix hpos fun us hus => zero_notMem_reduce fun t ht => (hentries t (hus.subset ht)).1
  · intro t ht
    obtain ⟨htoken, hentry⟩ := hentries t ht
    have hlen := mapEntry_length (Int.le_of_lt htoken.pos)
    have hreduce := reduceEntry_length_le htoken
    omega

end Replies

/-! ### The replies -/

/-- **A reply to a map request** has room for all counts of a text that came in a message. -/
theorem map_room {text : Bytes} (hlen : (cstr text).length ≤ 1496) :
    (wcTokenizeAndCount (hmCreate 1024) text).entries.foldl (appendMapEntry maxMsgLen) ⟨[], false⟩
        = ⟨(wcTokenizeAndCount (hmCreate 1024) text).entries.flatMap mapEntry, false⟩ ∧
      ((wcTokenizeAndCount (hmCreate 1024) text).entries.flatMap mapEntry).length
        ≤ (cstr text).length + 1 := by
  have hholds := (holds_create 1024).tokenize text
  rw [List.nil_append] at hholds
  have htokens := hholds.tokens (tokens_cut _)
  have hcounts := map_length fun t ht => Int.le_of_lt (htokens t ht).pos
  have hweight := hholds.weight
  have hcut := weight_cut (cstr text)
  have hmax : maxMsgLen = 1500 := rfl
  refine ⟨fold_room (fun t ht => appends_map (Int.le_of_lt (htokens t ht).pos) maxMsgLen) ?_ (by omega), ?_⟩
  · omega
  · omega

/-- **A reply to a reduce request** has room for all counts of a payload, and is no longer. -/
theorem reduce_room {payload : Bytes} (hlen : (cstr payload).length ≤ payloadMax) :
    (wcFromMapFormat payload).entries.foldl (appendReduceEntry maxMsgLen) ⟨[], false⟩
        = ⟨(wcFromMapFormat payload).entries.flatMap reduceEntry, false⟩ ∧
      ((wcFromMapFormat payload).entries.flatMap reduceEntry).length ≤ (cstr payload).length := by
  have hholds := holds_marked payload
  have htokens := hholds.tokens (marked_tokens _)
  have hcounts := map_length fun t ht => Int.le_of_lt (htokens t ht).pos
  have hweight := weight_fromMapFormat payload
  have hdecimal := reduce_length_le htokens
  have hmax : maxMsgLen = 1500 := rfl
  have hpayload : payloadMax = 1493 := rfl
  have hdigits : ∀ t ∈ (wcFromMapFormat payload).entries, (decimalInt t.2).length < 32 := by
    intro t ht
    have hentry := entry_le_weight hholds.summary.pos ht
    exact decimalInt_short (htokens t ht).pos (by omega)
  refine ⟨fold_room (fun t ht => appends_reduce (hdigits t ht) maxMsgLen) ?_ (by omega), ?_⟩
  · omega
  · omega

/-- **No limit loses a count.**  A message drops the last byte of a chunk at most, and a letter
only when the chunk is all letters; the counts of the text in it have room in the reply, which
has room where the distributor receives it; and so do those of a payload in theirs, which is
no longer than the payload. -/
theorem limits_lose_nothing :
    (∀ file : Bytes, (0 : UInt8) ∉ file → ∀ chunk ∈ chunks file,
      mapFrame chunk = ascii "map" ++ (sent chunk ++ [0]) ∧
      (chunk = sent chunk ∨
        ∃ c, chunk = sent chunk ++ [c] ∧ (isAlpha c = true → ∀ d ∈ chunk, isAlpha d = true)) ∧
      ((wcTokenizeAndCount (hmCreate 1024) ((mapFrame chunk).drop 3)).entries.foldl (appendMapEntry maxMsgLen)
        ⟨[], false⟩).overflow = false ∧
      (Reply.ofText (mapReply ((mapFrame chunk).drop 3) maxMsgLen)).bytes.length ≤ maxMsgLen - 1) ∧
    ∀ payload : Bytes, (cstr payload).length ≤ payloadMax →
      ((wcFromMapFormat payload).entries.foldl (appendReduceEntry maxMsgLen) ⟨[], false⟩).overflow = false ∧
      (reduceReply payload maxMsgLen).length ≤ (cstr payload).length := by
  have hlong : ¬ maxMsgLen ≤ 1 := by decide
  refine ⟨?_, ?_⟩
  · intro file hzero chunk hchunk
    obtain ⟨hflat, hall⟩ := @chunksOf_chunked (file.length + 1) file (Nat.lt_succ_self _)
    obtain ⟨front, back, hlist⟩ := List.append_of_mem hchunk
    have hchunked := hall front chunk back hlist
    have hzero' : (0 : UInt8) ∉ chunk := by
      intro hmem
      rw [← hflat] at hzero
      exact hzero (List.mem_flatten.mpr ⟨chunk, hchunk, hmem⟩)
    have hframe : mapFrame chunk = ascii "map" ++ (sent chunk ++ [0]) := frame_eq rfl hzero'
    have htext : cstr ((mapFrame chunk).drop 3) = sent chunk := by
      rw [hframe, List.drop_left' (by rfl)]
      exact cstr_append_zero (zero_notMem_sent hzero') []
    have hsent := sent_length chunk
    obtain ⟨hfold, hlen⟩ := @map_room ((mapFrame chunk).drop 3) (by rw [htext]; exact hsent)
    rw [htext] at hlen
    have hmax : maxMsgLen = 1500 := rfl
    refine ⟨hframe, sent_drops hchunked, by rw [hfold], ?_⟩
    show (mapReply _ _ ++ [0]).length ≤ _
    rw [mapReply, wcToMapFormat, if_neg hlong, hfold, List.length_append, List.length_singleton]
    show (List.flatMap _ _).length + 1 ≤ _
    omega
  · intro payload hpayload
    obtain ⟨hfold, hlen⟩ := reduce_room hpayload
    refine ⟨by rw [hfold], ?_⟩
    rw [reduceReply, wcToReduceFormat, if_neg hlong, hfold]
    exact hlen

/-- A chunk of three words, and a payload of two. -/
theorem limits_lose_nothing_small :
    (Reply.ofText (mapReply ((mapFrame (ascii "To be, to")).drop 3) maxMsgLen)).bytes.length ≤ maxMsgLen - 1 ∧
      (reduceReply (ascii "to11be1") maxMsgLen).length ≤ (cstr (ascii "to11be1")).length :=
  ⟨(limits_lose_nothing.1 (ascii "To be, to") (by decide +kernel) (ascii "To be, to") (by decide +kernel)).2.2.2,
    (limits_lose_nothing.2 (ascii "to11be1") (by decide +kernel)).2⟩

end ChordDht.WordCount
