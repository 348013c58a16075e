/-
Whether a worker understands the chunks it is sent.

The worker tells the two forms of a message apart by the three bytes behind the type,
and in the legacy form these are the first of the chunk.  A chunk that begins with three
digits is read as a message of the newer form, whose digits are the limit for the reply;
what does not fit is left out without a word.
-/
import ChordDht.WordCount.MapReply

namespace ChordDht.WordCount

open Outcome

/-- The worker goes into its legacy branch. -/
def TakenForLegacy (chunk : Bytes) : Prop :=
  isNewProtocol (mapFrame chunk ++ [0]) (mapFrame chunk).length = false

/-- The worker answers the distributor's message like its legacy branch, and reading the
reply gives every word as often as it is in the chunk. -/
def Understood (chunk : Bytes) : Prop :=
  ∃ reply, handle (mapFrame chunk) = .returns (.ofText reply) ∧
    handleLegacy (mapFrame chunk) = .returns (.ofText reply) ∧
    ∀ w, (hmGet (wcFromMapFormat reply) w).getD 0 = (words chunk).count (lower w)

theorem ofText_injective {s t : Bytes} (h : Reply.ofText s = Reply.ofText t) : s = t :=
  List.append_cancel_right (congrArg Reply.bytes h)

theorem takenForLegacy_iff {chunk : Bytes} (hzero : (0 : UInt8) ∉ chunk) :
    TakenForLegacy chunk ↔ announced chunk = none := by
  have hmem : mapFrame chunk ++ [0] = ascii "map" ++ (sent chunk ++ [0, 0]) := by
    rw [mapFrame, frame_eq rfl hzero, List.append_assoc, List.append_assoc]
    rfl
  rw [TakenForLegacy, hmem, mapFrame, frame_length rfl hzero, isNewProtocol_frame rfl, announced_sent]
  exact Option.isSome_eq_false_iff.trans Option.isNone_iff_eq_none

/-- A chunk without digits in front is understood. -/
theorem understood_plain {chunk : Bytes} (h : Chunk chunk) (hzero : (0 : UInt8) ∉ chunk)
    (hplain : announced chunk = none) : Understood chunk := by
  have hlegacy := handleLegacy_chunk h hzero
  refine ⟨_, ?_, hlegacy, decode_counted h.short⟩
  rw [mapFrame, handle_map_plain hzero hplain]
  exact hlegacy

/-- With digits in front it is, as far as the reply fits their number. -/
theorem understood_announced {chunk : Bytes} (h : Chunk chunk) (hzero : (0 : UInt8) ∉ chunk) {n : Nat}
    (hn : announced chunk = some n) : Understood chunk ↔ n = 0 ∨ encodedSize chunk < n := by
  have hlegacy := handleLegacy_chunk h hzero
  have hsize := encodedSize_lt h
  have hmax : maxMsgLen = 1500 := rfl
  have hruns : runs isAlpha ((sent chunk).drop 3) = runs isAlpha chunk := by
    rw [runs_announced (by rw [announced_sent]; exact hn), runs_sent h]
  have hzero' : (0 : UInt8) ∉ (sent chunk).drop 3 :=
    fun hmem => zero_notMem_sent hzero (List.mem_of_mem_drop hmem)
  have hreply : handle (mapFrame chunk) =
      .returns (.ofText (wcToMapFormat (counted chunk) (if n = 0 then maxMsgLen else n))) := by
    rw [mapFrame, handle_map_announced hzero hn, mapReply_runs hzero' h.short hruns]
  have hlimit : (n = 0 ∨ encodedSize chunk < n) ↔ encodedSize chunk < if n = 0 then maxMsgLen else n := by
    by_cases hnone : n = 0
    · rw [if_pos hnone]
      exact iff_of_true (Or.inl hnone) (by omega)
    · rw [if_neg hnone]
      exact or_iff_right hnone
  have hpos : 0 < if n = 0 then maxMsgLen else n := by
    split
    · omega
    · omega
  rw [hlimit]
  constructor
  · rintro ⟨reply, hhandle, _, hcounts⟩
    rw [hreply, Outcome.returns.injEq] at hhandle
    rw [← ofText_injective hhandle] at hcounts
    exact (decode_iff h.short h.length hpos).mp hcounts
  · intro hroom
    rw [mapFormat_full h.short h.length hroom] at hreply
    exact ⟨_, hreply, hlegacy, decode_counted h.short⟩

/-- A chunk of a file without zero bytes and with short letter runs. -/
theorem chunk_of_file {file : Bytes} (hzero : (0 : UInt8) ∉ file) (hshort : ShortRuns file)
    {chunk : Bytes} (hchunk : chunk ∈ chunks file) : Chunk chunk ∧ (0 : UInt8) ∉ chunk := by
  obtain ⟨hflat, hall, -⟩ := chunks_runs hshort
  refine ⟨hall chunk hchunk, ?_⟩
  intro hmem
  rw [← hflat] at hzero
  exact hzero (List.mem_flatten.mpr ⟨chunk, hchunk, hmem⟩)

/-- **A chunk is taken for what it is and understood** exactly if it does not begin with three
digits. -/
theorem taken_and_understood_iff {file : Bytes} (hzero : (0 : UInt8) ∉ file) (hshort : ShortRuns file)
    {chunk : Bytes} (hchunk : chunk ∈ chunks file) :
    TakenForLegacy chunk ∧ Understood chunk ↔ announced chunk = none := by
  obtain ⟨h, hzero'⟩ := chunk_of_file hzero hshort hchunk
  rw [takenForLegacy_iff hzero']
  exact and_iff_left_of_imp (understood_plain h hzero')

/-- **Which chunks are understood**: those that do not begin with three digits, and of the
others those whose digits are zero or leave room for the whole reply.  Only the former
are taken for what they are. -/
theorem understood_iff {file : Bytes} (hzero : (0 : UInt8) ∉ file) (hshort : ShortRuns file)
    {chunk : Bytes} (hchunk : chunk ∈ chunks file) :
    (TakenForLegacy chunk ↔ announced chunk = none) ∧
      (Understood chunk ↔ ∀ n ∈ announced chunk, n = 0 ∨ encodedSize chunk < n) := by
  obtain ⟨h, hzero'⟩ := chunk_of_file hzero hshort hchunk
  refine ⟨takenForLegacy_iff hzero', ?_⟩
  cases hn : announced chunk with
  | none =>
      refine iff_of_true (understood_plain h hzero' hn) ?_
      intro n hmem
      cases hmem
  | some n =>
      rw [understood_announced h hzero' hn]
      constructor
      · intro hroom m hm
        rw [← Option.some.inj hm]
        exact hroom
      · intro hroom
        exact hroom n rfl

/-- The file `the text` is one chunk, and it is understood. -/
theorem text_understood : TakenForLegacy (ascii "the text") ∧ Understood (ascii "the text") := by
  have h := @understood_iff (ascii "the text") (by decide) (by unfold ShortRuns; decide +kernel)
    (ascii "the text") (by decide +kernel)
  have hplain : announced (ascii "the text") = none := by decide
  refine ⟨h.1.mpr hplain, h.2.mpr ?_⟩
  intro n hn
  rw [hplain] at hn
  cases hn

/-- The digits in front of `001 a` leave no room for its word. -/
theorem digits_lose_word :
    (0 : UInt8) ∉ ascii "001 a" ∧ ShortRuns (ascii "001 a") ∧ ascii "001 a" ∈ chunks (ascii "001 a") ∧
      handle (mapFrame (ascii "001 a")) = .returns (.ofText []) ∧
      (words (ascii "001 a")).count (ascii "a") = 1 ∧ ¬ Understood (ascii "001 a") := by
  have hhandle : handle (mapFrame (ascii "001 a")) = .returns (.ofText []) := by decide +kernel
  refine ⟨by decide, by unfold ShortRuns; decide +kernel, by decide +kernel, hhandle, by decide +kernel, ?_⟩
  rintro ⟨reply, hreply, _, hcounts⟩
  rw [hhandle, Outcome.returns.injEq] at hreply
  have hcount := hcounts (ascii "a")
  rw [← ofText_injective hreply] at hcount
  exact absurd hcount (by decide +kernel)

end ChordDht.WordCount
