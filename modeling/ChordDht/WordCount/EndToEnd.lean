/-
The distributor from the file to the table.

With workers that go by the legacy branch what is printed is the table of the words of
the file: no limit on the way loses, cuts or doubles a word, and it makes no difference
how many workers there are.
-/
import ChordDht.WordCount.Phases
import ChordDht.WordCount.Table

namespace ChordDht.WordCount

open Outcome

/-- `main` of the distributor, without its sockets: what it prints. -/
def distribute (workers : Nat → Bytes → Outcome Reply) (workerCount : Nat) (file : Bytes) : Outcome Bytes := do
  let mapResults ← mapPhase workers workerCount 0 (chunks file)
  let reduceResults ← reducePhase workers workerCount (mapResults.length + 1) 0 mapResults
  return combineAndPrint reduceResults

/-- What the map phase collects counts the words of the file. -/
theorem collected_chunks {file : Bytes} (hshort : ShortRuns file) (w : Bytes) :
    tally (collected (chunks file)) w = (words file).count w := by
  obtain ⟨-, hchunks, hruns⟩ := chunks_runs hshort
  rw [collected_tally hchunks, words, hruns, List.map_flatMap]
  rfl

/-- **The table of a file**: a row for each of its words, with the number of times it
comes, the frequent ones first and words that come equally often in their order. -/
theorem distribute_table {file : Bytes} (hzero : (0 : UInt8) ∉ file) (hletter : ∃ c ∈ file, isAlpha c = true)
    (hshort : ShortRuns file) :
    ∃ rows : List Entry,
      (∀ workerCount, 0 < workerCount → distribute (fun _ => handleLegacy) workerCount file
        = .returns (ascii "word,frequency\n" ++ rows.flatMap row)) ∧
      rows.Pairwise Before ∧ ∀ w n, Entry.mk w n ∈ rows ↔ (words file).count w = n ∧ 0 < n := by
  obtain ⟨hflat, hchunks, -⟩ := chunks_runs hshort
  have hzeros : ∀ c ∈ chunks file, Chunk c ∧ (0 : UInt8) ∉ c := by
    intro c hc
    refine ⟨hchunks c hc, ?_⟩
    intro hmem
    rw [← hflat] at hzero
    exact hzero (List.mem_flatten.mpr ⟨c, hc, hmem⟩)
  have htokens := collected_tokens hchunks
  have hroom : ∀ t ∈ collected (chunks file), (mapEntry t).length ≤ payloadMax := by
    intro t ht
    obtain ⟨c, hc, hmem⟩ := List.mem_flatMap.mp ht
    have hchunk := hchunks c hc
    have hweight := weight_ones c
    have hlength := hchunk.length
    exact entry_room (tokens_ones hchunk.short) (by omega) (holds_counted hchunk.short) t hmem
  obtain ⟨rs, hrs, htally, hphase⟩ := reducePhase_tokens htokens hroom
    (Nat.lt_succ_of_le (length_le_flatMap fun t ht => mapEntry_pos (htokens t ht)))
  have hcount : ∀ w, tally rs w = (words file).count w := by
    intro w
    rw [htally, collected_chunks hshort]
  -- a word of the file has a tally, so something comes back
  have hne : rs ≠ [] := by
    obtain ⟨r, rest, hruns⟩ := List.exists_cons_of_ne_nil (runs_ne_nil hletter)
    have hword : lower r ∈ words file := by
      rw [words, hruns]
      exact List.mem_cons_self ..
    have hpos := List.count_pos_iff.mpr hword
    have htallied := hcount (lower r)
    rintro rfl
    rw [tally_nil] at htallied
    omega
  obtain ⟨rows, hprint, horder, hmem⟩ := combine_tokens hrs hne (zero_notMem_reduce hrs)
  refine ⟨rows, ?_, horder, ?_⟩
  · intro workerCount _
    rw [distribute, mapPhase_chunks workerCount 0 hzeros, returns_bind, hphase, returns_bind, hprint]
    rfl
  · intro w n
    rw [hmem, hcount]

/-- A file of three words, two of them the same. -/
theorem distribute_three : ∃ rows : List Entry,
    (∀ workerCount, 0 < workerCount → distribute (fun _ => handleLegacy) workerCount (ascii "To be, to")
      = .returns (ascii "word,frequency\n" ++ rows.flatMap row)) ∧
    rows.Pairwise Before ∧ ∀ w n, Entry.mk w n ∈ rows ↔ (words (ascii "To be, to")).count w = n ∧ 0 < n :=
  distribute_table (by decide) (by decide) (by unfold ShortRuns; decide +kernel)


end ChordDht.WordCount
