/-
`chunker.c`: cutting a file into chunks.

A chunk is as much of the file as there is room for, back to the last character that is
not a letter if the file goes on.  So no word is cut that fits a chunk, and the words of
the chunks are those of the file: `runs_chunks`.
-/
import ChordDht.Lib.CString
import ChordDht.Lib.Runs

namespace ChordDht.WordCount

/-- `CHUNK_MAX_SIZE`. -/
def chunkMaxSize : Nat := 1497

/-- One character in the loop of `chunker_next`: `pos` and `last_safe_split`, if it is set. -/
def readStep (s : Nat × Option Nat) (ch : UInt8) : Nat × Option Nat :=
  (s.1 + 1, if isAlpha ch then s.2 else some (s.1 + 1))

/-- `chunker_next` on what is left of the file: the chunk and what is left then, or nothing
at the end of the file. -/
def chunkerNext (file : Bytes) : Option (Bytes × Bytes) :=
  let (pos, lastSafeSplit) := (file.take chunkMaxSize).foldl readStep (0, none)
  if pos = 0 then none
  else
    match lastSafeSplit with
    | none => some (file.take pos, file.drop pos)
    | some split =>
        if pos = chunkMaxSize then some (file.take split, file.drop split)
        else some (file.take pos, file.drop pos)

/-- The chunks that so many calls of `chunker_next` return. -/
def chunksOf : Nat → Bytes → List Bytes
  | 0, _ => []
  | calls + 1, file =>
      match chunkerNext file with
      | none => []
      | some (chunk, rest) => chunk :: chunksOf calls rest

/-- The chunks of a file: there are no more of them than bytes. -/
def chunks (file : Bytes) : List Bytes := chunksOf (file.length + 1) file

/-! ### One chunk -/

/-- What the loop has seen: letters only, or something else and letters behind it. -/
theorem readStep_fold (text : Bytes) :
    (text.foldl readStep (0, none) = (text.length, none) ∧ ∀ c ∈ text, isAlpha c = true) ∨
      ∃ front c back, text = front ++ c :: back ∧ isAlpha c = false ∧ (∀ d ∈ back, isAlpha d = true) ∧
        text.foldl readStep (0, none) = (text.length, some (front.length + 1)) := by
  induction text using List.reverseRecOn with
  | nil => exact Or.inl ⟨rfl, fun c hc => absurd hc List.not_mem_nil⟩
  | append_singleton text ch ih =>
      rw [List.foldl_append, List.length_append]
      cases hch : isAlpha ch with
      | false =>
          refine Or.inr ⟨text, ch, [], rfl, hch, fun d hd => absurd hd List.not_mem_nil, ?_⟩
          rcases ih with ⟨hfold, _⟩ | ⟨_, _, _, _, _, _, hfold⟩ <;>
            simp [hfold, readStep, hch]
      | true =>
          rcases ih with ⟨hfold, hall⟩ | ⟨front, c, back, rfl, hc, hback, hfold⟩
          · refine Or.inl ⟨by simp [hfold, readStep, hch], ?_⟩
            intro d hd
            rcases List.mem_append.mp hd with hd | hd
            · exact hall d hd
            · rw [List.mem_singleton.mp hd]
              exact hch
          · refine Or.inr ⟨front, c, back ++ [ch], by simp, hc, ?_, by simp [hfold, readStep, hch]⟩
            intro d hd
            rcases List.mem_append.mp hd with hd | hd
            · exact hback d hd
            · rw [List.mem_singleton.mp hd]
              exact hch

/-- A chunk of the file and the rest of it. -/
structure Chunked (file chunk rest : Bytes) : Prop where
  eq : file = chunk ++ rest
  nonempty : chunk ≠ []
  length : chunk.length ≤ chunkMaxSize
  /-- It ends with the file, or behind something that is not a letter, or is full of letters. -/
  last : (rest = [] ∧ chunk.length < chunkMaxSize) ∨ (∀ c ∈ chunk.getLast?, isAlpha c = false) ∨
    (chunk.length = chunkMaxSize ∧ ∀ c ∈ chunk, isAlpha c = true)

theorem chunkerNext_chunked {file : Bytes} (hne : file ≠ []) :
    ∃ chunk rest, chunkerNext file = some (chunk, rest) ∧ Chunked file chunk rest := by
  have hpos := List.length_pos_iff.mpr hne
  have hmax : chunkMaxSize = 1497 := rfl
  have hlen : (file.take chunkMaxSize).length = min chunkMaxSize file.length := List.length_take
  have hnonzero : ¬ (file.take chunkMaxSize).length = 0 := by omega
  have htake : file.take (file.take chunkMaxSize).length = file.take chunkMaxSize := by
    rw [List.take_eq_take_iff]
    omega
  have hjoin : file.take chunkMaxSize ++ file.drop (file.take chunkMaxSize).length = file := by
    have h := List.take_append_drop (file.take chunkMaxSize).length file
    rwa [htake] at h
  have hchunk : file.take chunkMaxSize ≠ [] := fun h => hnonzero (by rw [h]; rfl)
  rcases readStep_fold (file.take chunkMaxSize) with ⟨hfold, hall⟩ | ⟨front, c, back, htext, hc, -, hfold⟩
  · refine ⟨_, _, by simp only [chunkerNext, hfold, hnonzero, if_false]; rfl, ?_⟩
    rw [htake]
    refine ⟨?_, hchunk, by omega, ?_⟩
    · exact hjoin.symm
    · by_cases hfull : (file.take chunkMaxSize).length = chunkMaxSize
      · exact Or.inr (Or.inr ⟨hfull, hall⟩)
      · refine Or.inl ⟨?_, by omega⟩
        rw [List.drop_eq_nil_iff]
        omega
  · by_cases hfull : (file.take chunkMaxSize).length = chunkMaxSize
    · have hsplit : file.take (front.length + 1) = front ++ [c] := by
        have hle : front.length + 1 ≤ chunkMaxSize := by
          rw [← hfull, htext, List.length_append, List.length_cons]
          omega
        have hfront : (file.take chunkMaxSize).take (front.length + 1) = front ++ [c] := by
          rw [htext, ← List.singleton_append, ← List.append_assoc]
          exact List.take_left' (by simp)
        rwa [List.take_take, Nat.min_eq_left hle] at hfront
      refine ⟨_, _, by simp only [chunkerNext, hfold, hfull, if_true]; rfl, ?_⟩
      rw [hsplit]
      refine ⟨?_, by simp, ?_, Or.inr (Or.inl (by simp [hc]))⟩
      · rw [← hsplit, List.take_append_drop]
      · rw [← hsplit, List.length_take]
        rw [htext, List.length_append, List.length_cons] at hfull
        omega
    · refine ⟨_, _, by simp only [chunkerNext, hfold, hnonzero, if_false, hfull]; rfl, ?_⟩
      rw [htake]
      refine ⟨?_, hchunk, by omega, Or.inl ⟨?_, by omega⟩⟩
      · exact hjoin.symm
      · rw [List.drop_eq_nil_iff]
        omega

/-! ### All chunks -/

/-- Every run of letters has room in the word buffers. -/
def ShortRuns (text : Bytes) : Prop := ∀ r ∈ runs isAlpha text, r.length ≤ 255

/-- A beginning of letters is part of a run. -/
theorem runs_of_letters {front more : Bytes} (hne : front ≠ []) (hall : ∀ c ∈ front, isAlpha c = true) :
    ∃ r ∈ runs isAlpha (front ++ more), front.length ≤ r.length := by
  rcases @text_cases UInt8 isAlpha more with rfl | ⟨c, rest, rfl, hc⟩ | ⟨r, hr, hletters, hmore⟩
  · rw [List.append_nil, runs_self hne hall]
    exact ⟨front, List.mem_singleton.mpr rfl, Nat.le_refl _⟩
  · rw [runs_first hne hall hc]
    exact ⟨front, List.mem_cons_self .., Nat.le_refl _⟩
  · have hboth : ∀ c ∈ front ++ r, isAlpha c = true := by
      intro c hc
      rcases List.mem_append.mp hc with hc | hc
      · exact hall c hc
      · exact hletters c hc
    have hne' : front ++ r ≠ [] := by simp [hne]
    have hle : front.length ≤ (front ++ r).length := by simp
    rcases hmore with rfl | ⟨c, rest, rfl, hc⟩
    · rw [runs_self hne' hboth]
      exact ⟨_, List.mem_singleton.mpr rfl, hle⟩
    · rw [← List.append_assoc, runs_first hne' hboth hc]
      exact ⟨_, List.mem_cons_self .., hle⟩

/-- **No word is cut**: the runs of the file are those of the chunk and those of the rest. -/
theorem Chunked.runs {file chunk rest : Bytes} (h : Chunked file chunk rest) (hshort : ShortRuns file) :
    runs isAlpha file = runs isAlpha chunk ++ runs isAlpha rest := by
  rw [h.eq]
  rcases h.last with ⟨hrest, _⟩ | hlast | ⟨hfull, hall⟩
  · rw [hrest, List.append_nil, runs_nil, List.append_nil]
  · exact runs_append_of_last hlast
  · -- a chunk of letters is longer than any run
    obtain ⟨r, hr, hle⟩ := @runs_of_letters chunk rest h.nonempty hall
    rw [← h.eq] at hr
    have hshort' := hshort r hr
    have hmax : chunkMaxSize = 1497 := rfl
    omega

/-- A full chunk ends behind something that is not a letter. -/
theorem Chunked.last_of_full {file chunk rest : Bytes} (h : Chunked file chunk rest)
    (hshort : ShortRuns file) (hfull : chunk.length = chunkMaxSize) :
    ∀ c ∈ chunk.getLast?, isAlpha c = false := by
  rcases h.last with ⟨-, hlt⟩ | hlast | ⟨-, hall⟩
  · omega
  · exact hlast
  · obtain ⟨r, hr, hle⟩ := @runs_of_letters chunk rest h.nonempty hall
    rw [← h.eq] at hr
    have hshort' := hshort r hr
    have hmax : chunkMaxSize = 1497 := rfl
    omega

/-- What is true of every chunk of a file without long words. -/
structure Chunk (chunk : Bytes) : Prop where
  nonempty : chunk ≠ []
  length : chunk.length ≤ chunkMaxSize
  short : ShortRuns chunk
  last : chunk.length = chunkMaxSize → ∀ c ∈ chunk.getLast?, isAlpha c = false

/-- **Chunk by chunk**: what holds of an empty file, and of a file if it holds of what is left behind
its first chunk, holds of every file and its chunks. -/
theorem chunksOf_induction {motive : Bytes → List Bytes → Prop} (nil : motive [] [])
    (cons : ∀ file chunk rest cs, chunkerNext file = some (chunk, rest) → Chunked file chunk rest →
      motive rest cs → motive file (chunk :: cs)) :
    ∀ {calls : Nat} {file : Bytes}, file.length < calls → motive file (chunksOf calls file) := by
  intro calls
  induction calls with
  | zero => intro file hlt; exact absurd hlt (Nat.not_lt_zero _)
  | succ calls ih =>
      intro file hlt
      by_cases hne : file = []
      · rw [hne]
        exact nil
      · obtain ⟨chunk, rest, hnext, h⟩ := chunkerNext_chunked hne
        have hpos := List.length_pos_iff.mpr h.nonempty
        have hlen := congrArg List.length h.eq
        rw [List.length_append] at hlen
        rw [chunksOf, hnext]
        exact cons file chunk rest _ hnext h (ih (by omega))

theorem chunksOf_runs {calls : Nat} {file : Bytes} (hshort : ShortRuns file) (hlt : file.length < calls) :
    (chunksOf calls file).flatten = file ∧ (∀ c ∈ chunksOf calls file, Chunk c) ∧
      runs isAlpha file = (chunksOf calls file).flatMap (runs isAlpha) := by
  refine @chunksOf_induction (fun file cs => ShortRuns file →
    cs.flatten = file ∧ (∀ c ∈ cs, Chunk c) ∧ runs isAlpha file = cs.flatMap (runs isAlpha)) ?_ ?_ calls file hlt hshort
  · intro _
    exact ⟨rfl, fun c hc => absurd hc List.not_mem_nil, rfl⟩
  · intro file chunk rest cs _ h ih hshort
    have hruns := h.runs hshort
    have hrest : ShortRuns rest := by
      intro r hr
      exact hshort r (by rw [hruns]; exact List.mem_append_right _ hr)
    obtain ⟨hflat, hchunks, hall⟩ := ih hrest
    refine ⟨by rw [List.flatten_cons, hflat, h.eq], ?_, by rw [List.flatMap_cons, hruns, hall]⟩
    intro c hc
    rcases List.mem_cons.mp hc with rfl | hc
    · refine ⟨h.nonempty, h.length, ?_, h.last_of_full hshort⟩
      intro r hr
      exact hshort r (by rw [hruns]; exact List.mem_append_left _ hr)
    · exact hchunks c hc

/-- **The chunks are the file**, and each is one chunk of what was left. -/
theorem chunksOf_chunked {calls : Nat} {file : Bytes} (hlt : file.length < calls) :
    (chunksOf calls file).flatten = file ∧
      ∀ front chunk back, chunksOf calls file = front ++ chunk :: back →
        Chunked (chunk ++ back.flatten) chunk back.flatten := by
  refine @chunksOf_induction (fun file cs => cs.flatten = file ∧
    ∀ front chunk back, cs = front ++ chunk :: back → Chunked (chunk ++ back.flatten) chunk back.flatten)
    ?_ ?_ calls file hlt
  · refine ⟨rfl, ?_⟩
    intro front chunk back hnil
    exact absurd hnil (by simp)
  · intro file chunk rest cs _ h ih
    obtain ⟨hflat, hall⟩ := ih
    refine ⟨by rw [List.flatten_cons, hflat, h.eq], ?_⟩
    intro front chunk' back hlist
    cases front with
    | nil =>
        obtain ⟨rfl, rfl⟩ := List.cons.inj hlist
        rw [hflat, ← h.eq]
        exact h
    | cons c front =>
        obtain ⟨rfl, hrest⟩ := List.cons.inj hlist
        exact hall front chunk' back hrest

/-- **The chunks** are the file, none of them is too long, and their words are its words. -/
theorem chunks_runs {file : Bytes} (hshort : ShortRuns file) :
    (chunks file).flatten = file ∧ (∀ c ∈ chunks file, Chunk c) ∧
      runs isAlpha file = (chunks file).flatMap (runs isAlpha) :=
  chunksOf_runs hshort (Nat.lt_succ_self _)

end ChordDht.WordCount
