/-
The chunker on a file that is read byte by byte.

`chunker_next` reads until its buffer is full or the file ends, and then goes back in the
file to the last place where no word is cut.  What it returns, and where it leaves the
position, is what cutting the rest of the file gives; so reading on until nothing comes
returns the file in pieces, and only a word that is longer than a chunk is cut.
-/
import ChordDht.Lib.Outcome
import ChordDht.WordCount.Chunker

namespace ChordDht.WordCount

open Outcome

/-- `chunker_t`: the file that is open, and the position in it. -/
structure ChunkFile where
  file : Bytes
  position : Nat
  deriving DecidableEq, Repr

namespace ChunkFile

/-- `fgetc`: the next byte, unless the file has ended. -/
def fgetc (c : ChunkFile) : Option UInt8 × ChunkFile :=
  match c.file[c.position]? with
  | some ch => (some ch, { c with position := c.position + 1 })
  | none => (none, c)

/-- `fseek(c->file, -bytes, SEEK_CUR)`. -/
def back (c : ChunkFile) (bytes : Nat) : ChunkFile := { c with position := c.position - bytes }

/-- The loop of `chunker_next`, with so much room in the buffer: what is in it, and
`last_safe_split`, if it is set. -/
def fill : Nat → ChunkFile → Bytes → Option Nat → ChunkFile × Bytes × Option Nat
  | 0, c, buffer, lastSafeSplit => (c, buffer, lastSafeSplit)
  | room + 1, c, buffer, lastSafeSplit =>
      match c.fgetc with
      | (none, c) => (c, buffer, lastSafeSplit)
      | (some ch, c) =>
          let buffer := buffer ++ [ch]
          fill room c buffer (if isAlpha ch then lastSafeSplit else some buffer.length)

/-- `chunker_next`: the bytes before the zero byte, and where the file is then. -/
def next (c : ChunkFile) : Option (Bytes × ChunkFile) :=
  let (c, buffer, lastSafeSplit) := c.fill chunkMaxSize [] none
  let pos := buffer.length
  if pos = 0 then none
  else
    match lastSafeSplit with
    | none => some (buffer, c)
    | some split => if pos = chunkMaxSize then some (buffer.take split, c.back (pos - split)) else some (buffer, c)

/-- Calling `chunker_next` until it returns 0. -/
def readAll : Nat → ChunkFile → Outcome (List Bytes)
  | 0, _ => .diverges
  | calls + 1, c =>
      match c.next with
      | none => .returns []
      | some (chunk, c) => do
          let chunks ← readAll calls c
          return chunk :: chunks

end ChunkFile

/-! ### One call -/

/-- **The loop** takes as much of the file as there is room for. -/
theorem fill_spec : ∀ (room : Nat) (c : ChunkFile) (buffer : Bytes) (lastSafeSplit : Option Nat),
    let taken := (c.file.drop c.position).take room
    c.fill room buffer lastSafeSplit = (⟨c.file, c.position + taken.length⟩, buffer ++ taken,
      (taken.foldl readStep (buffer.length, lastSafeSplit)).2) := by
  intro room
  induction room with
  | zero => intro c buffer lastSafeSplit; simp [ChunkFile.fill]
  | succ room ih =>
      intro c buffer lastSafeSplit
      simp only
      cases hget : c.file[c.position]? with
      | none =>
          have hend : c.file.drop c.position = [] := List.drop_eq_nil_iff.mpr (List.getElem?_eq_none_iff.mp hget)
          simp [ChunkFile.fill, ChunkFile.fgetc, hget, hend]
      | some ch =>
          obtain ⟨hlt, hch⟩ := List.getElem?_eq_some_iff.mp hget
          have hdrop : c.file.drop c.position = ch :: c.file.drop (c.position + 1) := by
            rw [List.drop_eq_getElem_cons hlt, hch]
          have hlength : (buffer ++ [ch]).length = buffer.length + 1 := by simp
          rw [ChunkFile.fill, ChunkFile.fgetc, hget]
          simp only
          rw [ih, hdrop, List.take_succ_cons, List.foldl_cons, readStep, hlength, List.length_cons]
          simp only [List.append_assoc, List.singleton_append, Prod.mk.injEq, ChunkFile.mk.injEq, true_and, and_true]
          omega

theorem readStep_fst (text : Bytes) (s : Nat × Option Nat) : (text.foldl readStep s).1 = s.1 + text.length := by
  induction text generalizing s with
  | nil => rfl
  | cons ch text ih =>
      rw [List.foldl_cons, ih, readStep, List.length_cons]
      omega

/-- The last safe place is in what was read. -/
theorem readStep_le {text : Bytes} {split : Nat} (h : (text.foldl readStep (0, none)).2 = some split) :
    split ≤ text.length := by
  rcases readStep_fold text with ⟨hfold, -⟩ | ⟨front, c, back, htext, -, -, hfold⟩
  · rw [hfold] at h
    cases h
  · rw [hfold, Option.some.injEq] at h
    rw [← h, htext, List.length_append, List.length_cons]
    omega

/-- **`chunker_next` at a position** cuts what is behind it. -/
theorem next_eq (c : ChunkFile) :
    c.next = (chunkerNext (c.file.drop c.position)).map fun r => (r.1, ⟨c.file, c.position + r.1.length⟩) := by
  unfold ChunkFile.next chunkerNext
  rw [fill_spec]
  have hfst := readStep_fst ((c.file.drop c.position).take chunkMaxSize) (0, none)
  have hle := @readStep_le ((c.file.drop c.position).take chunkMaxSize)
  generalize htaken : (c.file.drop c.position).take chunkMaxSize = taken at hfst hle ⊢
  rcases hfold : taken.foldl readStep (0, none) with ⟨pos, lastSafeSplit⟩
  rw [hfold] at hfst hle
  obtain rfl : pos = taken.length := by simpa using hfst
  have htake : (c.file.drop c.position).take taken.length = taken := by
    rw [← htaken, List.take_eq_take_iff, List.length_take]
    omega
  simp only [List.nil_append]
  by_cases hempty : taken.length = 0
  · rw [if_pos hempty, if_pos hempty]
    rfl
  · rw [if_neg hempty, if_neg hempty]
    cases lastSafeSplit with
    | none => rw [Option.map_some, htake]
    | some split =>
        have hsplit := hle rfl
        by_cases hfull : taken.length = chunkMaxSize
        · have hprefix : (c.file.drop c.position).take split = taken.take split := by
            rw [← htaken, List.take_take, Nat.min_eq_left]
            omega
          have hback : c.position + taken.length - (taken.length - split) = c.position + split := by omega
          simp only [if_pos hfull, Option.map_some, hprefix, ChunkFile.back, hback, List.length_take,
            Nat.min_eq_left hsplit]
        · simp only [if_neg hfull, Option.map_some, htake]

/-! ### All calls -/

/-- **Reading on until nothing comes** ends, with the chunks of what is behind the position. -/
theorem readAll_eq : ∀ (calls : Nat) (c : ChunkFile), (c.file.drop c.position).length < calls →
    c.readAll calls = .returns (chunksOf calls (c.file.drop c.position)) := by
  intro calls
  induction calls with
  | zero => intro c h; exact absurd h (Nat.not_lt_zero _)
  | succ calls ih =>
      intro c h
      rw [ChunkFile.readAll, next_eq, chunksOf]
      by_cases hne : c.file.drop c.position = []
      · rw [hne]
        rfl
      · obtain ⟨chunk, rest, hnext, hchunk⟩ := chunkerNext_chunked hne
        have hpos := List.length_pos_iff.mpr hchunk.nonempty
        have hrest : c.file.drop (c.position + chunk.length) = rest := by
          rw [← List.drop_drop, hchunk.eq, List.drop_left]
        rw [hchunk.eq, List.length_append] at h
        rw [hnext, Option.map_some]
        simp only [ih ⟨c.file, c.position + chunk.length⟩ (by rw [hrest]; omega), hrest, returns_bind]
        rfl

/-- The calls beyond the end of the file return nothing. -/
theorem chunksOf_calls {calls calls' : Nat} {file : Bytes} (h : file.length < calls) (h' : file.length < calls') :
    chunksOf calls file = chunksOf calls' file := by
  refine @chunksOf_induction (fun file cs => ∀ {calls'}, file.length < calls' → cs = chunksOf calls' file)
    ?_ ?_ calls file h calls' h'
  · intro calls' h'
    obtain ⟨k, rfl⟩ : ∃ k, calls' = k + 1 := ⟨calls' - 1, by omega⟩
    rfl
  · intro file chunk rest cs hnext hchunk ih calls' h'
    obtain ⟨k, rfl⟩ : ∃ k, calls' = k + 1 := ⟨calls' - 1, by omega⟩
    have hpos := List.length_pos_iff.mpr hchunk.nonempty
    rw [hchunk.eq, List.length_append] at h'
    rw [chunksOf, hnext]
    exact congrArg (chunk :: ·) (ih (by omega))

/-- Between two chunks there is a letter on either side. -/
structure CutsWord (chunk next : Bytes) : Prop where
  before : ∃ x ∈ chunk.getLast?, isAlpha x = true
  behind : ∃ y ∈ next.head?, isAlpha y = true

/-- **Only a word that is too long is cut.** -/
theorem maximal_of_cut {file : Bytes} {front back : List Bytes} {chunk next : Bytes}
    (hchunks : chunks file = front ++ chunk :: next :: back) (hcut : CutsWord chunk next) :
    ∃ before run after, file = before ++ run ++ after ∧ Maximal isAlpha before run after ∧
      chunkMaxSize < run.length ∧ before.length < (front ++ [chunk]).flatten.length ∧
      (front ++ [chunk]).flatten.length < (before ++ run).length := by
  obtain ⟨hflat, hall⟩ := @chunksOf_chunked (file.length + 1) file (Nat.lt_succ_self _)
  have hchunked := hall front chunk (next :: back) hchunks
  obtain ⟨x, hx, hxalpha⟩ := hcut.before
  obtain ⟨y, hy, hyalpha⟩ := hcut.behind
  obtain ⟨more, hnext⟩ : ∃ more, next = y :: more := by
    cases next with
    | nil => cases hy
    | cons d more => exact ⟨more, by rw [Option.mem_some.mp hy]⟩
  rw [hnext] at hchunked
  -- the chunk is full of letters, as it ends with one before the end of the file
  obtain ⟨hfull, hletters⟩ : chunk.length = chunkMaxSize ∧ ∀ c ∈ chunk, isAlpha c = true := by
    rcases hchunked.last with ⟨hrest, -⟩ | hlast | hfull
    · cases hrest
    · have hnot := hlast x hx
      rw [hxalpha] at hnot
      exact absurd hnot (by decide)
    · exact hfull
  obtain ⟨before, left, right, after, hfront, hback, hmax, hright⟩ :=
    maximal_around hchunked.nonempty hletters front.flatten (y :: (more ++ back.flatten))
  have hone : 0 < right.length := by
    rw [hright, List.takeWhile_cons_of_pos hyalpha]
    exact Nat.succ_pos _
  have hpos := List.length_pos_iff.mpr hchunked.nonempty
  refine ⟨before, left ++ chunk ++ right, after, ?_, hmax, ?_, ?_, ?_⟩
  · have hfile : file = front.flatten ++ (chunk ++ (y :: (more ++ back.flatten))) := by
      rw [← hflat]
      show (chunks file).flatten = _
      rw [hchunks, hnext]
      simp
    rw [hfile, hfront, hback]
    simp only [List.append_assoc]
  · rw [List.length_append, List.length_append]
    omega
  · rw [List.flatten_append, hfront]
    simp only [List.length_append, List.flatten_cons, List.flatten_nil, List.append_nil]
    omega
  · rw [List.flatten_append, hfront]
    simp only [List.length_append, List.flatten_cons, List.flatten_nil, List.append_nil]
    omega

/-- **Chunking loses nothing and only cuts words that are too long.**  Calling `chunker_next`
until it returns 0 ends; the chunks are not empty, none of them is too long, and together
they are the file; and where one of them ends inside a word, the word has no room in one. -/
theorem chunking_lossless (file : Bytes) :
    (∀ calls, file.length < calls → (ChunkFile.mk file 0).readAll calls = .returns (chunks file)) ∧
      (chunks file).flatten = file ∧
      (∀ chunk ∈ chunks file, 1 ≤ chunk.length ∧ chunk.length ≤ chunkMaxSize) ∧
      ∀ front chunk next back, chunks file = front ++ chunk :: next :: back → CutsWord chunk next →
        ∃ before run after, file = before ++ run ++ after ∧ Maximal isAlpha before run after ∧
          chunkMaxSize < run.length ∧ before.length < (front ++ [chunk]).flatten.length ∧
          (front ++ [chunk]).flatten.length < (before ++ run).length := by
  obtain ⟨hflat, hall⟩ := @chunksOf_chunked (file.length + 1) file (Nat.lt_succ_self _)
  refine ⟨?_, hflat, ?_, ?_⟩
  · intro calls hcalls
    rw [readAll_eq calls ⟨file, 0⟩ hcalls]
    exact congrArg Outcome.returns (chunksOf_calls hcalls (Nat.lt_succ_self _))
  · intro chunk hchunk
    obtain ⟨front, back, hlist⟩ := List.append_of_mem hchunk
    have hchunked := hall front chunk back hlist
    exact ⟨List.length_pos_iff.mpr hchunked.nonempty, hchunked.length⟩
  · intro front chunk next back hchunks hcut
    exact maximal_of_cut hchunks hcut

end ChordDht.WordCount
