/-
Counting when memory is short.

`hm_put_inc` gives up on a word it gets no node for, and the loops of `wc_tokenize_and_count`
and `wc_from_map_format` go on behind it.  A character leads to one call at most, so the model
has one answer of the allocator for each character.  Whatever the answers are, the map is
filled with tokens, which weigh no more than the text that was read; so a reply written from it
fits its limit and has no zero byte in it.
-/
import ChordDht.Lib.Slots
import ChordDht.WordCount.MapReply

namespace ChordDht.WordCount

open Slots

/-! ### The loops -/

/-- `ll_put_inc`, which gets another node if `node` says so. -/
def llPutIncIn (node : Bool) (head : List LLNode) (key : Bytes) (delta : ℤ) : List LLNode :=
  if head.any (·.key == lower key) then llChange (lower key) (· + delta) head
  else if node then ⟨lower key, delta⟩ :: head
  else head

def hmPutIncIn (node : Bool) (hm : HashMap) (key : Bytes) (delta : ℤ) : HashMap :=
  ⟨hm.buckets.modify (bucketIndex hm key) fun head => llPutIncIn node head key delta⟩

def tokenizeStepIn (node : Bool) (s : HashMap × Bytes) (c : UInt8) : HashMap × Bytes :=
  if isAlpha c then (s.1, pushLetter s.2 c)
  else if 0 < s.2.length then (hmPutIncIn node s.1 s.2 1, [])
  else s

def tokenizeEndIn (node : Bool) (s : HashMap × Bytes) : HashMap :=
  if 0 < s.2.length then hmPutIncIn node s.1 s.2 1 else s.1

/-- The loop of `wc_tokenize_and_count` from the character `i` on. -/
def tokenizeFrom (node : Nat → Bool) : Nat → HashMap × Bytes → Bytes → HashMap
  | i, s, [] => tokenizeEndIn (node i) s
  | i, s, c :: text => tokenizeFrom node (i + 1) (tokenizeStepIn (node i) s c) text

def wcTokenizeAndCountIn (node : Nat → Bool) (hm : HashMap) (text : Bytes) : HashMap :=
  tokenizeFrom node 0 (hm, []) (cstr text)

def Parser.finalizeIn (node : Bool) (p : Parser) : HashMap :=
  if 0 < p.word.length ∧ 0 < p.count then hmPutIncIn node p.hm p.word p.count else p.hm

def parseStepIn (node : Bool) (p : Parser) (c : UInt8) : Parser :=
  match p.state with
  | .start => if isAlpha c then { p with state := .inWord, word := [toLower c] } else p
  | .inWord =>
      if isAlpha c then { p with word := pushLetter p.word c }
      else if c = 49 then { p with state := .inOnes, count := 1 }
      else { p with state := .start, word := [] }
  | .inOnes =>
      if c = 49 then { p with count := p.count + 1 }
      else if isAlpha c then ⟨.inWord, [toLower c], 0, p.finalizeIn node⟩
      else ⟨.start, [], 0, p.finalizeIn node⟩

def parseEndIn (node : Bool) (p : Parser) : HashMap := if p.state = .inOnes then p.finalizeIn node else p.hm

/-- The loop of `wc_from_map_format` from the character `i` on. -/
def parseFrom (node : Nat → Bool) : Nat → Parser → Bytes → HashMap
  | i, p, [] => parseEndIn (node i) p
  | i, p, c :: payload => parseFrom node (i + 1) (parseStepIn (node i) p c) payload

def wcFromMapFormatIn (node : Nat → Bool) (payload : Bytes) : HashMap :=
  parseFrom node 0 ⟨.start, [], 0, hmCreate 1024⟩ (cstr payload)

/-! ### With memory for every node -/

/-- **With memory the texts are counted as ever.** -/
theorem tokenizeFrom_true (text : Bytes) : ∀ (i : Nat) (s : HashMap × Bytes),
    tokenizeFrom (fun _ => true) i s text = tokenizeEnd (text.foldl tokenizeStep s) := by
  induction text with
  | nil => intro i s; rfl
  | cons c text ih =>
      intro i s
      rw [tokenizeFrom, ih]
      rfl

theorem parseFrom_true (payload : Bytes) : ∀ (i : Nat) (p : Parser),
    parseFrom (fun _ => true) i p payload = parseEnd (payload.foldl parseStep p) := by
  induction payload with
  | nil => intro i p; rfl
  | cons c payload ih =>
      intro i p
      rw [parseFrom, ih]
      rfl

theorem wcTokenizeAndCountIn_true (hm : HashMap) (text : Bytes) :
    wcTokenizeAndCountIn (fun _ => true) hm text = wcTokenizeAndCount hm text := tokenizeFrom_true _ 0 _

theorem wcFromMapFormatIn_true (payload : Bytes) :
    wcFromMapFormatIn (fun _ => true) payload = wcFromMapFormat payload := parseFrom_true _ 0 _

/-! ### What the map is filled with -/

/-- **A word is put, or it is left out.** -/
theorem hmPutIncIn_cases (node : Bool) (hm : HashMap) (key : Bytes) (delta : ℤ) :
    hmPutIncIn node hm key delta = hmPutInc hm key delta ∨ hmPutIncIn node hm key delta = hm := by
  cases node with
  | true => exact Or.inl rfl
  | false =>
      by_cases hthere : (hm.buckets.getD (bucketIndex hm key) []).any (·.key == lower key) = true
      · refine Or.inl ?_
        rw [hmPutIncIn, hmPutInc, HashMap.mk.injEq]
        refine modify_congr fun head hhead => ?_
        rw [List.getD_eq_getElem?_getD, hhead, Option.getD_some] at hthere
        rw [llPutIncIn, llPutInc, llUpdate, if_pos hthere, if_pos hthere]
      · refine Or.inr ?_
        have hid : hm = ⟨hm.buckets.modify (bucketIndex hm key) id⟩ := by rw [List.modify_id]
        rw [hmPutIncIn]
        refine Eq.trans ?_ hid.symm
        rw [HashMap.mk.injEq]
        refine modify_congr fun head hhead => ?_
        rw [List.getD_eq_getElem?_getD, hhead, Option.getD_some] at hthere
        rw [llPutIncIn, if_neg hthere, if_neg Bool.false_ne_true]
        rfl

/-- What was put into the map was tokens, and they weigh no more than `read`. -/
def Filled (hm : HashMap) (read : ℤ) : Prop :=
  ∃ ts, Holds hm ts ∧ (∀ t ∈ ts, Token t) ∧ weight ts ≤ read

theorem Filled.mono {hm : HashMap} {read more : ℤ} (h : Filled hm read) (hle : read ≤ more) : Filled hm more := by
  obtain ⟨ts, hholds, htokens, hweight⟩ := h
  exact ⟨ts, hholds, htokens, Int.le_trans hweight hle⟩

theorem Filled.weight {hm : HashMap} {read : ℤ} (h : Filled hm read) : weight hm.entries ≤ read := by
  obtain ⟨ts, hholds, -, hweight⟩ := h
  exact Int.le_trans hholds.weight hweight

theorem Filled.nonneg {hm : HashMap} {read : ℤ} (h : Filled hm read) : 0 ≤ read := by
  obtain ⟨ts, -, htokens, hweight⟩ := h
  exact Int.le_trans (weight_nonneg fun t ht => (htokens t ht).pos) hweight

/-- Each entry of the map is a token that weighs no more than was read. -/
theorem Filled.entries {hm : HashMap} {read : ℤ} (h : Filled hm read) :
    ∀ t ∈ hm.entries, Token t ∧ t.1.length + t.2 ≤ read := by
  obtain ⟨ts, hholds, htokens, hweight⟩ := h
  intro t ht
  have hentry := entry_le_weight hholds.summary.pos ht
  have hall := hholds.weight
  exact ⟨hholds.tokens htokens t ht, by omega⟩

theorem filled_create (n : Nat) : Filled (hmCreate n) 0 :=
  ⟨[], holds_create n, fun _ ht => absurd ht List.not_mem_nil, Int.le_refl _⟩

/-- The letters that are in the word buffer. -/
structure Spelled (word : Bytes) : Prop where
  letters : ∀ c ∈ word, isAlpha c = true
  lower : lower word = word
  short : word.length ≤ wordMax

theorem Spelled.nil : Spelled [] := ⟨fun _ hc => absurd hc List.not_mem_nil, rfl, Nat.zero_le _⟩

theorem Spelled.push {word : Bytes} (h : Spelled word) {c : UInt8} (hc : isAlpha c = true) :
    Spelled (pushLetter word c) := by
  rw [pushLetter]
  by_cases hroom : word.length < wordMax
  · rw [if_pos hroom]
    refine ⟨?_, ?_, ?_⟩
    · intro d hd
      rcases List.mem_append.mp hd with hd | hd
      · exact h.letters d hd
      · rw [List.mem_singleton.mp hd]
        exact isAlpha_toLower hc
    · have hword := h.lower
      rw [WordCount.lower] at hword ⊢
      rw [List.map_append, hword, List.map_singleton, toLower_toLower]
    · rw [List.length_append, List.length_singleton]
      exact hroom
  · rwa [if_neg hroom]

theorem Spelled.first {c : UInt8} (hc : isAlpha c = true) : Spelled [toLower c] :=
  Spelled.push Spelled.nil hc

theorem pushLetter_length (word : Bytes) (c : UInt8) : (pushLetter word c).length ≤ word.length + 1 := by
  rw [pushLetter]
  split
  · rw [List.length_append, List.length_singleton]
  · exact Nat.le_succ _

/-- A word that is put weighs its letters and its count. -/
theorem Filled.put {hm : HashMap} {read : ℤ} (h : Filled hm read) {word : Bytes} (hword : Spelled word)
    (hne : 0 < word.length) {delta : ℤ} (hdelta : 0 < delta) (node : Bool) :
    Filled (hmPutIncIn node hm word delta) (read + word.length + delta) := by
  rcases hmPutIncIn_cases node hm word delta with hput | hleft
  · obtain ⟨ts, hholds, htokens, hweight⟩ := h
    have hmore := hholds.put word hdelta
    rw [hword.lower] at hmore
    rw [hput]
    refine ⟨ts ++ [(word, delta)], hmore, ?_, ?_⟩
    · intro t ht
      rcases List.mem_append.mp ht with ht | ht
      · exact htokens t ht
      · rw [List.mem_singleton.mp ht]
        exact ⟨List.length_pos_iff.mp hne, hword.letters, hword.lower, hword.short, hdelta⟩
    · rw [weight_append, weight_cons, weight_nil]
      show WordCount.weight ts + (word.length + delta + 0) ≤ _
      omega
  · rw [hleft]
    exact h.mono (by omega)

/-- When so much is read, it is in the map, in the word and in the count. -/
structure Reading (hm : HashMap) (word : Bytes) (count : ℤ) (read : Nat) : Prop where
  filled : Filled hm (read - word.length - count)
  spelled : Spelled word
  count : 0 ≤ count

theorem reading_create (n : Nat) : Reading (hmCreate n) [] 0 0 :=
  ⟨(filled_create n).mono (by simp), Spelled.nil, Int.le_refl _⟩

/-- A letter that is added, or that begins a word. -/
theorem Reading.letter {hm : HashMap} {word : Bytes} {count : ℤ} {read : Nat} (h : Reading hm word count read)
    {c : UInt8} (hc : isAlpha c = true) :
    Reading hm (pushLetter word c) count (read + 1) ∧ Reading hm [toLower c] count (read + 1) := by
  have hpush := pushLetter_length word c
  refine ⟨⟨h.filled.mono ?_, h.spelled.push hc, h.count⟩, ⟨h.filled.mono ?_, Spelled.first hc, h.count⟩⟩
  · push_cast
    omega
  · rw [List.length_singleton]
    push_cast
    omega

/-- The word is put with its count, or there is nothing to put. -/
theorem Reading.finalize {p : Parser} {read : Nat} (h : Reading p.hm p.word p.count read) (node : Bool) :
    Filled (p.finalizeIn node) read := by
  have hcount := h.count
  rw [Parser.finalizeIn]
  by_cases hput : 0 < p.word.length ∧ 0 < p.count
  · rw [if_pos hput]
    exact (h.filled.put h.spelled hput.1 hput.2 node).mono (by omega)
  · rw [if_neg hput]
    exact h.filled.mono (by omega)

/-! ### Counting a text -/

theorem Reading.tokenizeStep {s : HashMap × Bytes} {read : Nat} (h : Reading s.1 s.2 0 read) (node : Bool)
    (c : UInt8) : Reading (tokenizeStepIn node s c).1 (tokenizeStepIn node s c).2 0 (read + 1) := by
  rw [tokenizeStepIn]
  cases hc : isAlpha c with
  | true =>
      rw [if_pos rfl]
      exact (h.letter hc).1
  | false =>
      rw [if_neg Bool.false_ne_true]
      by_cases hword : 0 < s.2.length
      · rw [if_pos hword]
        refine ⟨(h.filled.put h.spelled hword Int.one_pos node).mono ?_, Spelled.nil, Int.le_refl _⟩
        rw [List.length_nil]
        push_cast
        omega
      · rw [if_neg hword]
        exact ⟨h.filled.mono (by push_cast; omega), h.spelled, h.count⟩

/-- **A text fills the map** with no more than it weighs, and a separator for its last word. -/
theorem filled_tokenizeFrom (node : Nat → Bool) (text : Bytes) : ∀ {i read : Nat} {s : HashMap × Bytes},
    Reading s.1 s.2 0 read → Filled (tokenizeFrom node i s text) (read + text.length + 1 : Nat) := by
  induction text with
  | nil =>
      intro i read s h
      rw [tokenizeFrom, tokenizeEndIn]
      by_cases hword : 0 < s.2.length
      · rw [if_pos hword]
        refine (h.filled.put h.spelled hword Int.one_pos (node i)).mono ?_
        push_cast
        omega
      · rw [if_neg hword]
        refine h.filled.mono ?_
        push_cast
        omega
  | cons c text ih =>
      intro i read s h
      have hrest := @ih (i + 1) (read + 1) _ (h.tokenizeStep (node i) c)
      rwa [List.length_cons, Nat.add_comm text.length, ← Nat.add_assoc]

theorem filled_tokenize (node : Nat → Bool) (text : Bytes) :
    Filled (wcTokenizeAndCountIn node (hmCreate 1024) text) ((cstr text).length + 1 : Nat) := by
  have hall := @filled_tokenizeFrom node (cstr text) 0 0 (hmCreate 1024, []) (reading_create 1024)
  rwa [Nat.zero_add] at hall

/-! ### Reading a payload -/

theorem Reading.parseStep {p : Parser} {read : Nat} (h : Reading p.hm p.word p.count read) (node : Bool)
    (c : UInt8) : Reading (parseStepIn node p c).hm (parseStepIn node p c).word (parseStepIn node p c).count
      (read + 1) := by
  have hcount := h.count
  have hput := h.finalize node
  have hsame : Reading p.hm p.word p.count (read + 1) :=
    ⟨h.filled.mono (by push_cast; omega), h.spelled, h.count⟩
  cases hstate : p.state with
  | start =>
      simp only [parseStepIn, hstate]
      split
      next hc => exact (h.letter hc).2
      next => exact hsame
  | inWord =>
      simp only [parseStepIn, hstate]
      split
      next hc => exact (h.letter hc).1
      next =>
        split
        · exact ⟨h.filled.mono (by push_cast; omega), h.spelled, Int.one_nonneg⟩
        · exact ⟨h.filled.mono (by push_cast [List.length_nil]; omega), Spelled.nil, h.count⟩
  | inOnes =>
      simp only [parseStepIn, hstate]
      split
      next => exact ⟨h.filled.mono (by push_cast; omega), h.spelled, Int.le_add_one hcount⟩
      next =>
        split
        next hc => exact ⟨hput.mono (by push_cast [List.length_singleton]; omega), Spelled.first hc, Int.le_refl _⟩
        next => exact ⟨hput.mono (by push_cast [List.length_nil]; omega), Spelled.nil, Int.le_refl _⟩

/-- **A payload fills the map** with no more than it weighs. -/
theorem filled_parseFrom (node : Nat → Bool) (payload : Bytes) : ∀ {i read : Nat} {p : Parser},
    Reading p.hm p.word p.count read → Filled (parseFrom node i p payload) (read + payload.length : Nat) := by
  induction payload with
  | nil =>
      intro i read p h
      have hcount := h.count
      rw [parseFrom, parseEndIn]
      split
      · exact h.finalize (node i)
      · exact h.filled.mono (by push_cast [List.length_nil]; omega)
  | cons c payload ih =>
      intro i read p h
      have hrest := @ih (i + 1) (read + 1) _ (h.parseStep (node i) c)
      rwa [List.length_cons, Nat.add_comm payload.length, ← Nat.add_assoc]

theorem filled_fromMapFormat (node : Nat → Bool) (payload : Bytes) :
    Filled (wcFromMapFormatIn node payload) (cstr payload).length := by
  have hall := @filled_parseFrom node (cstr payload) 0 0 ⟨.start, [], 0, hmCreate 1024⟩ (reading_create 1024)
  rwa [Nat.zero_add] at hall

end ChordDht.WordCount
