/-
Splitting a stream into messages.

A framer says, of any beginning of a stream, whether a message stands there whole and
how long it is.  It decides on what it has seen: it does not change its mind when more
comes in, and needs no byte behind the message.  Then a stream has one split into
messages and a rest, and whoever works on the stream piece by piece, keeping the rest
of each pass for the next one, sees the same messages however it is cut.
-/
import Mathlib

namespace ChordDht

structure Framer (α : Type) where
  /-- The length of the message at the front, if it is all there. -/
  next : List α → Option Nat
  pos : ∀ {s n}, next s = some n → 0 < n
  le : ∀ {s n}, next s = some n → n ≤ s.length
  stable : ∀ {s n}, next s = some n → ∀ more, next (s ++ more) = some n
  early : ∀ {s n}, next s = some n → ∀ {k}, n ≤ k → next (s.take k) = some n

namespace Framer

variable {α : Type} (framer : Framer α)

/-- A message, and nothing behind it. -/
def IsMessage (m : List α) : Prop := framer.next m = some m.length

/-- The stream is these messages and a rest that does not begin with one. -/
structure Splits (stream : List α) (messages : List (List α)) (rest : List α) : Prop where
  eq : stream = messages.flatten ++ rest
  whole : ∀ m ∈ messages, framer.IsMessage m
  last : framer.next rest = none

variable {framer}

theorem Splits.nil {rest : List α} (h : framer.next rest = none) : framer.Splits rest [] rest :=
  ⟨rfl, fun _ hm => absurd hm List.not_mem_nil, h⟩

/-- The first message and what the others split into. -/
theorem Splits.cons {stream : List α} {n : Nat} (h : framer.next stream = some n)
    {messages : List (List α)} {rest : List α} (hs : framer.Splits (stream.drop n) messages rest) :
    framer.Splits stream (stream.take n :: messages) rest := by
  refine ⟨?_, ?_, hs.last⟩
  · rw [List.flatten_cons, List.append_assoc, ← hs.eq, List.take_append_drop]
  · intro m hm
    rcases List.mem_cons.mp hm with rfl | hm
    · have hle := framer.le h
      rw [IsMessage, framer.early h (Nat.le_refl n), List.length_take, Nat.min_eq_left hle]
    · exact hs.whole m hm

/-- **Every stream has a split.** -/
theorem splits_exists (stream : List α) : ∃ messages rest, framer.Splits stream messages rest := by
  induction hlen : stream.length using Nat.strong_induction_on generalizing stream with
  | _ len ih =>
      cases h : framer.next stream with
      | none => exact ⟨[], stream, .nil h⟩
      | some n =>
          have hpos := framer.pos h
          have hle := framer.le h
          have hshort : (stream.drop n).length < len := by
            rw [List.length_drop]
            omega
          obtain ⟨messages, rest, hs⟩ := ih _ hshort (stream.drop n) rfl
          exact ⟨_, rest, .cons h hs⟩

/-- At a message the framer finds its length, whatever follows. -/
theorem next_message {m : List α} (hm : framer.IsMessage m) (more : List α) :
    framer.next (m ++ more) = some m.length := framer.stable hm more

/-- **It has only one.** -/
theorem Splits.unique : ∀ {messages messages' : List (List α)} {stream rest rest' : List α},
    framer.Splits stream messages rest → framer.Splits stream messages' rest' →
      messages = messages' ∧ rest = rest' := by
  intro messages
  induction messages with
  | nil =>
      intro messages' stream rest rest' h h'
      have hrest : stream = rest := h.eq
      cases messages' with
      | nil => exact ⟨rfl, hrest.symm.trans h'.eq⟩
      | cons m ms =>
          have hnext := next_message (h'.whole m (List.mem_cons_self ..)) (ms.flatten ++ rest')
          rw [← List.append_assoc, ← List.flatten_cons, ← h'.eq, hrest, h.last] at hnext
          exact nomatch hnext
  | cons m ms ih =>
      intro messages' stream rest rest' h h'
      have hnext := next_message (h.whole m (List.mem_cons_self ..)) (ms.flatten ++ rest)
      rw [← List.append_assoc, ← List.flatten_cons, ← h.eq] at hnext
      cases messages' with
      | nil =>
          have hrest : stream = rest' := h'.eq
          rw [hrest, h'.last] at hnext
          exact nomatch hnext
      | cons m' ms' =>
          have hnext' := next_message (h'.whole m' (List.mem_cons_self ..)) (ms'.flatten ++ rest')
          rw [← List.append_assoc, ← List.flatten_cons, ← h'.eq] at hnext'
          have hlen : m.length = m'.length := Option.some.inj (hnext.symm.trans hnext')
          have heq : m ++ (ms.flatten ++ rest) = m' ++ (ms'.flatten ++ rest') := by
            rw [← List.append_assoc, ← List.append_assoc, ← List.flatten_cons, ← List.flatten_cons,
              ← h.eq, ← h'.eq]
          obtain ⟨hm, htail⟩ := List.append_inj heq hlen
          have hs : framer.Splits (ms.flatten ++ rest) ms rest :=
            ⟨rfl, fun q hq => h.whole q (List.mem_cons_of_mem _ hq), h.last⟩
          have hs' : framer.Splits (ms.flatten ++ rest) ms' rest' :=
            ⟨htail, fun q hq => h'.whole q (List.mem_cons_of_mem _ hq), h'.last⟩
          obtain ⟨hms, hrest⟩ := ih hs hs'
          exact ⟨by rw [hm, hms], hrest⟩

/-- **What comes in later** is split behind the messages that are there. -/
theorem Splits.append {stream rest more rest' : List α} {messages messages' : List (List α)}
    (h : framer.Splits stream messages rest) (h' : framer.Splits (rest ++ more) messages' rest') :
    framer.Splits (stream ++ more) (messages ++ messages') rest' := by
  refine ⟨?_, ?_, h'.last⟩
  · rw [h.eq, List.append_assoc, h'.eq, List.flatten_append, List.append_assoc]
  · intro m hm
    rcases List.mem_append.mp hm with hm | hm
    · exact h.whole m hm
    · exact h'.whole m hm

end Framer

end ChordDht
