/-
`wordcount.c`: counting the words of a text, and the two formats counts travel in.

A reply to a map request is each word followed by as many `1`s as it was counted; a
reply to a reduce request is each word followed by its count in decimal.  Both leave
out what does not fit.
-/
import ChordDht.Lib.Decimal
import ChordDht.WordCount.HashMap

namespace ChordDht.WordCount

/-- A conversion to `size_t`. -/
def sizeT (x : ℤ) : ℕ := (x % 2 ^ 64).toNat

/-! ### Counting -/

/-- `sizeof(word) - 1`. -/
def wordMax : Nat := 255

/-- The word so far with another letter, unless there is no room. -/
def pushLetter (word : Bytes) (c : UInt8) : Bytes :=
  if word.length < wordMax then word ++ [toLower c] else word

/-- One character in the loop of `wc_tokenize_and_count`: the map and the word so far. -/
def tokenizeStep (s : HashMap × Bytes) (c : UInt8) : HashMap × Bytes :=
  if isAlpha c then (s.1, pushLetter s.2 c)
  else if 0 < s.2.length then (hmPutInc s.1 s.2 1, [])
  else s

def tokenizeEnd (s : HashMap × Bytes) : HashMap := if 0 < s.2.length then hmPutInc s.1 s.2 1 else s.1

def wcTokenizeAndCount (hm : HashMap) (text : Bytes) : HashMap :=
  tokenizeEnd ((cstr text).foldl tokenizeStep (hm, []))

/-! ### Writing -/

/-- `map_format_ctx_t` and `reduce_format_ctx_t`: what was written, and whether something
did not fit. -/
structure FormatCtx where
  buffer : Bytes
  overflow : Bool
  deriving DecidableEq, Repr

def appendMapEntry (maxLen : Nat) (mc : FormatCtx) (entry : Bytes × ℤ) : FormatCtx :=
  if mc.overflow then mc
  else
    let needed := sizeT (entry.1.length + entry.2 + 1)
    if maxLen < sizeT (mc.buffer.length + needed) then { mc with overflow := true }
    else { mc with buffer := mc.buffer ++ (entry.1 ++ List.replicate entry.2.toNat 49) }

def wcToMapFormat (hm : HashMap) (msgLen : Nat) : Bytes :=
  if msgLen ≤ 1 then [] else (hm.entries.foldl (appendMapEntry msgLen) ⟨[], false⟩).buffer

/-- What `%d` and `%ld` write. -/
def decimalInt (n : ℤ) : Bytes := if n < 0 then 45 :: decimal n.natAbs else decimal n.toNat

def appendReduceEntry (maxLen : Nat) (rc : FormatCtx) (entry : Bytes × ℤ) : FormatCtx :=
  if rc.overflow then rc
  else
    let countStr := decimalInt entry.2
    if 32 ≤ countStr.length then { rc with overflow := true }
    else
      let needed := sizeT (entry.1.length + countStr.length + 1)
      if maxLen < sizeT (rc.buffer.length + needed) then { rc with overflow := true }
      else { rc with buffer := rc.buffer ++ (entry.1 ++ countStr) }

def wcToReduceFormat (hm : HashMap) (msgLen : Nat) : Bytes :=
  if msgLen ≤ 1 then [] else (hm.entries.foldl (appendReduceEntry msgLen) ⟨[], false⟩).buffer

/-- What `malloc` has: whether it gives so many bytes.  It gives no more than `PTRDIFF_MAX`. -/
structure Malloc where
  gives : Nat → Bool
  bounded : ∀ n, gives n = true → n < 2 ^ 63

/-- Memory for all that can be asked for. -/
def Malloc.plenty : Malloc := ⟨fun n => decide (n < 2 ^ 63), fun _ h => of_decide_eq_true h⟩

/-- The string that `wc_to_map_format` and `wc_to_reduce_format` return, or `NULL`. -/
def allocated (malloc : Malloc) (msgLen : Nat) (text : Bytes) : Option Bytes :=
  if malloc.gives (if msgLen ≤ 1 then 1 else msgLen) then some text else none

/-! ### Reading -/

inductive ParseState where
  | start
  | inWord
  | inOnes
  deriving DecidableEq, Repr

/-- The variables of `wc_from_map_format`. -/
structure Parser where
  state : ParseState
  word : Bytes
  count : ℤ
  hm : HashMap

/-- Finalize the pair that was read. -/
def Parser.finalize (p : Parser) : HashMap :=
  if 0 < p.word.length ∧ 0 < p.count then hmPutInc p.hm p.word p.count else p.hm

/-- One character in the loop of `wc_from_map_format`. -/
def parseStep (p : Parser) (c : UInt8) : Parser :=
  match p.state with
  | .start => if isAlpha c then { p with state := .inWord, word := [toLower c] } else p
  | .inWord =>
      if isAlpha c then { p with word := pushLetter p.word c }
      else if c = 49 then { p with state := .inOnes, count := 1 }
      else { p with state := .start, word := [] }
  | .inOnes =>
      if c = 49 then { p with count := p.count + 1 }
      else if isAlpha c then ⟨.inWord, [toLower c], 0, p.finalize⟩
      else ⟨.start, [], 0, p.finalize⟩

def parseEnd (p : Parser) : HashMap := if p.state = .inOnes then p.finalize else p.hm

def wcFromMapFormat (payload : Bytes) : HashMap :=
  parseEnd ((cstr payload).foldl parseStep ⟨.start, [], 0, hmCreate 1024⟩)

end ChordDht.WordCount
