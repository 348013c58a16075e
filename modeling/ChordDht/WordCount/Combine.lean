/-
`combine.c`: adding up the replies to the reduce requests, and printing the table.
-/
import ChordDht.WordCount.Formats

namespace ChordDht.WordCount

/-- `entry_t`. -/
structure Entry where
  word : Bytes
  count : ℤ
  deriving DecidableEq, Repr

/-- The sign of `strcmp`. -/
def strcmp : Bytes → Bytes → Ordering
  | [], [] => .eq
  | [], _ :: _ => .lt
  | _ :: _, [] => .gt
  | a :: as, b :: bs => if a < b then .lt else if b < a then .gt else strcmp as bs

/-- `cmp_by_count_desc_word_asc`. -/
def cmpByCountDescWordAsc (a b : Entry) : Ordering :=
  if a.count < b.count then .gt
  else if b.count < a.count then .lt
  else strcmp a.word b.word

/-- Add to the entry of the word, or append one. -/
def accumulate (word : Bytes) (count : ℤ) : List Entry → List Entry
  | [] => [⟨word, count⟩]
  | e :: es => if e.word = word then { e with count := e.count + count } :: es else e :: accumulate word count es

/-- The loop over the text; a word without a count is skipped. -/
def parseCounts : Nat → Bytes → List Entry → List Entry
  | 0, _, entries => entries
  | fuel + 1, text, entries =>
      let p := text.dropWhile fun c => !isAlpha c
      if p = [] then entries
      else
        let word := p.takeWhile isAlpha
        let rest := p.dropWhile isAlpha
        let digits := rest.takeWhile isDigit
        if digits = [] then parseCounts fuel rest entries
        else parseCounts fuel (rest.dropWhile isDigit) (accumulate word (digitsValue digits) entries)

/-- One line of the table. -/
def row (e : Entry) : Bytes := e.word ++ ascii "," ++ decimalInt e.count ++ ascii "\n"

/-- `qsort` with the comparison, which tells any two entries of different words apart. -/
def sortEntries (entries : List Entry) : List Entry :=
  entries.mergeSort fun a b => cmpByCountDescWordAsc a b != .gt

/-- What is printed. -/
def combineAndPrint (reduceData : Bytes) : Bytes :=
  let text := cstr reduceData
  if text = [] then []
  else
    ascii "word,frequency\n" ++ (sortEntries (parseCounts text.length text [])).flatMap row

end ChordDht.WordCount
