/-
`chord-node/data.c`: the key-value store of a node.

The store is a fixed array of tuples, searched from the front; a tuple whose key
pointer is null is a hole.  A block remembers where it came from (a string literal
of the initialiser, or a call of `malloc`), and the heap logs every pointer passed
to `free` and counts the bytes written past the end of a block.  Where such stray
bytes end up is not modelled: a call that adds to the count, or that frees a
literal, has `damaged` the heap, and its callers go on as in a fault.

`malloc` is taken to succeed, also for zero bytes.
-/
import ChordDht.Lib.CString

namespace ChordDht.Chord

/-- A byte of a block: nothing is known of it until something is written there. -/
abbrev Cell := Option UInt8

inductive Origin where
  | literal
  | malloc (serial : Nat)
  deriving DecidableEq, Repr

structure Block where
  origin : Origin
  cells : List Cell
  deriving DecidableEq, Repr

/-- A key's block, by the C string it holds. -/
structure Key where
  origin : Origin
  text : Bytes
  deriving DecidableEq, Repr

/-- `struct tuple`; a null pointer is `none`. -/
structure Tuple where
  key : Option Key
  value : Option Block
  valueLength : Nat
  deriving DecidableEq, Repr

structure Heap where
  serial : Nat
  freed : List Origin
  stray : Nat
  deriving DecidableEq, Repr

structure Table where
  tuples : List Tuple
  heap : Heap
  deriving DecidableEq, Repr

def hole : Tuple := ⟨none, none, 0⟩

/-- The cells of a block after the bytes `s` are copied to its start; what does not
fit is not kept. -/
def storeCells (cells : List Cell) (s : Bytes) : List Cell :=
  (s.map some).take cells.length ++ cells.drop s.length

namespace Heap

def malloc (heap : Heap) (size : Nat) : Block × Heap :=
  (⟨.malloc heap.serial, List.replicate size none⟩, { heap with serial := heap.serial + 1 })

def free (heap : Heap) (ptr : Option Origin) : Heap :=
  match ptr with
  | none => heap
  | some origin => { heap with freed := origin :: heap.freed }

/-- Copy the bytes `s` to the start of a block. -/
def copyTo (heap : Heap) (block : Block) (s : Bytes) : Block × Heap :=
  ({ block with cells := storeCells block.cells s },
    { heap with stray := heap.stray + (s.length - block.cells.length) })

/-- `strcpy(block, src)`: the characters of `src` and the zero byte. -/
def strcpy (heap : Heap) (block : Block) (src : Bytes) : Block × Heap :=
  heap.copyTo block (cstr src ++ [0])

/-- `memcpy(block, src, size)`. -/
def memcpy (heap : Heap) (block : Block) (src : Bytes) (size : Nat) : Block × Heap :=
  heap.copyTo block (src.take size)

/-- A pointer that `malloc` never returned has been passed to `free`. -/
def badFree (heap : Heap) : Bool := heap.freed.contains .literal

/-- What a call that found the first heap and left the second has done to memory that is
not its own: it freed a literal or wrote past the end of a block. -/
def damaged (before after : Heap) : Bool := after.badFree || decide (before.stray < after.stray)

end Heap

/-- Whether the tuple holds this key. -/
def Tuple.hasKey (t : Tuple) (key : Bytes) : Bool := t.key.any fun k => k.text == key

def find (key : Bytes) (tuples : List Tuple) : Option Nat := tuples.findIdx? (·.hasKey key)

/-- The value block and its length; `none` is the null pointer. -/
def get (key : Bytes) (tuples : List Tuple) : Option (Block × Nat) := do
  let i ← find key tuples
  let tuple ← tuples[i]?
  return (← tuple.value, tuple.valueLength)

/-- The overwriting branch of `set`, on the tuple that was found. -/
def overwrite (tuple : Tuple) (value : Bytes) (valueLength : Nat) (heap : Heap) : Tuple × Heap :=
  let heap := heap.free (tuple.value.map (·.origin))
  let (block, heap) := heap.malloc valueLength
  let (block, heap) := heap.strcpy block value
  ({ tuple with value := some block, valueLength := valueLength }, heap)

/-- The tuple that `set` builds in a hole. -/
def create (key value : Bytes) (valueLength : Nat) (heap : Heap) : Tuple × Heap :=
  let (keyBlock, heap) := heap.malloc (key.length + 1)
  let (block, heap) := heap.malloc valueLength
  let (block, heap) := heap.memcpy block value valueLength
  (⟨some ⟨keyBlock.origin, key⟩, some block, valueLength⟩, heap)

/-- `true` if a value was overwritten; `false` if it was created, or dropped because no
tuple is empty. -/
def set (key value : Bytes) (valueLength : Nat) (table : Table) : Bool × Table :=
  match find key table.tuples with
  | some i =>
      let (tuple, heap) := overwrite (table.tuples.getD i hole) value valueLength table.heap
      (true, ⟨table.tuples.set i tuple, heap⟩)
  | none =>
      match table.tuples.findIdx? (·.key.isNone) with
      | some i =>
          let (tuple, heap) := create key value valueLength table.heap
          (false, ⟨table.tuples.set i tuple, heap⟩)
      | none => (false, table)

def delete (key : Bytes) (table : Table) : Bool × Table :=
  match find key table.tuples with
  | some i =>
      let tuple := table.tuples.getD i hole
      let heap := table.heap.free (tuple.key.map (·.origin))
      let heap := heap.free (tuple.value.map (·.origin))
      (true, ⟨table.tuples.set i hole, heap⟩)
  | none => (false, table)

end ChordDht.Chord
