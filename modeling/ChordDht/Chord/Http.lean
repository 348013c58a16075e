/-
`chord-node/http.c`: parsing a request in place.

Memory is the connection buffer from the parse position on; the first `n` bytes of
it have been received.  Positions are offsets, and the in-place zero bytes that end
the strings of a request are written into a copy of the memory, from which the
strings are read.
-/
import ChordDht.Lib.Decimal
import ChordDht.Chord.Util

namespace ChordDht.Chord

def httpMaxSize : Nat := 8192
def httpMaxHeaders : Nat := 40

structure Header where
  key : Bytes
  value : Bytes
  deriving DecidableEq, Repr

/-- `struct request`.  A null string is `none`, the null entries of the header array are
left out, and `payload` is the memory from the payload pointer on. -/
structure Request where
  method : Option Bytes
  uri : Option Bytes
  headers : List Header
  payload : Bytes
  payloadLength : Int
  deriving DecidableEq, Repr

/-- `struct non_string`, the start being an offset. -/
structure NonString where
  start : Nat
  n : Nat
  deriving DecidableEq, Repr

def NonString.stop (s : NonString) : Nat := s.start + s.n

def parseRequestLine (mem : Bytes) (buffer n : Nat) : Option (NonString × NonString) :=
  match memchr (mem.drop buffer) 32 n with
  | none => none
  | some k =>
      let uri := buffer + k + 1
      match memchr (mem.drop uri) 32 (n - (k + 1)) with
      | none => none
      | some l => some (⟨buffer, k⟩, ⟨uri, l⟩)

def parseHeader (mem : Bytes) (buffer n : Nat) : Option (NonString × NonString) :=
  match memchr (mem.drop buffer) 58 n with
  | none => none
  | some k => some (⟨buffer, k⟩, ⟨buffer + k + 1, n - (k + 1)⟩)

/-- How the header loop ends: with a return of zero or of minus one, or past the empty line. -/
inductive HeaderScan where
  | incomplete
  | malformed
  | complete (headers : List (NonString × NonString)) (pos : Nat)
  deriving DecidableEq, Repr

/-- The header loop.  The check of `header_count` comes before the write it should guard
and lets one header too many through, so `headers` may grow to one more than the array
holds; the fuel counts the passes up to the check that ends the process. -/
def scanHeaders (mem : Bytes) (n : Nat) :
    Nat → Nat → List (NonString × NonString) → Outcome HeaderScan
  | 0, _, _ => .exits
  | fuel + 1, pos, headers => do
      let lineEnd ← memstr (mem.drop pos) (n - pos) crlf
      if lineEnd = some 0 then
        return .complete headers (pos + crlf.length)
      else if httpMaxHeaders < headers.length then
        .exits
      else match lineEnd with
        | none => return .incomplete
        | some k =>
            match parseHeader mem pos k with
            | none => return .malformed
            | some header => scanHeaders mem n fuel (pos + k + crlf.length) (headers ++ [header])

/-- The name test of the length lookup: it compares as many bytes as the name has. -/
def announcesLength (mem : Bytes) (header : NonString × NonString) : Bool :=
  strncmp (mem.drop header.1.start) (ascii "Content-Length") header.1.n

/-- `unsigned long` to `ssize_t`. -/
def toSsize (v : Nat) : Int := if v < 2 ^ 63 then v else (v : Int) - 2 ^ 64

/-- The length lookup; `unset` is what `payload_length` was before. -/
def lookupLength (mem : Bytes) (headers : List (NonString × NonString)) (unset : Int) : Int :=
  match headers.find? (announcesLength mem) with
  | some h => toSsize (strtoul (mem.drop h.2.start))
  | none => unset

structure Parse where
  ret : Int
  buffer : Bytes
  request : Request
  deriving DecidableEq, Repr

/-- Where a successful parse writes a zero byte. -/
def stops (method uri : NonString) (headers : List (NonString × NonString)) : List Nat :=
  method.stop :: uri.stop :: headers.flatMap fun h => [h.1.stop, h.2.stop]

def writeZeros (mem : Bytes) (ends : List Nat) : Bytes := ends.foldl (fun m i => m.set i 0) mem

/-- What `parse_request` does once the empty line has been read. -/
def finishRequest (mem : Bytes) (n : Nat) (request : Request) (method uri : NonString)
    (headers : List (NonString × NonString)) (pos : Nat) : Outcome Parse :=
  let announced := lookupLength mem headers request.payloadLength
  if httpMaxHeaders < headers.length then
    -- the header loop has stored one entry behind the end of `request->headers`
    .faults
  else if announced < 0 ∧ request.method.any fun m => strncmp m (ascii "PUT") 3 then
    .returns ⟨-1, mem, { request with payloadLength := announced }⟩
  else
    let length : Int := if announced < 0 then 0 else announced
    let request := { request with payload := mem.drop pos, payloadLength := length }
    if (n : Int) < pos + length then
      .returns ⟨0, mem, request⟩
    else
      let buffer := writeZeros mem (stops method uri headers)
      .returns ⟨pos + length, buffer,
        { method := some (cstr (buffer.drop method.start))
          uri := some (cstr (buffer.drop uri.start))
          headers := headers.map fun h =>
            ⟨cstr (buffer.drop h.1.start), cstr (buffer.drop h.2.start)⟩
          payload := buffer.drop pos
          payloadLength := length }⟩

def parseRequest (mem : Bytes) (n : Nat) (request : Request) : Outcome Parse := do
  match ← memstr mem n crlf with
  | none => return ⟨0, mem, request⟩
  | some lineEnd =>
      match parseRequestLine mem 0 lineEnd with
      | none => return ⟨-1, mem, request⟩
      | some (method, uri) =>
          match ← scanHeaders mem n (httpMaxHeaders + 2) (lineEnd + crlf.length) [] with
          | .incomplete => return ⟨0, mem, request⟩
          | .malformed => return ⟨-1, mem, request⟩
          | .complete headers pos => finishRequest mem n request method uri headers pos

def getHeader (request : Request) (name : Bytes) : Option Bytes :=
  (request.headers.find? fun h => h.key == name).map (·.value)

end ChordDht.Chord
