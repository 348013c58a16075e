/-
`zmq_distributor.c`: the map phase and the reduce phase.

The chunks of the file go to the workers in turn, and the replies are collected; what
was collected goes out again in payloads that end where a word begins.  A worker is what
it answers to a message.
-/
import ChordDht.WordCount.Chunker
import ChordDht.WordCount.Worker

namespace ChordDht.WordCount

/-- `PAYLOAD_MAX`. -/
def payloadMax : Nat := maxMsgLen - headerLen - 1

/-- What is sent for a text: `snprintf` of the type and the text into the message, and its
bytes with the zero. -/
def frame (type : String) (text : Bytes) : Bytes := (ascii type ++ cstr text).take (maxMsgLen - 1) ++ [0]

def mapFrame (chunk : Bytes) : Bytes := frame "map" chunk

/-- The search of `find_safe_split`, from `i` down. -/
def findSafeSplitFrom (data : Bytes) : Nat → Option Nat
  | 0 => none
  | i + 1 =>
      if isDigit (data.getD i 0) && isAlpha (data.getD (i + 1) 0) then some (i + 1)
      else findSafeSplitFrom data i

def findSafeSplit (data : Bytes) (maxLen : Nat) : Nat := (findSafeSplitFrom data maxLen).getD maxLen

/-- How much of the collected replies goes into the next payload. -/
def toCopy (data : Bytes) : Nat :=
  if payloadMax < data.length then
    let safe := findSafeSplit data payloadMax
    if 0 < safe ∧ safe < payloadMax then safe else payloadMax
  else data.length

/-- One request: the message goes to the worker, and the text of its reply is appended. -/
def request (worker : Bytes → Outcome Reply) (msg : Bytes) : Outcome Bytes := do
  let reply ← worker msg
  let received ← receive maxMsgLen reply.bytes
  return cstr received

/-- The map phase over the chunks, from a worker on. -/
def mapPhase (workers : Nat → Bytes → Outcome Reply) (workerCount : Nat) :
    Nat → List Bytes → Outcome Bytes
  | _, [] => .returns []
  | workerIdx, chunk :: chunks => do
      let reply ← request (workers workerIdx) (mapFrame chunk)
      let results ← mapPhase workers workerCount ((workerIdx + 1) % workerCount) chunks
      return reply ++ results

/-- The reduce phase over what is left of the collected replies. -/
def reducePhase (workers : Nat → Bytes → Outcome Reply) (workerCount : Nat) :
    Nat → Nat → Bytes → Outcome Bytes
  | 0, _, _ => .diverges
  | fuel + 1, workerIdx, data =>
      if data = [] then .returns []
      else do
        let reply ← request (workers workerIdx) (frame "red" (data.take (toCopy data)))
        let results ← reducePhase workers workerCount fuel ((workerIdx + 1) % workerCount)
          (data.drop (toCopy data))
        return reply ++ results

end ChordDht.WordCount
