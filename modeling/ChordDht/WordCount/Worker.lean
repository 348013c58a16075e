/-
`zmq_worker.c`: what a worker answers.

A message is a type of three bytes and a payload.  In the newer form three digits
between them give the limit for the reply; the worker goes by whether the three bytes
behind the type are digits.
-/
import ChordDht.Lib.Outcome
import ChordDht.WordCount.Formats

namespace ChordDht.WordCount

/-- `MAX_MSG_LEN`. -/
def maxMsgLen : Nat := 1500

/-- `HEADER_LEN`. -/
def headerLen : Nat := 6

/-- `RECV_BUFFER_SIZE`. -/
def recvBufferSize : Nat := 2048

def parseMsgLen (p : Bytes) : Nat :=
  if isDigit (p.getD 0 0) && isDigit (p.getD 1 0) && isDigit (p.getD 2 0) then
    let val := ((p.getD 0 0).toNat - 48) * 100 + ((p.getD 1 0).toNat - 48) * 10 + ((p.getD 2 0).toNat - 48)
    if val = 0 ∨ maxMsgLen < val then maxMsgLen else val
  else maxMsgLen

/-- Whether the `r` bytes in the buffer are taken for the newer form. -/
def isNewProtocol (buffer : Bytes) (r : Nat) : Bool :=
  headerLen ≤ r && isDigit (buffer.getD 3 0) && isDigit (buffer.getD 4 0) && isDigit (buffer.getD 5 0)

/-- The bytes sent back, and whether the socket is closed then. -/
structure Reply where
  bytes : Bytes
  closes : Bool
  deriving DecidableEq, Repr

/-- A string is sent with its zero. -/
def Reply.ofText (text : Bytes) : Reply := ⟨text ++ [0], false⟩

/-- A map request. -/
def mapReply (payload : Bytes) (msgLen : Nat) : Bytes :=
  wcToMapFormat (wcTokenizeAndCount (hmCreate 1024) payload) msgLen

/-- A reduce request. -/
def reduceReply (payload : Bytes) (msgLen : Nat) : Bytes :=
  wcToReduceFormat (wcFromMapFormat payload) msgLen

/-- The answer to a message of at least three bytes, by its type. -/
def answer (buffer payload : Bytes) (msgLen : Nat) (newProtocol : Bool) : Reply :=
  if strncmp buffer (ascii "map") 3 then .ofText (mapReply payload msgLen)
  else if strncmp buffer (ascii "red") 3 then .ofText (reduceReply payload msgLen)
  else if strncmp buffer (ascii "rip") 3 then ⟨if newProtocol then [0] else ascii "rip" ++ [0], true⟩
  else .ofText []

/-- The legacy branch: the payload is all behind the type. -/
def answerLegacy (buffer : Bytes) : Reply := answer buffer (buffer.drop 3) maxMsgLen false

def dispatch (buffer : Bytes) (r : Nat) : Reply :=
  if r < 3 then .ofText []
  else if isNewProtocol buffer r then
    answer buffer (buffer.drop headerLen) (parseMsgLen (buffer.drop 3)) true
  else answerLegacy buffer

/-- A message is copied to the receive buffer, and a zero is written behind it. -/
def receive (size : Nat) (msg : Bytes) : Outcome Bytes :=
  if size ≤ msg.length then .faults else .returns (msg ++ [0])

def handle (msg : Bytes) : Outcome Reply := do
  let buffer ← receive recvBufferSize msg
  return dispatch buffer msg.length

/-- The worker with only the legacy branch. -/
def handleLegacy (msg : Bytes) : Outcome Reply := do
  let buffer ← receive recvBufferSize msg
  return if msg.length < 3 then .ofText [] else answerLegacy buffer

end ChordDht.WordCount
