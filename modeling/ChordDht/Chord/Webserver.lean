/-
`chord-node/webserver.c`: one node of the ring.

`Node` is the file's global state.  `processPacket` answers the request at the head
of the connection buffer, `handleDatagram` takes one UDP datagram, and
`handleConnection` is what one `recv` on the client connection sets off.  Sockets
appear as what is sent on them: replies on the connection, datagrams to an address.
Sending succeeds.
-/
import ChordDht.Lib.Dotted
import ChordDht.Chord.Data
import ChordDht.Chord.Http

namespace ChordDht.Chord

def maxResources : Nat := 100

structure ChordPeer where
  id : UInt16
  ip : Bytes
  port : UInt16
  deriving DecidableEq, Repr

structure Node where
  selfId : UInt16
  successor : ChordPeer
  predecessor : ChordPeer
  selfIp : Bytes
  selfPort : UInt16
  haveReply : Bool
  replyPeer : ChordPeer
  replyPrevId : UInt16
  resources : Table
  deriving DecidableEq, Repr

/-- One of the three entries the table starts with, held in string literals. -/
def literalTuple (key value : Bytes) : Tuple :=
  ⟨some ⟨.literal, key⟩, some ⟨.literal, (value ++ [0]).map some⟩, value.length⟩

def initialResources : Table where
  tuples :=
    [literalTuple (ascii "/static/foo") (ascii "Foo"),
      literalTuple (ascii "/static/bar") (ascii "Bar"),
      literalTuple (ascii "/static/baz") (ascii "Baz")] ++ List.replicate (maxResources - 3) hole
  heap := ⟨0, [], 0⟩

/-! ### Replies -/

/-- The replies a client can get, with what varies in them. -/
inductive Reply where
  | ok (length : Nat) (body : List Cell)
  | notFound
  | noContent
  | created
  | deleteNotFound
  | methodNotSupported
  | seeOther (ip : Bytes) (port : UInt16) (uri : Bytes)
  | serviceUnavailable
  | badRequest
  deriving DecidableEq, Repr

def seeOtherText (ip : Bytes) (port : UInt16) (uri : Bytes) : Bytes :=
  ascii "HTTP/1.1 303 See Other\r\nLocation: http://" ++ ip ++ ascii ":" ++ decimal port.toNat ++ uri
    ++ ascii "\r\nContent-Length: 0\r\n\r\n"

def okText (length : Nat) : Bytes :=
  ascii "HTTP/1.1 200 OK\r\nContent-Length: " ++ decimal length ++ ascii "\r\n\r\n"

/-- The bytes of a reply.  A redirect is written by `snprintf` into `HTTP_MAX_SIZE` bytes. -/
def Reply.wire : Reply → List Cell
  | .ok length body => (okText length).map some ++ body
  | .notFound => (ascii "HTTP/1.1 404 Not Found\r\nContent-Length: 0\r\n\r\n").map some
  | .noContent => (ascii "HTTP/1.1 204 No Content\r\n\r\n").map some
  | .created => (ascii "HTTP/1.1 201 Created\r\nContent-Length: 0\r\n\r\n").map some
  | .deleteNotFound => (ascii "HTTP/1.1 404 Not Found\r\n\r\n").map some
  | .methodNotSupported => (ascii "HTTP/1.1 501 Method Not Supported\r\n\r\n").map some
  | .seeOther ip port uri => ((seeOtherText ip port uri).take (httpMaxSize - 1)).map some
  | .serviceUnavailable =>
      (ascii "HTTP/1.1 503 Service Unavailable\r\nRetry-After: 1\r\nContent-Length: 0\r\n\r\n").map some
  | .badRequest => (ascii "HTTP/1.1 400 Bad Request\r\n\r\n").map some

/-- Serve the request from the node's own table.  A call of the store that damages the heap
is a fault, and so is a value that runs over the buffer its reply is built in. -/
def sendReply (request : Request) (resources : Table) : Outcome (Reply × Table) :=
  let method := request.method.getD []
  let uri := request.uri.getD []
  if method = ascii "GET" then
    match get uri resources.tuples with
    | some (resource, length) =>
        -- `memcpy` behind the head in `buffer[HTTP_MAX_SIZE]`, with no check of the length
        if httpMaxSize < (okText length).length + length then .faults
        else .returns (.ok length (resource.cells.take length), resources)
    | none => .returns (.notFound, resources)
  else if method = ascii "PUT" then
    let (existed, after) := set uri request.payload request.payloadLength.toNat resources
    if resources.heap.damaged after.heap then .faults
    else .returns (if existed then .noContent else .created, after)
  else if method = ascii "DELETE" then
    let (existed, after) := delete uri resources
    if resources.heap.damaged after.heap then .faults
    else .returns (if existed then .noContent else .deleteNotFound, after)
  else .returns (.methodNotSupported, resources)

/-! ### Responsibility -/

def isResponsible (hash selfId predId : UInt16) : Bool :=
  if predId < selfId then hash > predId && hash ≤ selfId else hash > predId || hash ≤ selfId

def Node.singleNode (node : Node) : Bool :=
  (node.predecessor.id == node.selfId && node.successor.id == node.selfId)
    || (node.predecessor.id == 0 && node.successor.id == 0)

/-- Whether an HTTP request for a URI with this hash is served from the own table. -/
def Node.responsible (node : Node) (uriHash : UInt16) : Bool :=
  node.singleNode || isResponsible uriHash node.selfId node.predecessor.id

/-! ### Datagrams -/

structure Datagram where
  ip : InAddr
  port : UInt16
  bytes : Bytes
  deriving DecidableEq, Repr

/-- A 16-bit number in network order. -/
def be16 (w : UInt16) : Bytes := [UInt8.ofNat (w.toNat / 256), UInt8.ofNat (w.toNat % 256)]

def readBe16 (hi lo : UInt8) : UInt16 := UInt16.ofNat (hi.toNat * 256 + lo.toNat)

/-- The fields of a message: flags, id, and a peer's id, address and port. -/
structure Message where
  flags : UInt8
  id : UInt16
  peerId : UInt16
  ip : InAddr
  port : UInt16
  deriving DecidableEq, Repr

/-- The 11 bytes of a message. -/
def Message.bytes (m : Message) : Bytes :=
  [m.flags] ++ be16 m.id ++ be16 m.peerId ++ m.ip.bytes ++ be16 m.port

/-- The fields of the first 11 bytes; a shorter datagram is ignored. -/
def Message.read (bytes : Bytes) : Option Message :=
  match bytes with
  | flags :: id1 :: id0 :: peer1 :: peer0 :: a :: b :: c :: d :: port1 :: port0 :: _ =>
      some ⟨flags, readBe16 id1 id0, readBe16 peer1 peer0, ⟨a, b, c, d⟩, readBe16 port1 port0⟩
  | _ => none

/-- The address in a message is all zero when the configured text is not an address. -/
def addressOf (ip : Bytes) : InAddr := (inetPton ip).getD ⟨0, 0, 0, 0⟩

/-- `sendto` the address with this text; nothing is sent if it is not an address. -/
def sendTo (ip : Bytes) (port : UInt16) (bytes : Bytes) : List Datagram :=
  match inetPton ip with
  | some addr => [⟨addr, port, bytes⟩]
  | none => []

/-- One datagram taken off the UDP socket. -/
def handleDatagram (node : Node) (bytes : Bytes) : Node × List Datagram :=
  match Message.read bytes with
  | none => (node, [])
  | some msg =>
      let peerIp := inetNtop msg.ip
      if msg.flags = 0 then
        -- a LOOKUP: `msg.id` is the hash that is looked up, the peer is who asks
        let origin : ChordPeer := ⟨msg.peerId, strncpy peerIp (inetAddrStrLen - 1), msg.port⟩
        if isResponsible msg.id node.selfId node.predecessor.id then
          let out : Message :=
            ⟨1, node.predecessor.id, node.selfId, addressOf node.selfIp, node.selfPort⟩
          (node, sendTo origin.ip origin.port out.bytes)
        else if isResponsible msg.id node.successor.id node.selfId then
          let out : Message :=
            ⟨1, node.selfId, node.successor.id, addressOf node.successor.ip, node.successor.port⟩
          (node, sendTo origin.ip origin.port out.bytes)
        else (node, sendTo node.successor.ip node.successor.port (bytes.take 11))
      else if msg.flags = 1 then
        -- a REPLY: remembered for the next request this node cannot serve
        ({ node with
            haveReply := true
            replyPrevId := msg.id
            replyPeer := ⟨msg.peerId, strncpy peerIp (inetAddrStrLen - 1), msg.port⟩ }, [])
      else (node, [])

/-- `handle_udp_socket` on the queue of waiting datagrams; an empty one ends the loop. -/
def handleUdpSocket (node : Node) : List Bytes → Node × List Datagram
  | [] => (node, [])
  | [] :: _ => (node, [])
  | bytes :: queue =>
      let (node, sent) := handleDatagram node bytes
      let (node, more) := handleUdpSocket node queue
      (node, sent ++ more)

/-! ### Requests -/

/-- What answering one request does: replies on the connection and datagrams. -/
structure Answer where
  node : Node
  replies : List Reply
  lookups : List Datagram
  deriving DecidableEq, Repr

/-- A node that is not responsible: redirect, answer from the reply cache, or ask around. -/
def Node.delegate (node : Node) (uri : Bytes) (uriHash : UInt16) : Answer :=
  if node.successor.id = node.predecessor.id then
    ⟨node, [.seeOther node.successor.ip node.successor.port uri], []⟩
  else if node.haveReply then
    ⟨{ node with haveReply := false }, [.seeOther node.replyPeer.ip node.replyPeer.port uri], []⟩
  else if isResponsible uriHash node.successor.id node.selfId then
    ⟨{ node with haveReply := true, replyPrevId := node.selfId, replyPeer := node.successor },
      [.serviceUnavailable], []⟩
  else
    ⟨node, [.serviceUnavailable],
      sendTo node.successor.ip node.successor.port
        (Message.bytes ⟨0, uriHash, node.selfId, addressOf node.selfIp, node.selfPort⟩)⟩

/-- The answer to a parsed request. -/
def Node.answer (node : Node) (request : Request) : Outcome Answer :=
  let uri := request.uri.getD []
  let uriHash := pseudoHash uri
  if node.responsible uriHash then do
    let (reply, resources) ← sendReply request node.resources
    return ⟨{ node with resources := resources }, [reply], []⟩
  else .returns (node.delegate uri uriHash)

/-- Whether the connection is closed after a request that was answered. -/
def closesAfter (request : Request) : Bool :=
  match getHeader request (ascii "Connection") with
  | some value => value != ascii "close"
  | none => false

/-- The return value of `process_packet`, the memory it leaves, and what it did. -/
structure Packet where
  ret : Int
  buffer : Bytes
  request : Request
  answer : Answer
  deriving DecidableEq, Repr

def emptyRequest : Request := ⟨none, none, [], [], -1⟩

def processPacket (node : Node) (mem : Bytes) (n : Nat) : Outcome Packet := do
  let parsed ← parseRequest mem n emptyRequest
  if 0 < parsed.ret then
    let answer ← node.answer parsed.request
    let ret := if closesAfter parsed.request then -1 else parsed.ret
    return ⟨ret, parsed.buffer, parsed.request, answer⟩
  else if parsed.ret = -1 then
    return ⟨-1, parsed.buffer, parsed.request, ⟨node, [.badRequest], []⟩⟩
  else
    return ⟨parsed.ret, parsed.buffer, parsed.request, ⟨node, [], []⟩⟩

/-! ### The client connection -/

/-- `struct connection_state`: the buffer and the offset of its unused part. -/
structure Connection where
  buffer : Bytes
  stop : Nat
  deriving DecidableEq, Repr

def connectionSetup : Connection := ⟨List.replicate httpMaxSize 0, 0⟩

/-- Drop `discard` bytes from the front, keep the next `keep` bytes. -/
def bufferDiscard (buffer : Bytes) (discard keep : Nat) : Bytes :=
  (buffer.drop discard).take keep ++ List.replicate discard 0 ++ buffer.drop (keep + discard)

/-- What a pass over the buffer does and leaves: the answered requests, the last return
value of `process_packet`, the offset it stopped at and the memory from there. -/
structure Window where
  ret : Int
  node : Node
  start : Nat
  mem : Bytes
  packets : List Packet
  deriving DecidableEq, Repr

/-- The loop of `handle_connection`: `mem` is the buffer from `window_start` on. -/
def processWindow : Nat → Node → Bytes → Nat → Nat → Outcome Window
  | 0, _, _, _, _ => .diverges
  | fuel + 1, node, mem, start, n => do
      let packet ← processPacket node mem n
      if 0 < packet.ret then
        let k := packet.ret.toNat
        let rest ← processWindow fuel packet.answer.node (packet.buffer.drop k) (start + k) (n - k)
        return { rest with packets := packet :: rest.packets }
      else
        return ⟨packet.ret, packet.answer.node, start, packet.buffer, [packet]⟩

/-- What one call of `handle_connection` comes to: whether it wants the connection kept. -/
structure Handled where
  cont : Bool
  state : Connection
  node : Node
  packets : List Packet
  deriving DecidableEq, Repr

/-- `handle_connection` when `recv` delivers `received`, which fits the free part of the
buffer; an empty `received` is the end of the stream. -/
def handleConnection (node : Node) (state : Connection) (received : Bytes) : Outcome Handled :=
  if received = [] then .returns ⟨false, state, node, []⟩
  else do
    let buffer := state.buffer.take state.stop ++ received
      ++ state.buffer.drop (state.stop + received.length)
    let n := state.stop + received.length
    let window ← processWindow (n + 1) node buffer 0 n
    if window.ret = -1 then
      return ⟨false, state, window.node, window.packets⟩
    else
      let front := buffer.take window.start
      return ⟨true, ⟨bufferDiscard (front ++ window.mem) window.start (n - window.start),
        n - window.start⟩, window.node, window.packets⟩

end ChordDht.Chord
