/-
One pass over the connection buffer.

`consume` is what a pass should do with the first `n` bytes of a stream of requests:
answer the requests that are all there, one after the other, until one of them closes
the connection, and leave the beginning of the next one for later.  A head that is torn
between CR and LF is where it does not come back.  `processWindow_consume` says that
the loop of `handle_connection` does just that, bytes and memory included.
-/
import ChordDht.Chord.Partial
import ChordDht.Chord.Behind

namespace ChordDht.Chord

open Outcome

/-- The bytes of some requests, one after the other. -/
def stream (rs : List ClientRequest) : Bytes := rs.flatMap fun r => r.wire

/-- A request as it was parsed, and what was sent for it. -/
structure Exchange where
  method : Bytes
  uri : Bytes
  headers : List Header
  payload : Bytes
  replies : List Reply
  lookups : List Datagram
  deriving DecidableEq, Repr

def Packet.exchange (p : Packet) : Exchange :=
  ⟨p.request.method.getD [], p.request.uri.getD [], p.request.headers,
    p.request.payload.take p.request.payloadLength.toNat, p.answer.replies, p.answer.lookups⟩

/-- The packets that were answered. -/
def answered (packets : List Packet) : List Exchange :=
  (packets.filter fun p => !p.answer.replies.isEmpty).map Packet.exchange

namespace ClientRequest

variable (r : ClientRequest)

/-- The connection is closed after the request. -/
def closes : Bool := closesAfter (r.parsed [])

def exchange (answer : Answer) : Exchange :=
  ⟨r.method, r.uri, r.headers, r.payload, answer.replies, answer.lookups⟩

end ClientRequest

/-- What a pass comes to: the exchanges, the bytes it used up, the requests it left. -/
structure Consumed where
  exchanges : List Exchange
  node : Node
  used : Nat
  rest : List ClientRequest
  closed : Bool

/-- What a pass over the first `n` bytes of some requests should do. -/
def consume : Node → List ClientRequest → Nat → Outcome Consumed
  | node, [], _ => .returns ⟨[], node, 0, [], false⟩
  | node, r :: rs, n =>
      if n < r.wire.length then
        if Torn r.head n then .diverges else .returns ⟨[], node, 0, r :: rs, false⟩
      else do
        let answer ← node.answer (r.parsed [])
        if r.closes then return ⟨[r.exchange answer], answer.node, r.wire.length, rs, true⟩
        else
          let c ← consume answer.node rs (n - r.wire.length)
          return ⟨r.exchange answer :: c.exchanges, c.node, r.wire.length + c.used, c.rest, c.closed⟩

/-- The requests up to the first that closes the connection. -/
def reached : List ClientRequest → List ClientRequest
  | [] => []
  | r :: rs => r :: if r.closes then [] else reached rs

/-- Wherever a request that is reached is all there it is read as it was meant, and where it is
not the server knows; `n` bytes are there, and `tail` stands behind them. -/
def LengthsRead : List ClientRequest → Nat → Bytes → Prop
  | [], _, _ => True
  | r :: rs, n, tail =>
      if n < r.wire.length then r.AwaitsMore n tail
      else r.Measured ((stream rs).take (n - r.wire.length) ++ tail) ∧
        (r.closes = false → LengthsRead rs (n - r.wire.length) tail)

/-- The server reads the request as it was meant, whatever stands behind it and however much of it
is there: its headers fit the array, and the number in the line that it takes for
`Content-Length` is the length of the payload. -/
structure ClientRequest.Readable (r : ClientRequest) : Prop where
  headers : r.headers.length ≤ httpMaxHeaders
  length : SaidInLine r.headers r.payload.length

/-- What serving the requests one after the other should come to. -/
def serveAll : Node → List ClientRequest → Outcome (List Exchange)
  | _, [] => .returns []
  | node, r :: rs => do
      let answer ← node.answer (r.parsed [])
      if r.closes then return [r.exchange answer]
      else
        let exchanges ← serveAll answer.node rs
        return r.exchange answer :: exchanges

/-! ### One packet -/

section Packets

variable (node : Node) (r : ClientRequest)

theorem wire_length_pos : 0 < r.wire.length := by
  have hhead := r.head_length
  have hwire := r.wire_length
  omega

theorem closesAfter_parsed (rest : Bytes) : closesAfter (r.parsed rest) = r.closes := rfl

/-- A whole request is answered. -/
theorem processPacket_whole (rest : Bytes) {n : Nat} (hn : r.wire.length ≤ n)
    (hheaders : r.headers.length ≤ httpMaxHeaders) (hmeasured : r.Measured rest) :
    processPacket node (r.wire ++ rest) n = (do
      let answer ← node.answer (r.parsed [])
      return ⟨if r.closes then -1 else r.wire.length, r.ended rest, r.parsed rest, answer⟩) := by
  have hpos : (0 : Int) < r.wire.length := by
    have h := wire_length_pos r
    omega
  simp only [processPacket, r.parseRequest_wire hn hheaders hmeasured, returns_bind, hpos, if_true,
    closesAfter_parsed, answer_behind]
  rfl

/-- Part of a request is left alone, unless it is torn. -/
theorem processPacket_partial {k : Nat} (hk : k < r.wire.length) {tail : Bytes}
    (htail : tail.headD 0 ≠ 10) (hheaders : r.headers.length ≤ httpMaxHeaders) (hmore : r.AwaitsMore k tail) :
    (¬ Torn r.head k → ∃ request, processPacket node (r.wire.take k ++ tail) k
        = .returns ⟨0, r.wire.take k ++ tail, request, ⟨node, [], []⟩⟩) ∧
      (Torn r.head k → processPacket node (r.wire.take k ++ tail) k = .diverges) := by
  obtain ⟨hwait, hstuck⟩ := r.parseRequest_partial hk htail hheaders hmore
  constructor
  · intro hnot
    obtain ⟨⟨ret, buffer, request⟩, hparse, hret, hbuffer⟩ := hwait hnot
    subst hret hbuffer
    refine ⟨request, ?_⟩
    simp only [processPacket, hparse, returns_bind]
    rfl
  · intro htorn
    simp only [processPacket, hstuck htorn, diverges_bind]

/-- **What a packet makes of a request whose head is there**: it has no more headers than there is
room for, and the length that is said is awaited, or taken for the payload's. -/
theorem processPacket_said {node : Node} {r : ClientRequest} {rest : Bytes} {n : Nat} {packet : Packet}
    (hn : r.head.length ≤ n) (h : processPacket node (r.head ++ rest) n = .returns packet) :
    r.headers.length ≤ httpMaxHeaders ∧ ∃ k, SaidLength r.headers (crlf ++ rest) k ∧
      ((n < r.head.length + k ∧ packet.ret = 0 ∧ packet.answer.node = node ∧ packet.answer.replies = [] ∧
          packet.buffer = r.head ++ rest) ∨
        (r.head.length + k ≤ n ∧ (∃ reply, packet.answer.replies = [reply]) ∧
          packet.exchange.payload = rest.take k)) := by
  have hheaders : r.headers.length ≤ httpMaxHeaders := by
    by_contra hmany
    obtain ⟨parsed, hparsed, -⟩ := bind_eq_returns.mp h
    exact r.parseRequest_crowded rest hn (by omega) parsed hparsed
  obtain ⟨k, hk⟩ := saidLength_exists r.headers (crlf ++ rest)
  refine ⟨hheaders, k, hk, ?_⟩
  have hhead := r.head_length
  unfold processPacket at h
  rw [RequestText.parseRequest_head r.plain _ (by omega) (by omega), RequestText.finishRequest_head,
    saidLength_iff.mp hk, if_neg (by omega)] at h
  by_cases hmore : n < r.head.length + k
  · rw [if_pos (by omega), returns_bind, if_neg (Int.lt_irrefl 0), if_neg (by simp), pure_eq,
      Outcome.returns.injEq] at h
    subst h
    exact Or.inl ⟨hmore, rfl, rfl, rfl, rfl⟩
  · rw [if_neg (by omega), returns_bind, if_pos (by simp only; omega)] at h
    obtain ⟨answer, hanswer, h⟩ := bind_eq_returns.mp h
    rw [pure_eq, Outcome.returns.injEq] at h
    subst h
    exact Or.inr ⟨by omega, answer_one hanswer, by simp [Packet.exchange]⟩

/-- With no bytes received there is nothing to do. -/
theorem processPacket_empty (mem : Bytes) :
    processPacket node mem 0 = .returns ⟨0, mem, emptyRequest, ⟨node, [], []⟩⟩ := by
  have hnone : memstr mem 0 crlf = .returns none := memstr_none (by simp)
  simp only [processPacket, parseRequest, hnone, returns_bind]
  rfl

/-- The exchange of a packet that holds a whole request. -/
theorem exchange_whole (ret : Int) (buffer rest : Bytes) (answer : Answer) :
    (Packet.mk ret buffer (r.parsed rest) answer).exchange = r.exchange answer := by
  simp [Packet.exchange, ClientRequest.exchange, ClientRequest.parsed]

theorem answered_cons {p : Packet} (hp : ∃ reply, p.answer.replies = [reply]) (ps : List Packet) :
    answered (p :: ps) = p.exchange :: answered ps := by
  obtain ⟨reply, hreply⟩ := hp
  simp [answered, hreply]

end Packets

/-! ### Readable requests -/

section Readable

variable {r : ClientRequest} (h : r.Readable)

include h in
/-- The length that is found is the payload's, whatever stands behind it. -/
theorem ClientRequest.Readable.measured (rest : Bytes) : r.Measured rest := h.length.said _

include h in
/-- Where part of the request is there the rest of it is awaited. -/
theorem ClientRequest.Readable.awaitsMore {n : Nat} (hn : n < r.wire.length) (tail : Bytes) :
    r.AwaitsMore n tail := by
  have hwire := r.wire_length
  intro j hj k hk
  have hsaid := h.length.said (crlf ++ (r.payload.take j ++ tail))
  have hsame := (saidLength_iff.mp hk).symm.trans (saidLength_iff.mp hsaid)
  omega

end Readable

/-- Requests that are readable are read as they were meant. -/
theorem lengthsRead_of_readable : ∀ {rs : List ClientRequest} {n : Nat} {tail : Bytes},
    (∀ r ∈ reached rs, r.Readable) → LengthsRead rs n tail := by
  intro rs
  induction rs with
  | nil => intro n tail _; trivial
  | cons r rs ih =>
      intro n tail hreadable
      have hr := hreadable r (List.mem_cons_self ..)
      rw [LengthsRead]
      split
      case isTrue hpart => exact hr.awaitsMore hpart tail
      case isFalse =>
        refine ⟨hr.measured _, fun hopen => ih fun r' hr' => hreadable r' ?_⟩
        rw [reached, hopen]
        exact List.mem_cons_of_mem _ hr'

/-! ### The pass -/

/-- What a pass returns, against what it should come to. -/
structure Window.Matches (start : Nat) (mem : Bytes) (w : Window) (c : Consumed) : Prop where
  exchanges : answered w.packets = c.exchanges
  node : w.node = c.node
  ret : w.ret = if c.closed then -1 else 0
  left : c.closed = false → w.start = start + c.used ∧ w.mem = mem.drop c.used

/-- Nothing was answered and nothing used up. -/
theorem matches_idle (node : Node) (start : Nat) (mem : Bytes) (request : Request) (rs : List ClientRequest) :
    Window.Matches start mem ⟨0, node, start, mem, [⟨0, mem, request, ⟨node, [], []⟩⟩]⟩
      ⟨[], node, 0, rs, false⟩ :=
  ⟨rfl, rfl, rfl, fun _ => ⟨rfl, rfl⟩⟩

/-- **The loop of `handle_connection` does what a pass should do.** -/
theorem processWindow_consume : ∀ (rs : List ClientRequest) {node : Node} (fuel start : Nat)
    {n : Nat} {tail : Bytes}, (∀ r ∈ reached rs, r.headers.length ≤ httpMaxHeaders) →
    LengthsRead rs n tail → n ≤ (stream rs).length → (n < (stream rs).length → tail.headD 0 ≠ 10) →
    n < fuel →
      Rel (Window.Matches start ((stream rs).take n ++ tail))
        (processWindow fuel node ((stream rs).take n ++ tail) start n) (consume node rs n) := by
  intro rs
  induction rs with
  | nil =>
      intro node fuel start n tail _ _ hn _ hfuel
      obtain ⟨fuel, rfl⟩ : ∃ f, fuel = f + 1 := ⟨fuel - 1, by omega⟩
      have hn0 : n = 0 := Nat.le_zero.mp hn
      subst hn0
      simp only [processWindow, processPacket_empty, returns_bind, Int.lt_irrefl, if_false]
      exact .returns (matches_idle node start _ _ _)
  | cons r rs ih =>
      intro node fuel start n tail hheaders hreads hn htail hfuel
      obtain ⟨fuel, rfl⟩ : ∃ f, fuel = f + 1 := ⟨fuel - 1, by omega⟩
      have hr : r.headers.length ≤ httpMaxHeaders := hheaders r (List.mem_cons_self ..)
      have hstream : stream (r :: rs) = r.wire ++ stream rs := List.flatMap_cons
      have hpos := wire_length_pos r
      rw [LengthsRead] at hreads
      by_cases hpart : n < r.wire.length
      · rw [if_pos hpart] at hreads
        have htake : (stream (r :: rs)).take n = r.wire.take n := by
          rw [hstream, List.take_append_of_le_length (by omega)]
        have hmore : n < (stream (r :: rs)).length := by
          rw [hstream, List.length_append]
          omega
        obtain ⟨hwait, hstuck⟩ := processPacket_partial node r hpart (htail hmore) hr hreads
        rw [htake, processWindow, consume, if_pos hpart]
        by_cases htorn : Torn r.head n
        · rw [if_pos htorn, hstuck htorn]
          exact .diverges
        · obtain ⟨request, hpacket⟩ := hwait htorn
          rw [if_neg htorn, hpacket]
          exact .returns (matches_idle node start _ request _)
      · obtain ⟨k, rfl⟩ : ∃ k, n = r.wire.length + k := ⟨n - r.wire.length, by omega⟩
        have htake : (stream (r :: rs)).take (r.wire.length + k) ++ tail
            = r.wire ++ ((stream rs).take k ++ tail) := by
          rw [hstream, List.take_length_add_append, List.append_assoc]
        have hlen : r.wire.length + k - r.wire.length = k := by omega
        rw [if_neg hpart, hlen] at hreads
        rw [htake, processWindow, consume, if_neg hpart,
          processPacket_whole node r _ (by omega) hr hreads.1, bind_assoc, hlen]
        refine Rel.bind_self _ ?_
        intro answer hanswer
        have hone := answer_one hanswer
        cases hcloses : r.closes with
        | true =>
            have hneg : ¬ (0 : Int) < -1 := by decide
            simp only [if_true, pure_eq, returns_bind, hneg, if_false]
            refine .returns ⟨?_, rfl, rfl, fun hc => nomatch hc⟩
            rw [answered_cons hone, exchange_whole]
            rfl
        | false =>
            have hpos' : (0 : Int) < r.wire.length := by omega
            have hrest : ∀ r' ∈ reached rs, r'.headers.length ≤ httpMaxHeaders := by
              intro r' hr'
              refine hheaders r' ?_
              rw [reached, hcloses]
              exact List.mem_cons_of_mem _ hr'
            rw [hstream, List.length_append] at hn htail
            simp only [Bool.false_eq_true, if_false, pure_eq, returns_bind, hpos', if_true,
              Int.toNat_natCast, r.ended_drop, hlen]
            refine Rel.bind (ih fuel (start + r.wire.length) hrest (hreads.2 hcloses) (by omega)
              (fun hk => htail (by omega)) (by omega)) ?_
            intro w c hwc
            refine .returns ⟨?_, hwc.node, hwc.ret, ?_⟩
            · show answered (_ :: w.packets) = _
              rw [answered_cons hone, exchange_whole, hwc.exchanges]
            · intro hopen
              obtain ⟨hstart, hmem⟩ := hwc.left hopen
              refine ⟨?_, ?_⟩
              · show w.start = start + (r.wire.length + c.used)
                omega
              · show w.mem = (r.wire ++ _).drop (r.wire.length + c.used)
                rw [hmem, List.drop_length_add_append]

end ChordDht.Chord
