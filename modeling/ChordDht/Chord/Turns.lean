/-
A turn of the loop against a call of its handler.

`handle_connection` and `handle_udp_socket` are modelled twice: as one call each, which is
what the results about a connection speak of, and step by step in the loop of the process,
where other nodes act in between.  Here the steps of a turn are put together again: they
come to the call, with what is sent in between.
-/
import ChordDht.Chord.EventLoop

namespace ChordDht.Chord

namespace Sent

def append (a b : Sent) : Sent := ⟨a.replies ++ b.replies, a.datagrams ++ b.datagrams⟩

instance : Append Sent := ⟨append⟩

@[simp] theorem append_replies (a b : Sent) : (a ++ b).replies = a.replies ++ b.replies := rfl

@[simp] theorem append_datagrams (a b : Sent) : (a ++ b).datagrams = a.datagrams ++ b.datagrams := rfl

@[simp] theorem append_nothing (a : Sent) : a ++ nothing = a := by
  show Sent.mk (a.replies ++ []) (a.datagrams ++ []) = a
  rw [List.append_nil, List.append_nil]

@[simp] theorem nothing_append (a : Sent) : nothing ++ a = a := rfl

theorem append_assoc (a b c : Sent) : a ++ b ++ c = a ++ (b ++ c) := by
  show Sent.mk _ _ = Sent.mk _ _
  rw [Sent.mk.injEq]
  exact ⟨List.append_assoc .., List.append_assoc ..⟩

end Sent

namespace Process

/-- Some steps, with everything that is sent. -/
def feed : Process → List SysCall → Option (Process × Sent)
  | p, [] => some (p, nothing)
  | p, call :: calls =>
      (p.step call).bind fun result => (result.1.feed calls).map fun rest => (rest.1, result.2 ++ rest.2)

theorem feed_cons {p p' : Process} {call : SysCall} {calls : List SysCall} {sent : Sent}
    (h : p.step call = some (p', sent)) :
    p.feed (call :: calls) = (p'.feed calls).map fun rest => (rest.1, sent ++ rest.2) := by
  rw [feed, h, Option.bind_some]

theorem feed_append {calls more : List SysCall} : ∀ {p p' : Process} {sent : Sent}, p.feed calls = some (p', sent) →
    p.feed (calls ++ more) = (p'.feed more).map fun rest => (rest.1, sent ++ rest.2) := by
  induction calls with
  | nil =>
      intro p p' sent h
      rw [feed, Option.some.injEq, Prod.mk.injEq] at h
      rw [← h.1, ← h.2]
      show p.feed more = _
      cases p.feed more <;> rfl
  | cons call calls ih =>
      intro p p' sent h
      obtain ⟨⟨q, first⟩, hstep, hrest⟩ := Option.bind_eq_some_iff.mp h
      obtain ⟨⟨p'', others⟩, hfeed, hsum⟩ := Option.map_eq_some_iff.mp hrest
      obtain ⟨rfl, rfl⟩ := Prod.mk.inj hsum
      rw [List.cons_append, feed_cons hstep, ih hfeed, Option.map_map]
      congr 1
      funext rest
      exact congrArg (Prod.mk _) (Sent.append_assoc _ _ _).symm

end Process

/-! ### The connection -/

/-- Only what stands behind the discarded bytes matters. -/
theorem bufferDiscard_congr {buffer buffer' : Bytes} {discard : Nat} (keep : Nat)
    (h : buffer.drop discard = buffer'.drop discard) :
    bufferDiscard buffer discard keep = bufferDiscard buffer' discard keep := by
  have hback : buffer.drop (keep + discard) = buffer'.drop (keep + discard) := by
    rw [Nat.add_comm, ← List.drop_drop, ← List.drop_drop, h]
  rw [bufferDiscard, bufferDiscard, h, hback]

/-- What all the packets of a pass send. -/
def sentBy (packets : List Packet) : Sent :=
  ⟨packets.flatMap fun packet => packet.answer.replies, packets.flatMap fun packet => packet.answer.lookups⟩

theorem sentBy_cons (packet : Packet) (packets : List Packet) :
    sentBy (packet :: packets) = ⟨packet.answer.replies, packet.answer.lookups⟩ ++ sentBy packets := rfl

/-- The process after a pass over the window. -/
def Process.afterWindow (p : Process) (w : Window) (n : Nat) : Process :=
  if w.ret = -1 then { p.hangUp with node := w.node }
  else
    { p with
        node := w.node
        turn := .poll
        state := ⟨bufferDiscard (List.replicate w.start 0 ++ w.mem) w.start (n - w.start), n - w.start⟩ }

/-- **The rounds of the loop are the pass over the window.** -/
theorem feed_window : ∀ (fuel : Nat) {p : Process} {front mem : Bytes} {n : Nat} {w : Window},
    p.turn = .window front mem n → n ≤ mem.length →
    processWindow fuel p.node mem front.length n = .returns w →
      p.feed (List.replicate w.packets.length .packet)
        = some (p.afterWindow w (front.length + n), sentBy w.packets) := by
  intro fuel
  induction fuel with
  | zero => intro p front mem n w _ _ h; cases h
  | succ fuel ih =>
      intro p front mem n w hturn hn h
      obtain ⟨packet, hpacket, h⟩ := Outcome.bind_eq_returns.mp h
      have hstep : p.step .packet = some (p.packet front mem n) := by
        unfold Process.step
        rw [hturn]
      by_cases hpos : 0 < packet.ret
      · rw [if_pos hpos] at h
        obtain ⟨rest, hrest, h⟩ := Outcome.bind_eq_returns.mp h
        rw [Outcome.pure_eq, Outcome.returns.injEq] at h
        rw [← h]
        rcases processPacket_of hpacket with hret | ⟨hret, -⟩ | ⟨k, hret, -, hkn, -⟩
        · omega
        · omega
        · have hcount : (packet.buffer.take k).length = k := by
            rw [List.length_take, processPacket_length hpacket]
            omega
          have hp : p.packet front mem n
              = ({ p with
                    node := packet.answer.node
                    turn := .window (front ++ packet.buffer.take k) (packet.buffer.drop k) (n - k) },
                  ⟨packet.answer.replies, packet.answer.lookups⟩) := by
            unfold Process.packet
            rw [hpacket]
            simp only
            rw [if_pos hpos, hret, Int.toNat_natCast]
          rw [hret, Int.toNat_natCast] at hrest
          rw [hp] at hstep
          rw [List.length_cons, List.replicate_succ, Process.feed_cons hstep]
          have hfeed := @ih { p with
                node := packet.answer.node
                turn := .window (front ++ packet.buffer.take k) (packet.buffer.drop k) (n - k) }
            (front ++ packet.buffer.take k) (packet.buffer.drop k) (n - k) rest rfl
            (by rw [List.length_drop, processPacket_length hpacket]; omega)
            (by rw [List.length_append, hcount]; exact hrest)
          have hsum : front.length + k + (n - k) = front.length + n := by omega
          rw [hfeed, Option.map_some, sentBy_cons, List.length_append, hcount, hsum]
          rfl
      · rw [if_neg hpos, Outcome.pure_eq, Outcome.returns.injEq] at h
        rw [← h]
        have hp : p.packet front mem n
            = (p.afterWindow ⟨packet.ret, packet.answer.node, front.length, packet.buffer, [packet]⟩
                (front.length + n), ⟨packet.answer.replies, packet.answer.lookups⟩) := by
          unfold Process.packet Process.afterWindow
          rw [hpacket]
          simp only [if_neg hpos, Nat.add_sub_cancel_left]
          by_cases hclosed : packet.ret = -1
          · rw [if_pos hclosed, if_pos hclosed]
            rfl
          · rw [if_neg hclosed, if_neg hclosed]
            have hfront : (front ++ packet.buffer).drop front.length
                = (List.replicate front.length 0 ++ packet.buffer).drop front.length := by
              rw [List.drop_left, List.drop_left' List.length_replicate]
            rw [bufferDiscard_congr n hfront]
        rw [hp] at hstep
        rw [List.length_singleton, List.replicate_one, Process.feed_cons hstep, sentBy_cons]
        rfl

/-- The process after a call of `handle_connection`: a connection that is not kept is closed. -/
def Process.afterCall (p : Process) (handled : Handled) : Process :=
  if handled.cont then { p with node := handled.node, turn := .poll, state := handled.state }
  else { p.hangUp with node := handled.node, state := handled.state }

/-- **A turn of the connection is a call of `handle_connection`**, one `recv` and as many rounds
as it answers packets. -/
theorem connection_turn {p : Process} {received : Bytes} {handled : Handled} (hturn : p.turn = .connection)
    (hready : p.ready.connection = true) (hslot : p.slot = some p.sock) (hstop : p.state.stop ≤ p.state.buffer.length)
    (hfits : received.length ≤ httpMaxSize - p.state.stop)
    (hcall : handleConnection p.node p.state received = .returns handled) :
    p.feed (.recv (some received) :: List.replicate handled.packets.length .packet)
      = some (p.afterCall handled, sentBy handled.packets) := by
  have hstep : p.step (.recv (some received)) = some (p.recv (some received), nothing) := by
    have hsome : p.slot ≠ none := by
      rw [hslot]
      exact Option.some_ne_none _
    have hroom : ∀ bytes ∈ some received, bytes.length ≤ httpMaxSize - p.state.stop := by
      intro bytes hbytes
      rwa [← Option.some.inj hbytes]
    unfold Process.step
    rw [hturn]
    simp only
    rw [if_pos ⟨hready, hsome⟩, if_pos hslot, if_pos hroom]
  rw [Process.feed_cons hstep]
  cases received with
  | nil =>
      rw [handleConnection, if_pos rfl, Outcome.returns.injEq] at hcall
      rw [← hcall]
      rfl
  | cons b bytes =>
      rw [handleConnection, if_neg (List.cons_ne_nil _ _)] at hcall
      obtain ⟨w, hwindow, hcall⟩ := Outcome.bind_eq_returns.mp hcall
      have hlength : p.state.stop + (b :: bytes).length
          ≤ (p.state.buffer.take p.state.stop ++ b :: bytes
            ++ p.state.buffer.drop (p.state.stop + (b :: bytes).length)).length := by
        rw [List.length_append, List.length_append, List.length_take]
        omega
      have hfeed := @feed_window _ (p.recv (some (b :: bytes))) [] _ _ w rfl hlength hwindow
      by_cases hclosed : w.ret = -1
      · rw [if_pos hclosed, Outcome.pure_eq, Outcome.returns.injEq] at hcall
        rw [← hcall, hfeed, Option.map_some, Process.afterWindow, if_pos hclosed]
        rfl
      · rw [if_neg hclosed, Outcome.pure_eq, Outcome.returns.injEq] at hcall
        have hleft := processWindow_left _ hwindow
        have hstart : w.start ≤ p.state.stop + (b :: bytes).length := by
          rw [hleft.start_eq, Nat.zero_add]
          exact hleft.le
        have hfront : (List.replicate w.start 0 ++ w.mem).drop w.start
            = ((p.state.buffer.take p.state.stop ++ b :: bytes
                ++ p.state.buffer.drop (p.state.stop + (b :: bytes).length)).take w.start ++ w.mem).drop w.start := by
          rw [List.drop_left' List.length_replicate, List.drop_left' (List.length_take_of_le (by omega))]
        rw [← hcall, hfeed, Option.map_some, Process.afterWindow, if_neg hclosed, List.length_nil, Nat.zero_add,
          bufferDiscard_congr _ hfront]
        rfl

/-! ### The UDP socket -/

/-- **A turn of the UDP socket is a call of `handle_udp_socket`**, one `recvfrom` for each datagram
and one that finds nothing. -/
theorem udp_turn (datagrams : List Bytes) (hsome : ∀ bytes ∈ datagrams, bytes ≠ []) : ∀ {p : Process},
    p.turn = .udp → p.ready.udp = true →
      p.feed (datagrams.map (fun bytes => .recvfrom (some bytes)) ++ [.recvfrom none])
        = some ({ p with node := (handleUdpSocket p.node datagrams).1, turn := .connection },
            ⟨[], (handleUdpSocket p.node datagrams).2⟩) := by
  induction datagrams with
  | nil =>
      intro p hturn hready
      have hstep : p.step (.recvfrom none) = some (p.recvfrom none) := by
        unfold Process.step
        rw [hturn]
        simp only
        rw [if_pos hready]
      rw [List.map_nil, List.nil_append, Process.feed_cons hstep]
      rfl
  | cons bytes datagrams ih =>
      intro p hturn hready
      obtain ⟨b, rest, rfl⟩ := List.exists_cons_of_ne_nil (hsome _ List.mem_cons_self)
      have hstep : p.step (.recvfrom (some (b :: rest)))
          = some ((p.recvfrom (some (b :: rest))).1, (p.recvfrom (some (b :: rest))).2) := by
        unfold Process.step
        rw [hturn]
        simp only
        rw [if_pos hready]
      have hfeed := @ih (fun bytes hbytes => hsome bytes (List.mem_cons_of_mem _ hbytes))
        (p.recvfrom (some (b :: rest))).1 hturn hready
      rw [List.map_cons, List.cons_append, Process.feed_cons hstep, hfeed]
      rfl

/-- **A round of the loop is two calls**: with datagrams waiting and bytes on the connection, the
steps of the process come to `handle_udp_socket` on the queue and then `handle_connection` at the
node this leaves, with the datagrams and replies that the two send. -/
theorem round_is_calls {p : Process} {datagrams : List Bytes} (hsome : ∀ bytes ∈ datagrams, bytes ≠ [])
    {received : Bytes} {handled : Handled} (hturn : p.turn = .udp) (hudp : p.ready.udp = true)
    (hready : p.ready.connection = true) (hslot : p.slot = some p.sock) (hstop : p.state.stop ≤ p.state.buffer.length)
    (hfits : received.length ≤ httpMaxSize - p.state.stop)
    (hcall : handleConnection (handleUdpSocket p.node datagrams).1 p.state received = .returns handled) :
    p.feed (datagrams.map (fun bytes => .recvfrom (some bytes)) ++ [.recvfrom none]
        ++ .recv (some received) :: List.replicate handled.packets.length .packet)
      = some (p.afterCall handled, ⟨[], (handleUdpSocket p.node datagrams).2⟩ ++ sentBy handled.packets) := by
  have hfirst := udp_turn datagrams hsome hturn hudp
  have hsecond := @connection_turn { p with node := (handleUdpSocket p.node datagrams).1, turn := .connection }
    received handled rfl hready hslot hstop hfits hcall
  rw [Process.feed_append hfirst, hsecond, Option.map_some]
  unfold Process.afterCall
  cases handled.cont <;> rfl

/-- The process is about to read its UDP socket, with a connection open. -/
def readyProcess : Process :=
  { Process.start (threeNodes.node ⟨0, threeNodes.pos⟩) with
    turn := .udp, ready := ⟨false, true, true⟩, accepting := false, slot := some 7, sock := 7 }

/-- A REPLY is waiting, and a request for `/a` comes in. -/
theorem round_is_calls_reply : ∃ handled,
    handleConnection (handleUdpSocket readyProcess.node [(threeNodes.replyNaming ⟨2, by decide⟩).bytes]).1
        readyProcess.state (ascii "GET /a HTTP/1.1\r\n\r\n") = .returns handled ∧
      handled.cont = true ∧
      readyProcess.feed ([(threeNodes.replyNaming ⟨2, by decide⟩).bytes].map (fun bytes => .recvfrom (some bytes))
          ++ [.recvfrom none]
          ++ .recv (some (ascii "GET /a HTTP/1.1\r\n\r\n")) :: List.replicate handled.packets.length .packet)
        = some (readyProcess.afterCall handled,
          ⟨[], (handleUdpSocket readyProcess.node [(threeNodes.replyNaming ⟨2, by decide⟩).bytes]).2⟩
            ++ sentBy handled.packets) := by
  have hcont : (handleConnection (handleUdpSocket readyProcess.node [(threeNodes.replyNaming ⟨2, by decide⟩).bytes]).1
      readyProcess.state (ascii "GET /a HTTP/1.1\r\n\r\n") >>= fun handled => .returns handled.cont)
        = .returns true := by decide +kernel
  obtain ⟨handled, hcall, hcont⟩ := Outcome.bind_eq_returns.mp hcont
  rw [Outcome.returns.injEq] at hcont
  exact ⟨handled, hcall, hcont, round_is_calls (by decide +kernel) rfl rfl rfl rfl (Nat.zero_le _)
    (by decide +kernel) hcall⟩

end ChordDht.Chord
