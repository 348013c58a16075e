/-
The loop of `main` in `chord-node/webserver.c`: one node as a process.

The process waits in `poll` and then takes the three sockets in turn: the server socket,
which may give it a client connection, the UDP socket, which it reads until nothing is left,
and the client connection, whose requests it works through one by one.  `SysCall` is what the
operating system answers to its calls; every order of answers that `poll` allows is a run.
So a result about all runs covers datagrams and connections in any order.

`Watched` keeps beside the process what was received on the connection it has open.  In
`Watched.Sound` is what a maintainer relies on: there is one connection at a time, the
assertion in the loop never fails, and what is in the buffer was received on this connection
and not on one before it.
-/
import ChordDht.Chord.Ring
import ChordDht.Chord.Unconsumed

namespace ChordDht.Chord

open Trace

/-- How a process ends. -/
inductive Ending where
  | exited
  | aborted
  | stuck
  | crashed
  deriving DecidableEq, Repr

/-- Where the process is: in `poll`, at one of the sockets, in the loop of `handle_connection`
with the `n` bytes at `mem` to go and `front` before them, or gone. -/
inductive Turn where
  | poll
  | server
  | udp
  | connection
  | window (front mem : Bytes) (n : Nat)
  | gone (ending : Ending)
  deriving DecidableEq, Repr

/-- The sockets that `poll` found events on. -/
structure Ready where
  server : Bool
  udp : Bool
  connection : Bool
  deriving DecidableEq, Repr

/-- The node, the entries 0 and 2 of `sockets` as far as they change, and the connection. -/
structure Process where
  node : Node
  turn : Turn
  ready : Ready
  accepting : Bool
  slot : Option Nat
  sock : Nat
  state : Connection
  deriving DecidableEq, Repr

inductive Accepted where
  | connection (fd : Nat)
  | again
  | error
  deriving DecidableEq, Repr

/-- What the calls of the loop are answered: a datagram or nothing more, received bytes, the
end of the stream (no bytes), or an error.  `pass` is a socket without events, and `packet`
one round of the loop of `handle_connection`. -/
inductive SysCall where
  | poll (ready : Ready)
  | pollError
  | accept (result : Accepted)
  | recvfrom (datagram : Option Bytes)
  | recv (received : Option Bytes)
  | packet
  | pass
  deriving DecidableEq, Repr

/-- What the process sends in a step: replies on the connection, and datagrams. -/
structure Sent where
  replies : List Reply
  datagrams : List Datagram
  deriving DecidableEq, Repr

def nothing : Sent := ⟨[], []⟩

namespace Process

def start (node : Node) : Process where
  node := node
  turn := .poll
  ready := ⟨false, false, false⟩
  accepting := true
  slot := none
  sock := 0
  state := connectionSetup

/-- The connection is closed: its slot is free, and new ones are accepted. -/
def hangUp (p : Process) : Process := { p with turn := .poll, accepting := true, slot := none }

def goes (p : Process) (ending : Ending) : Process := { p with turn := .gone ending }

/-- `accept` on the server socket. -/
def accept (p : Process) : Accepted → Process
  | .connection fd =>
      { p with turn := .udp, accepting := false, slot := some fd, sock := fd, state := connectionSetup }
  | .again => { p with turn := .udp }
  | .error => p.goes .exited

/-- One round of the loop of `handle_udp_socket`; nothing and an empty datagram end it. -/
def recvfrom (p : Process) : Option Bytes → Process × Sent
  | none => ({ p with turn := .connection }, nothing)
  | some [] => ({ p with turn := .connection }, nothing)
  | some bytes =>
      let handled := handleDatagram p.node bytes
      ({ p with node := handled.1 }, ⟨[], handled.2⟩)

/-- `recv` at the start of `handle_connection`. -/
def recv (p : Process) : Option Bytes → Process
  | none => p.goes .exited
  | some [] => p.hangUp
  | some received =>
      let buffer := p.state.buffer.take p.state.stop ++ received
        ++ p.state.buffer.drop (p.state.stop + received.length)
      { p with turn := .window [] buffer (p.state.stop + received.length) }

/-- One call of `process_packet`, and what the loop does with its result. -/
def packet (p : Process) (front mem : Bytes) (n : Nat) : Process × Sent :=
  match processPacket p.node mem n with
  | .returns packet =>
      let p := { p with node := packet.answer.node }
      let sent : Sent := ⟨packet.answer.replies, packet.answer.lookups⟩
      if 0 < packet.ret then
        let k := packet.ret.toNat
        ({ p with turn := .window (front ++ packet.buffer.take k) (packet.buffer.drop k) (n - k) }, sent)
      else if packet.ret = -1 then (p.hangUp, sent)
      else
        ({ p with
            turn := .poll
            state := ⟨bufferDiscard (front ++ packet.buffer) front.length n, n⟩ }, sent)
  | .exits => (p.goes .exited, nothing)
  | .diverges => (p.goes .stuck, nothing)
  | .faults => (p.goes .crashed, nothing)

/-- One step.  `poll` reports only what it was asked for, and `recv` no more than there is
room for. -/
def step (p : Process) (call : SysCall) : Option (Process × Sent) :=
  match p.turn, call with
  | .poll, .poll ready =>
      if (ready.server = true → p.accepting = true) ∧ (ready.connection = true → p.slot ≠ none) then
        some ({ p with turn := .server, ready := ready }, nothing)
      else none
  | .poll, .pollError => some (p.goes .exited, nothing)
  | .server, .accept result => if p.ready.server then some (p.accept result, nothing) else none
  | .server, .pass => if p.ready.server then none else some ({ p with turn := .udp }, nothing)
  | .udp, .recvfrom datagram => if p.ready.udp then some (p.recvfrom datagram) else none
  | .udp, .pass => if p.ready.udp then none else some ({ p with turn := .connection }, nothing)
  | .connection, .recv received =>
      if p.ready.connection = true ∧ p.slot ≠ none then
        if p.slot = some p.sock then
          if ∀ bytes ∈ received, bytes.length ≤ httpMaxSize - p.state.stop then some (p.recv received, nothing)
          else none
        else some (p.goes .aborted, nothing)
      else none
  | .connection, .pass =>
      if p.ready.connection = true ∧ p.slot ≠ none then none else some ({ p with turn := .poll }, nothing)
  | .window front mem n, .packet => some (p.packet front mem n)
  | _, _ => none

end Process

/-! ### What a step can do -/

/-- The steps, each with what holds before it. -/
inductive Stepped (p : Process) : SysCall → Process × Sent → Prop
  | poll (ready : Ready) (hturn : p.turn = .poll) (hserver : ready.server = true → p.accepting = true)
      (hconnection : ready.connection = true → p.slot ≠ none) :
      Stepped p (.poll ready) ({ p with turn := .server, ready := ready }, nothing)
  | pollError (hturn : p.turn = .poll) : Stepped p .pollError (p.goes .exited, nothing)
  | accept (result : Accepted) (hturn : p.turn = .server) (hready : p.ready.server = true) :
      Stepped p (.accept result) (p.accept result, nothing)
  | passServer (hturn : p.turn = .server) : Stepped p .pass ({ p with turn := .udp }, nothing)
  | recvfrom (datagram : Option Bytes) (hturn : p.turn = .udp) :
      Stepped p (.recvfrom datagram) (p.recvfrom datagram)
  | passUdp (hturn : p.turn = .udp) : Stepped p .pass ({ p with turn := .connection }, nothing)
  | recv (received : Option Bytes) (hturn : p.turn = .connection) (hslot : p.slot = some p.sock)
      (hroom : ∀ bytes ∈ received, bytes.length ≤ httpMaxSize - p.state.stop) :
      Stepped p (.recv received) (p.recv received, nothing)
  | assertion (received : Option Bytes) (hturn : p.turn = .connection) (hsome : p.slot ≠ none)
      (hslot : p.slot ≠ some p.sock) : Stepped p (.recv received) (p.goes .aborted, nothing)
  | passConnection (hturn : p.turn = .connection) : Stepped p .pass ({ p with turn := .poll }, nothing)
  | packet (front mem : Bytes) (n : Nat) (hturn : p.turn = .window front mem n) :
      Stepped p .packet (p.packet front mem n)

theorem step_stepped {p : Process} {call : SysCall} {result : Process × Sent}
    (h : p.step call = some result) : Stepped p call result := by
  unfold Process.step at h
  split at h
  · rename_i ready hturn
    split at h
    · rename_i hready
      rw [← Option.some.inj h]
      exact .poll ready hturn hready.1 hready.2
    · cases h
  · rename_i hturn
    rw [← Option.some.inj h]
    exact .pollError hturn
  · rename_i result' hturn
    split at h
    · rename_i hready
      rw [← Option.some.inj h]
      exact .accept result' hturn hready
    · cases h
  · rename_i hturn
    split at h
    · cases h
    · rw [← Option.some.inj h]
      exact .passServer hturn
  · rename_i datagram hturn
    split at h
    · rw [← Option.some.inj h]
      exact .recvfrom datagram hturn
    · cases h
  · rename_i hturn
    split at h
    · cases h
    · rw [← Option.some.inj h]
      exact .passUdp hturn
  · rename_i received hturn
    split at h
    · rename_i hready
      split at h
      · rename_i hslot
        split at h
        · rename_i hroom
          rw [← Option.some.inj h]
          exact .recv received hturn hslot hroom
        · cases h
      · rename_i hslot
        rw [← Option.some.inj h]
        exact .assertion received hturn hready.2 hslot
    · cases h
  · rename_i hturn
    split at h
    · cases h
    · rw [← Option.some.inj h]
      exact .passConnection hturn
  · rename_i front mem n hturn
    rw [← Option.some.inj h]
    exact .packet front mem n hturn
  · cases h

/-! ### What is in the buffer -/

/-- A packet leaves the buffer as long as it was. -/
theorem processPacket_length {node : Node} {mem : Bytes} {n : Nat} {packet : Packet}
    (h : processPacket node mem n = .returns packet) : packet.buffer.length = mem.length := by
  rw [processPacket, Outcome.bind_eq_returns] at h
  obtain ⟨parse, hparse, h⟩ := h
  have hlength : parse.buffer.length = mem.length := by
    cases parseRequest_of hparse with
    | untouched _ hbuffer => rw [hbuffer]
    | consumed _ _ _ _ hlength => exact hlength
  split at h
  · obtain ⟨answer, -, h⟩ := Outcome.bind_eq_returns.mp h
    rw [← Outcome.returns.inj h]
    exact hlength
  · split at h
    · rw [← Outcome.returns.inj h]
      exact hlength
    · rw [← Outcome.returns.inj h]
      exact hlength

/-- The process is not in the middle of a buffer. -/
def Turn.waits : Turn → Bool
  | .window .. | .gone _ => false
  | _ => true

/-- A process, what it received on its connection, and how much of that is consumed. -/
structure Watched where
  process : Process
  heard : Bytes
  used : Nat
  deriving DecidableEq, Repr

namespace Watched

def start (node : Node) : Watched := ⟨Process.start node, [], 0⟩

def heardAfter (heard : Bytes) : SysCall → Bytes
  | .accept (.connection _) => []
  | .recv (some received) => heard ++ received
  | _ => heard

def usedAfter (used : Nat) (before after : Turn) : SysCall → Nat
  | .accept (.connection _) => 0
  | .packet =>
      match before, after with
      | .window _ _ n, .window _ _ n' => used + (n - n')
      | _, _ => used
  | _ => used

def step (w : Watched) (call : SysCall) : Option Watched :=
  (w.process.step call).map fun result =>
    ⟨result.1, heardAfter w.heard call, usedAfter w.used w.process.turn result.1.turn call⟩

/-- What is left of the buffer while the process works through it. -/
structure InWindow (heard : Bytes) (used : Nat) (front mem : Bytes) (n : Nat) : Prop where
  used_le : used ≤ heard.length
  number : n = (heard.drop used).length
  memory : ∃ room, mem = heard.drop used ++ List.replicate room 0 ∧ front.length + n + room = httpMaxSize

/-- **What holds in every state of the loop.** -/
structure Sound (w : Watched) : Prop where
  /-- Connections are accepted exactly while there is none. -/
  oneAtATime : w.process.accepting = w.process.slot.isNone
  accepts : w.process.turn = .server → w.process.ready.server = true → w.process.slot = none
  /-- The socket that is polled is the one of the connection state. -/
  sock : ∀ fd ∈ w.process.slot, fd = w.process.sock
  holds : w.process.turn ≠ .gone .aborted
  /-- Between the turns the buffer holds what is not consumed yet of this connection ... -/
  waiting : w.process.turn.waits = true → w.process.slot ≠ none →
    Stream.Unconsumed ⟨w.process.state, w.heard, w.used⟩
  /-- ... and so does the window while a buffer is worked through. -/
  window : ∀ front mem n, w.process.turn = .window front mem n →
    w.process.slot ≠ none ∧ InWindow w.heard w.used front mem n

theorem sound_start (node : Node) : (start node).Sound where
  oneAtATime := rfl
  accepts := Turn.noConfusion
  sock := fun _ hfd => absurd hfd.symm (Option.some_ne_none _)
  holds := Turn.noConfusion
  waiting := fun _ hslot => absurd rfl hslot
  window := fun _ _ _ => Turn.noConfusion

/-- A step that does not touch the connection. -/
theorem Sound.of_same {w : Watched} (h : w.Sound) {p : Process} (haccepting : p.accepting = w.process.accepting)
    (hslot : p.slot = w.process.slot) (hsock : p.sock = w.process.sock) (hstate : p.state = w.process.state)
    (hwaits : p.turn.waits = true → w.process.turn.waits = true)
    (hturn : p.turn = .server → p.ready.server = true → w.process.slot = none)
    (haborted : p.turn ≠ .gone .aborted) (hwindow : ∀ front mem n, p.turn ≠ .window front mem n) :
    Sound ⟨p, w.heard, w.used⟩ := by
  refine ⟨?_, ?_, ?_, haborted, ?_, fun front mem n hc => absurd hc (hwindow front mem n)⟩
  · rw [haccepting, hslot]
    exact h.oneAtATime
  · intro ht hr
    exact hslot.trans (hturn ht hr)
  · rw [hslot, hsock]
    exact h.sock
  · intro hw hs
    rw [hslot] at hs
    show Stream.Unconsumed ⟨p.state, w.heard, w.used⟩
    rw [hstate]
    exact h.waiting (hwaits hw) hs

/-- A connection that is closed leaves nothing behind. -/
theorem sound_hangUp (w : Watched) (node : Node) (heard : Bytes) (used : Nat) :
    Sound ⟨{ w.process.hangUp with node := node }, heard, used⟩ where
  oneAtATime := rfl
  accepts := Turn.noConfusion
  sock := fun _ hfd => absurd hfd.symm (Option.some_ne_none _)
  holds := Turn.noConfusion
  waiting := fun _ hslot => absurd rfl hslot
  window := fun _ _ _ => Turn.noConfusion

/-- A process that is gone for another reason than the assertion. -/
theorem sound_goes {w : Watched} (h : w.Sound) {ending : Ending} (hending : ending ≠ .aborted) (heard : Bytes)
    (used : Nat) : Sound ⟨w.process.goes ending, heard, used⟩ where
  oneAtATime := h.oneAtATime
  accepts := Turn.noConfusion
  sock := h.sock
  holds := fun hc => hending (Turn.gone.inj hc)
  waiting := fun hc => absurd hc Bool.false_ne_true
  window := fun _ _ _ => Turn.noConfusion

/-- A new connection starts with an empty buffer. -/
theorem sound_accept {w : Watched} (h : w.Sound) (hnone : w.process.slot = none) (result : Accepted) :
    Sound ⟨w.process.accept result, heardAfter w.heard (.accept result),
      usedAfter w.used w.process.turn (w.process.accept result).turn (.accept result)⟩ := by
  cases result with
  | connection fd =>
      exact ⟨rfl, Turn.noConfusion, fun fd' hfd => (Option.some.inj hfd).symm, Turn.noConfusion,
        fun _ _ => setup_unconsumed, fun _ _ _ => Turn.noConfusion⟩
  | again =>
      exact ⟨h.oneAtATime, Turn.noConfusion, h.sock, Turn.noConfusion, fun _ hslot => absurd hnone hslot,
        fun _ _ _ => Turn.noConfusion⟩
  | error => exact sound_goes h (by decide) _ _

theorem sound_recvfrom {w : Watched} (h : w.Sound) (hturn : w.process.turn = .udp) (datagram : Option Bytes) :
    Sound ⟨(w.process.recvfrom datagram).1, w.heard, w.used⟩ := by
  have hwaits : w.process.turn.waits = true := by rw [hturn]; rfl
  have hnot : ∀ front mem n, w.process.turn ≠ .window front mem n := by
    intro front mem n hc
    rw [hturn] at hc
    cases hc
  rcases datagram with _ | _ | ⟨b, bytes⟩
  · exact h.of_same rfl rfl rfl rfl (fun _ => hwaits) Turn.noConfusion Turn.noConfusion
      fun _ _ _ => Turn.noConfusion
  · exact h.of_same rfl rfl rfl rfl (fun _ => hwaits) Turn.noConfusion Turn.noConfusion
      fun _ _ _ => Turn.noConfusion
  · refine h.of_same rfl rfl rfl rfl (fun _ => hwaits) ?_ ?_ hnot
    · intro ht
      cases hturn.symm.trans ht
    · intro ht
      cases hturn.symm.trans ht

/-- What is received stands behind what is left. -/
theorem sound_recv {w : Watched} (h : w.Sound) (hturn : w.process.turn = .connection)
    (hslot : w.process.slot ≠ none) {received : Option Bytes}
    (hroom : ∀ bytes ∈ received, bytes.length ≤ httpMaxSize - w.process.state.stop) :
    Sound ⟨w.process.recv received, heardAfter w.heard (.recv received), w.used⟩ := by
  rcases received with _ | _ | ⟨b, bytes⟩
  · exact sound_goes h (by decide) _ _
  · exact sound_hangUp w w.process.node _ _
  · have hun := h.waiting (by rw [hturn]; rfl) hslot
    have hstate := hun.state_eq
    have hfits := hroom _ rfl
    have hlen : w.process.state.stop = (w.heard.drop w.used).length := hun.number
    have hle : w.used ≤ w.heard.length := hun.consumed_le
    refine ⟨h.oneAtATime, Turn.noConfusion, h.sock, Turn.noConfusion, fun hc => absurd hc Bool.false_ne_true, ?_⟩
    intro front mem n hwindow
    obtain ⟨rfl, rfl, rfl⟩ := Turn.window.inj hwindow
    have hdrop : (w.heard ++ b :: bytes).drop w.used = w.heard.drop w.used ++ b :: bytes :=
      List.drop_append_of_le_length hle
    refine ⟨hslot, ⟨?_, ?_, httpMaxSize - w.process.state.stop - (b :: bytes).length, ?_, ?_⟩⟩
    · simp only [heardAfter, List.length_append]
      omega
    · simp only [heardAfter]
      rw [hdrop, List.length_append, hlen]
    · have hbuffer : w.process.state.buffer = w.heard.drop w.used
          ++ List.replicate (httpMaxSize - w.process.state.stop) 0 := congrArg Connection.buffer hstate
      simp only [heardAfter]
      rw [hdrop, hbuffer, hlen, ← List.length_append, receive_eq]
    · have hstop : w.process.state.stop ≤ httpMaxSize := hun.stop_le
      simp only [List.length_nil, Nat.zero_add]
      omega

/-- One request more is consumed, or the rest waits at the front of the buffer. -/
theorem sound_packet {w : Watched} (h : w.Sound) {front mem : Bytes} {n : Nat}
    (hturn : w.process.turn = .window front mem n) :
    Sound ⟨(w.process.packet front mem n).1, w.heard,
      usedAfter w.used w.process.turn (w.process.packet front mem n).1.turn .packet⟩ := by
  obtain ⟨hslot, hle, hnumber, room, hmem, hsize⟩ := h.window front mem n hturn
  unfold Process.packet
  cases hp : processPacket w.process.node mem n with
  | exits => exact sound_goes h (by decide) _ _
  | diverges => exact sound_goes h (by decide) _ _
  | faults => exact sound_goes h (by decide) _ _
  | returns packet =>
      simp only
      rcases processPacket_of hp with hret | ⟨hret, hbuffer⟩ | ⟨k, hret, hpos, hkn, hdrop⟩
      · rw [if_neg (by omega), if_pos hret]
        exact sound_hangUp w packet.answer.node _ _
      · rw [if_neg (by omega), if_neg (by omega)]
        have hkeep : bufferDiscard (front ++ packet.buffer) front.length n
            = w.heard.drop w.used ++ List.replicate (front.length + room) 0 := by
          have hfront := @bufferDiscard_front (front ++ w.heard.drop w.used) front.length room
            (by rw [List.length_append]; omega)
          rw [List.length_append, Nat.add_sub_cancel_left, List.drop_left, List.append_assoc] at hfront
          rw [hbuffer, hmem, hnumber, hfront]
        refine ⟨h.oneAtATime, Turn.noConfusion, h.sock, Turn.noConfusion, fun _ _ => ?_,
          fun _ _ _ => Turn.noConfusion⟩
        rw [hkeep, hturn]
        exact @Stream.unconsumed_of_buffer _ (w.heard.drop w.used) (front.length + room) (by omega) hle rfl
          hnumber rfl
      · rw [if_pos (by omega), hret, Int.toNat_natCast]
        refine ⟨h.oneAtATime, Turn.noConfusion, h.sock, Turn.noConfusion, fun hc => absurd hc Bool.false_ne_true, ?_⟩
        intro front' mem' n' hwindow
        obtain ⟨rfl, rfl, rfl⟩ := Turn.window.inj hwindow
        have hlen := hnumber
        rw [List.length_drop] at hlen
        have hused : usedAfter w.used w.process.turn
            (.window (front ++ packet.buffer.take k) (packet.buffer.drop k) (n - k)) .packet = w.used + k := by
          rw [hturn]
          show w.used + (n - (n - k)) = w.used + k
          omega
        have hrest : packet.buffer.drop k = w.heard.drop (w.used + k) ++ List.replicate room 0 := by
          rw [hdrop, hmem, List.drop_append_of_le_length (by omega), List.drop_drop]
        have hcount : (packet.buffer.take k).length = k := by
          have hmemlen := congrArg List.length hmem
          rw [List.length_append, List.length_replicate, ← hnumber] at hmemlen
          rw [List.length_take, processPacket_length hp]
          omega
        refine ⟨hslot, ?_⟩
        simp only [hused]
        refine ⟨by omega, ?_, room, hrest, ?_⟩
        · rw [List.length_drop]
          omega
        · rw [List.length_append, hcount]
          omega

/-- **One step of the loop.** -/
theorem step_sound {w w' : Watched} {call : SysCall} (h : w.Sound) (hstep : w.step call = some w') :
    w'.Sound := by
  obtain ⟨result, hresult, rfl⟩ := Option.map_eq_some_iff.mp hstep
  have hstepped := step_stepped hresult
  cases hstepped with
  | poll ready hturn hserver hconnection =>
      refine h.of_same rfl rfl rfl rfl (fun _ => by rw [hturn]; rfl) ?_ Turn.noConfusion
        fun _ _ _ => Turn.noConfusion
      intro _ hready
      have haccepting := h.oneAtATime
      rw [hserver hready] at haccepting
      exact Option.isNone_iff_eq_none.mp haccepting.symm
  | pollError hturn => exact sound_goes h (by decide) _ _
  | accept result hturn hready => exact sound_accept h (h.accepts hturn hready) result
  | passServer hturn | passUdp hturn | passConnection hturn =>
      exact h.of_same rfl rfl rfl rfl (fun _ => by rw [hturn]; rfl) Turn.noConfusion Turn.noConfusion
        fun _ _ _ => Turn.noConfusion
  | recvfrom datagram hturn => exact sound_recvfrom h hturn datagram
  | recv received hturn hslot hroom =>
      exact sound_recv h hturn (by rw [hslot]; exact Option.some_ne_none _) hroom
  | assertion received hturn hsome hslot =>
      obtain ⟨fd, hfd⟩ := Option.ne_none_iff_exists'.mp hsome
      exact absurd (hfd.trans (congrArg some (h.sock fd hfd))) hslot
  | packet front mem n hturn => exact sound_packet h hturn

end Watched

/-- **The loop of a node is sound in every run**: whatever `poll` reports and the sockets give,
there is one connection at a time, the assertion holds, and the buffer has what was received on
this connection and is not consumed. -/
theorem event_loop_sound (node : Node) (calls : List SysCall) {w : Watched}
    (hrun : run Watched.step (Watched.start node) calls = some w) : w.Sound :=
  run_keep (fun _ _ _ h hstep => Watched.step_sound h hstep) calls (Watched.sound_start node) hrun

/-- A client connects, sends one request and the start of the next, and is answered once. -/
def oneConnection : List SysCall :=
  [.poll ⟨true, false, false⟩, .accept (.connection 7), .pass, .pass, .poll ⟨false, true, true⟩, .pass,
    .recvfrom none, .recv (some (ascii "GET / HTTP/1.1\r\n\r\nGET")), .packet, .packet]

theorem event_loop_sound_one_connection : ∃ w,
    run Watched.step (Watched.start (threeNodes.node ⟨0, threeNodes.pos⟩)) oneConnection = some w ∧
      w.heard.drop w.used = ascii "GET" ∧ w.Sound := by
  have hleft : (run Watched.step (Watched.start (threeNodes.node ⟨0, threeNodes.pos⟩)) oneConnection).map
      (fun w => w.heard.drop w.used) = some (ascii "GET") := by decide +kernel
  obtain ⟨w, hw, hleft⟩ := Option.map_eq_some_iff.mp hleft
  exact ⟨w, hw, hleft, event_loop_sound _ _ hw⟩

end ChordDht.Chord
