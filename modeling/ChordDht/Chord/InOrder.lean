/-
A client's requests on a running node.

The results about a connection so far are about `handle_connection` alone.  A running node is
also sent datagrams, at any time between two calls of `recv`, and each of them may change how
the next request is answered.  `connection_in_order` says what a client can rely on all the
same: its requests are answered one by one in the order they were sent, each by the node as
it is then, none is left out and none is answered twice; and while the node waits, all that it
has received in full are answered.
-/
import ChordDht.Chord.EventLoop

namespace ChordDht.Chord

open Outcome Trace

/-- The request that this step answers, with the node that answers it. -/
def Process.exchange (p : Process) : SysCall → Option (Node × Exchange)
  | .packet =>
      match p.turn with
      | .window _ mem n =>
          match processPacket p.node mem n with
          | .returns packet => if packet.answer.replies.isEmpty then none else some (p.node, packet.exchange)
          | _ => none
      | _ => none
  | _ => none

/-- A process, and the exchanges on the connection it has open. -/
structure Attended where
  watched : Watched
  served : List (Node × Exchange)

namespace Attended

def start (node : Node) : Attended := ⟨Watched.start node, []⟩

def servedAfter (served : List (Node × Exchange)) (exchange : Option (Node × Exchange)) :
    SysCall → List (Node × Exchange)
  | .accept (.connection _) => []
  | _ => served ++ exchange.toList

def step (s : Attended) (call : SysCall) : Option Attended :=
  (s.watched.step call).map fun w => ⟨w, servedAfter s.served (s.watched.process.exchange call) call⟩

end Attended

/-- This is the exchange of the request, at the node as it was. -/
def Answers (r : ClientRequest) (served : Node × Exchange) : Prop :=
  ∃ answer, served.1.answer (r.parsed []) = .returns answer ∧ served.2 = r.exchange answer

/-- The client has sent `rs`, or is about to; `done` are answered and `rest` are to come. -/
structure InOrder (s : Attended) (rs done rest : List ClientRequest) : Prop where
  split : rs = done ++ rest
  reached : done <+: reached rs
  answered : List.Forall₂ Answers done s.served
  used : s.watched.process.slot ≠ none → s.watched.used = (stream done).length
  stays : s.watched.process.slot ≠ none → ∀ r ∈ done, r.closes = false
  waiting : s.watched.process.slot ≠ none → s.watched.process.turn.waits = true →
    Waiting rest (s.watched.heard.length - s.watched.used)

/-! ### One packet -/

/-- What the return value of `process_packet` makes of the connection. -/
theorem packet_returns {p : Process} (front : Bytes) {mem : Bytes} {n : Nat} {packet : Packet}
    (h : processPacket p.node mem n = .returns packet) :
    (packet.ret = 0 → (p.packet front mem n).1.slot = p.slot ∧ (p.packet front mem n).1.turn = .poll) ∧
      (packet.ret = -1 → (p.packet front mem n).1.slot = none) ∧
      (0 < packet.ret → (p.packet front mem n).1.slot = p.slot ∧
        ∃ front' mem', (p.packet front mem n).1.turn = .window front' mem' (n - packet.ret.toNat)) := by
  unfold Process.packet
  rw [h]
  simp only
  refine ⟨?_, ?_, ?_⟩
  · intro hret
    rw [if_neg (by omega), if_neg (by omega)]
    exact ⟨rfl, rfl⟩
  · intro hret
    rw [if_neg (by omega), if_pos hret]
    rfl
  · intro hret
    rw [if_pos hret]
    exact ⟨rfl, _, _, rfl⟩

/-- A packet that does not return ends the process, with the connection as it is. -/
theorem packet_stops {p : Process} (front : Bytes) {mem : Bytes} {n : Nat}
    (h : ∀ packet, processPacket p.node mem n ≠ .returns packet) :
    (p.packet front mem n).1.slot = p.slot ∧ ∃ ending, (p.packet front mem n).1.turn = .gone ending := by
  unfold Process.packet
  cases hp : processPacket p.node mem n with
  | returns packet => exact absurd hp (h packet)
  | diverges | exits | faults => exact ⟨rfl, _, rfl⟩

/-- A request that is there in full is answered, unless that ends the process. -/
theorem whole_answered (node : Node) {r : ClientRequest} (hr : r.Readable) (rest : Bytes) {n : Nat}
    (hn : r.wire.length ≤ n) :
    (∀ packet, processPacket node (r.wire ++ rest) n ≠ .returns packet) ∨
      ∃ packet, processPacket node (r.wire ++ rest) n = .returns packet ∧
        packet.answer.replies.isEmpty = false ∧ Answers r (node, packet.exchange) ∧
        packet.ret = if r.closes then -1 else (r.wire.length : Int) := by
  rw [processPacket_whole node r rest hn hr.headers (hr.measured rest)]
  cases hanswer : node.answer (r.parsed []) with
  | returns answer =>
      obtain ⟨reply, hreply⟩ := answer_one hanswer
      exact Or.inr ⟨_, rfl, by simp [hreply], ⟨answer, hanswer, exchange_whole r _ _ _ _⟩, rfl⟩
  | diverges | exits | faults =>
      refine Or.inl fun packet hc => ?_
      cases hc

/-- **What a packet finds** at the start of the requests to come: it does not return, or they are
not there in full, or it answers the first of them. -/
theorem packet_finds (node : Node) {rest : List ClientRequest} {n : Nat} (hn : n ≤ (stream rest).length)
    (room : Nat) (hreadable : ∀ r ∈ rest, r.Readable) :
    (∀ packet, processPacket node ((stream rest).take n ++ List.replicate room 0) n ≠ .returns packet) ∨
      (∃ packet, processPacket node ((stream rest).take n ++ List.replicate room 0) n = .returns packet ∧
        packet.answer.replies.isEmpty = true ∧ packet.ret = 0 ∧ Waiting rest n) ∨
      ∃ r others packet, rest = r :: others ∧ r.wire.length ≤ n ∧
        processPacket node ((stream rest).take n ++ List.replicate room 0) n = .returns packet ∧
        packet.answer.replies.isEmpty = false ∧ Answers r (node, packet.exchange) ∧
        packet.ret = if r.closes then -1 else (r.wire.length : Int) := by
  cases rest with
  | nil =>
      have hzero : n = 0 := Nat.le_zero.mp hn
      rw [hzero]
      exact Or.inr (Or.inl ⟨_, processPacket_empty node _, rfl, rfl, fun r hr => by cases hr⟩)
  | cons r others =>
      have hr := hreadable r List.mem_cons_self
      by_cases hpart : n < r.wire.length
      · have htake : (stream (r :: others)).take n = r.wire.take n := by
          rw [stream_cons, List.take_append_of_le_length (Nat.le_of_lt hpart)]
        have htail : (List.replicate room (0 : UInt8)).headD 0 ≠ 10 := by
          cases room with
          | zero => decide
          | succ room => exact (by decide : (0 : UInt8) ≠ 10)
        obtain ⟨hwait, hstuck⟩ := processPacket_partial node r hpart htail hr.headers
          (hr.awaitsMore hpart _)
        rw [htake]
        by_cases htorn : Torn r.head n
        · refine Or.inl fun packet hc => ?_
          rw [hstuck htorn] at hc
          cases hc
        · obtain ⟨request, hpacket⟩ := hwait htorn
          refine Or.inr (Or.inl ⟨_, hpacket, rfl, rfl, ?_⟩)
          intro r' hr'
          rwa [← Option.some.inj hr']
      · have htake : (stream (r :: others)).take n ++ List.replicate room 0
            = r.wire ++ ((stream others).take (n - r.wire.length) ++ List.replicate room 0) := by
          rw [stream_cons, List.take_append, List.take_of_length_le (Nat.le_of_not_lt hpart), List.append_assoc]
        rw [htake]
        rcases whole_answered node hr ((stream others).take (n - r.wire.length) ++ List.replicate room 0)
          (Nat.le_of_not_lt hpart) with hstop | ⟨packet, hpacket, hsome, hanswers, hret⟩
        · exact Or.inl hstop
        · exact Or.inr (Or.inr ⟨r, others, packet, rfl, Nat.le_of_not_lt hpart, hpacket, hsome, hanswers, hret⟩)

namespace Attended

/-- What stands in the buffer is the start of the requests to come. -/
theorem window_text {w : Watched} {rs done rest : List ClientRequest} {front mem : Bytes} {n : Nat}
    (hwindow : Watched.InWindow w.heard w.used front mem n) (hheard : w.heard <+: stream rs)
    (hsplit : rs = done ++ rest) (hused : w.used = (stream done).length) :
    n ≤ (stream rest).length ∧ ∃ room, mem = (stream rest).take n ++ List.replicate room 0 := by
  obtain ⟨more, hmore⟩ := hheard
  obtain ⟨room, hmem, -⟩ := hwindow.memory
  have hrest : w.heard.drop w.used ++ more = stream rest := by
    rw [← List.drop_append_of_le_length hwindow.used_le, hmore, hsplit, stream_append, hused, List.drop_left]
  have htake : (stream rest).take n = w.heard.drop w.used := by
    rw [← hrest, hwindow.number, List.take_left]
  refine ⟨?_, room, by rw [htake, hmem]⟩
  rw [← hrest, hwindow.number, List.length_append]
  exact Nat.le_add_right _ _

/-- One step more is answered, and the connection stays as it was. -/
theorem reached_snoc {done rest : List ClientRequest} {r : ClientRequest} (hstays : ∀ q ∈ done, q.closes = false) :
    done ++ [r] <+: reached (done ++ r :: rest) := by
  induction done with
  | nil =>
      rw [List.nil_append, List.nil_append, reached]
      exact List.prefix_iff_eq_append.mpr rfl
  | cons q done ih =>
      rw [List.cons_append, List.cons_append, reached, hstays q List.mem_cons_self]
      exact List.prefix_cons_inj q |>.mpr (ih fun q' hq' => hstays q' (List.mem_cons_of_mem _ hq'))

/-- A step that leaves what was heard, used and served. -/
theorem keeps_order {s : Attended} {rs done rest : List ClientRequest} (h : InOrder s rs done rest) {p : Process}
    (hslot : p.slot ≠ none → s.watched.process.slot ≠ none)
    (hwaits : p.slot ≠ none → p.turn.waits = true → s.watched.process.turn.waits = true) :
    InOrder ⟨⟨p, s.watched.heard, s.watched.used⟩, s.served⟩ rs done rest where
  split := h.split
  reached := h.reached
  answered := h.answered
  used := fun hs => h.used (hslot hs)
  stays := fun hs => h.stays (hslot hs)
  waiting := fun hs hw => h.waiting (hslot hs) (hwaits hs hw)

theorem exchange_packet {p : Process} {front mem : Bytes} {n : Nat} (hturn : p.turn = .window front mem n)
    {packet : Packet} (h : processPacket p.node mem n = .returns packet) :
    p.exchange .packet
      = if packet.answer.replies.isEmpty then none else some (p.node, packet.exchange) := by
  simp only [Process.exchange, hturn, h]

theorem exchange_stops {p : Process} {front mem : Bytes} {n : Nat} (hturn : p.turn = .window front mem n)
    (h : ∀ packet, processPacket p.node mem n ≠ .returns packet) : p.exchange .packet = none := by
  unfold Process.exchange
  rw [hturn]
  cases hp : processPacket p.node mem n with
  | returns packet => exact absurd hp (h packet)
  | diverges | exits | faults => simp only [hp]

theorem usedAfter_window {used n n' : Nat} {front mem : Bytes} {before after : Turn}
    (hbefore : before = .window front mem n) {front' mem' : Bytes} (hafter : after = .window front' mem' n') :
    Watched.usedAfter used before after .packet = used + (n - n') := by
  rw [hbefore, hafter]
  rfl

theorem usedAfter_same {used : Nat} {before after : Turn} (hafter : ∀ front mem n, after ≠ .window front mem n) :
    Watched.usedAfter used before after .packet = used := by
  cases after with
  | window front mem n => exact absurd rfl (hafter front mem n)
  | poll | server | udp | connection | gone => cases before <;> rfl

/-- The state after a packet. -/
def afterPacket (s : Attended) (front mem : Bytes) (n : Nat) : Attended :=
  ⟨⟨(s.watched.process.packet front mem n).1, s.watched.heard,
      Watched.usedAfter s.watched.used s.watched.process.turn (s.watched.process.packet front mem n).1.turn .packet⟩,
    s.served ++ (s.watched.process.exchange .packet).toList⟩

/-- **One packet** answers the next request, if it is there in full. -/
theorem packet_in_order {s : Attended} {rs done rest : List ClientRequest} (h : InOrder s rs done rest)
    (hsound : s.watched.Sound) {front mem : Bytes} {n : Nat} (hturn : s.watched.process.turn = .window front mem n)
    (hheard : s.watched.heard <+: stream rs) (hreadable : ∀ r ∈ rs, r.Readable) :
    ∃ done rest, InOrder (s.afterPacket front mem n) rs done rest := by
  obtain ⟨hopen, hwindow⟩ := hsound.window front mem n hturn
  have hused := h.used hopen
  obtain ⟨hn, room, rfl⟩ := window_text hwindow hheard h.split hused
  have hleft : s.watched.heard.length - s.watched.used = n := by
    rw [hwindow.number, List.length_drop]
  have hrest : ∀ r ∈ rest, r.Readable := by
    intro r hr
    rw [h.split] at hreadable
    exact hreadable r (List.mem_append_right _ hr)
  unfold afterPacket
  rcases packet_finds s.watched.process.node hn room hrest with
    hstop | ⟨packet, hpacket, hnone, hret, hwait⟩ | ⟨r, others, packet, rfl, hle, hpacket, hsome, hanswers, hret⟩
  · -- the process is gone
    obtain ⟨hslot, ending, hgone⟩ := packet_stops front hstop
    rw [exchange_stops hturn hstop, Option.toList_none, List.append_nil, usedAfter_same (by
      rw [hgone]
      exact fun _ _ _ hc => Turn.noConfusion hc)]
    refine ⟨done, rest, keeps_order h (fun hs => hslot ▸ hs) fun _ hw => ?_⟩
    rw [hgone] at hw
    cases hw
  · -- nothing is answered, and the process waits for more
    obtain ⟨hslot, hpoll⟩ := (packet_returns front hpacket).1 hret
    rw [exchange_packet hturn hpacket, if_pos hnone, Option.toList_none, List.append_nil, usedAfter_same (by
      rw [hpoll]
      exact fun _ _ _ hc => Turn.noConfusion hc)]
    refine ⟨done, rest, h.split, h.reached, h.answered, fun hs => h.used (hslot ▸ hs),
      fun hs => h.stays (hslot ▸ hs), fun _ _ => ?_⟩
    show Waiting rest (s.watched.heard.length - s.watched.used)
    rwa [hleft]
  · have hforall : List.Forall₂ Answers (done ++ [r])
        (s.served ++ [(s.watched.process.node, packet.exchange)]) :=
      List.rel_append h.answered (.cons hanswers .nil)
    have hreached : done ++ [r] <+: reached rs := by
      rw [h.split]
      exact reached_snoc (h.stays hopen)
    have hsplit : rs = done ++ [r] ++ others := by
      rw [h.split, List.append_assoc]
      rfl
    rw [exchange_packet hturn hpacket, if_neg (by rw [hsome]; exact Bool.false_ne_true), Option.toList_some]
    cases hcloses : r.closes with
    | true =>
        -- the last one on this connection
        rw [hcloses, if_pos rfl] at hret
        have hslot := (packet_returns front hpacket).2.1 hret
        exact ⟨done ++ [r], others, hsplit, hreached, hforall, fun hs => absurd hslot hs,
          fun hs => absurd hslot hs, fun hs => absurd hslot hs⟩
    | false =>
        rw [hcloses, if_neg Bool.false_ne_true] at hret
        have hpos := wire_length_pos r
        obtain ⟨hslot, front', mem', hnext⟩ := (packet_returns front hpacket).2.2 (by omega)
        rw [hret, Int.toNat_natCast] at hnext
        rw [usedAfter_window hturn hnext]
        refine ⟨done ++ [r], others, hsplit, hreached, hforall, fun _ => ?_, fun _ q hq => ?_, fun _ hw => ?_⟩
        · show s.watched.used + (n - (n - r.wire.length)) = (stream (done ++ [r])).length
          rw [stream_append, List.length_append, ← hused, stream_cons, List.length_append]
          show _ = s.watched.used + (r.wire.length + 0)
          omega
        · rcases List.mem_append.mp hq with hq | hq
          · exact h.stays hopen q hq
          · rwa [List.mem_singleton.mp hq]
        · rw [show (s.watched.process.packet front _ n).1.turn = _ from hnext] at hw
          cases hw

/-- Whatever readable requests the client is sending, they are answered in order so far. -/
def Orderly (s : Attended) : Prop :=
  ∀ rs, s.watched.heard <+: stream rs → (∀ r ∈ rs, r.Readable) →
    ∃ done rest, InOrder s rs done rest

theorem orderly_start (node : Node) : (start node).Orderly := by
  intro rs _ _
  exact ⟨[], rs, rfl, List.nil_prefix, .nil, fun hs => absurd rfl hs, fun hs => absurd rfl hs,
    fun hs => absurd rfl hs⟩

/-- A step that answers nothing. -/
theorem Orderly.keeps {s : Attended} (h : s.Orderly) {p : Process} {heard : Bytes}
    (hheard : s.watched.heard <+: heard) (hslot : p.slot ≠ none → s.watched.process.slot ≠ none)
    (hwaits : p.slot ≠ none → p.turn.waits = true →
      s.watched.process.turn.waits = true ∧ heard = s.watched.heard) :
    Orderly ⟨⟨p, heard, s.watched.used⟩, s.served ++ []⟩ := by
  intro rs hprefix hreadable
  obtain ⟨done, rest, horder⟩ := h rs (hheard.trans hprefix) hreadable
  rw [List.append_nil]
  refine ⟨done, rest, horder.split, horder.reached, horder.answered, fun hs => horder.used (hslot hs),
    fun hs => horder.stays (hslot hs), fun hs hw => ?_⟩
  obtain ⟨hw, hsame⟩ := hwaits hs hw
  show Waiting rest (heard.length - s.watched.used)
  rw [hsame]
  exact horder.waiting (hslot hs) hw

/-- The connection is new, and nothing was heard on it. -/
theorem orderly_accept (p : Process) : Orderly ⟨⟨p, [], 0⟩, []⟩ := by
  intro rs _ _
  exact ⟨[], rs, rfl, List.nil_prefix, .nil, fun _ => rfl, fun _ r hr => absurd hr List.not_mem_nil,
    fun _ _ r _ => wire_length_pos r⟩

/-- **One step of the loop.** -/
theorem step_orderly {s s' : Attended} {call : SysCall} (hsound : s.watched.Sound) (h : s.Orderly)
    (hstep : s.step call = some s') : s'.Orderly := by
  obtain ⟨w, hw, rfl⟩ := Option.map_eq_some_iff.mp hstep
  obtain ⟨result, hresult, rfl⟩ := Option.map_eq_some_iff.mp hw
  cases step_stepped hresult with
  | poll ready hturn hserver hconnection =>
      exact h.keeps List.prefix_rfl id fun _ _ => ⟨by rw [hturn]; rfl, rfl⟩
  | pollError hturn => exact h.keeps List.prefix_rfl id fun _ hw => absurd hw Bool.false_ne_true
  | accept result hturn hready =>
      rcases result with fd | _ | _
      · exact orderly_accept _
      · exact h.keeps List.prefix_rfl id fun _ _ => ⟨by rw [hturn]; rfl, rfl⟩
      · exact h.keeps List.prefix_rfl id fun _ hw => absurd hw Bool.false_ne_true
  | passServer hturn | passUdp hturn | passConnection hturn =>
      exact h.keeps List.prefix_rfl id fun _ _ => ⟨by rw [hturn]; rfl, rfl⟩
  | recvfrom datagram hturn =>
      rcases datagram with _ | _ | ⟨b, bytes⟩
      · exact h.keeps List.prefix_rfl id fun _ _ => ⟨by rw [hturn]; rfl, rfl⟩
      · exact h.keeps List.prefix_rfl id fun _ _ => ⟨by rw [hturn]; rfl, rfl⟩
      · exact h.keeps List.prefix_rfl id fun _ _ => ⟨by rw [hturn]; rfl, rfl⟩
  | recv received hturn hslot hroom =>
      rcases received with _ | _ | ⟨b, bytes⟩
      · exact h.keeps List.prefix_rfl id fun _ hw => absurd hw Bool.false_ne_true
      · exact h.keeps (List.prefix_append _ _) (fun hs => absurd rfl hs) fun hs => absurd rfl hs
      · exact h.keeps (List.prefix_append _ _) id fun _ hw => absurd hw Bool.false_ne_true
  | assertion received hturn hsome hslot =>
      obtain ⟨fd, hfd⟩ := Option.ne_none_iff_exists'.mp hsome
      exact absurd (hfd.trans (congrArg some (hsound.sock fd hfd))) hslot
  | packet front mem n hturn =>
      intro rs hheard hreadable
      obtain ⟨done, rest, horder⟩ := h rs hheard hreadable
      exact packet_in_order horder hsound hturn hheard hreadable

end Attended

/-- **Requests are answered in order.**  Whatever datagrams come in between and however the
stream is cut: on the open connection the requests of the client are answered one after the
other, up to the first that closes it, each once and by the node as it is then; and while
the node waits, it has answered all that it received in full. -/
theorem connection_in_order (node : Node) (calls : List SysCall) {s : Attended}
    (hrun : run Attended.step (Attended.start node) calls = some s) {rs : List ClientRequest}
    (hheard : s.watched.heard <+: stream rs) (hreadable : ∀ r ∈ rs, r.Readable) :
    ∃ done rest, InOrder s rs done rest := by
  have hkeep : ∀ (s : Attended) (call : SysCall) (s' : Attended), (s.watched.Sound ∧ s.Orderly) →
      s.step call = some s' → (s'.watched.Sound ∧ s'.Orderly) := by
    intro s call s' hs hstep
    obtain ⟨w, hw, hs'⟩ := Option.map_eq_some_iff.mp hstep
    refine ⟨?_, Attended.step_orderly hs.1 hs.2 hstep⟩
    rw [← hs']
    exact Watched.step_sound hs.1 hw
  have hkept := run_keep hkeep calls ⟨Watched.sound_start node, Attended.orderly_start node⟩ hrun
  exact hkept.2 rs hheard hreadable

/-- Two requests, cut in the second; a REPLY for the node comes in between. -/
def replyBetween : List SysCall :=
  [.poll ⟨true, false, false⟩, .accept (.connection 7), .pass, .pass, .poll ⟨false, false, true⟩, .pass, .pass,
    .recv (some (plainGet.wire ++ plainGet.wire.take 5)), .packet, .packet, .poll ⟨false, true, true⟩, .pass,
    .recvfrom (some (threeNodes.replyNaming ⟨2, by decide⟩).bytes), .recvfrom none,
    .recv (some (plainGet.wire.drop 5)), .packet, .packet]

theorem connection_in_order_reply_between : ∃ s,
    run Attended.step (Attended.start (threeNodes.node ⟨0, threeNodes.pos⟩)) replyBetween = some s ∧
      s.served.map (fun served => (served.1.haveReply, served.2.uri)) = [(false, ascii "/a"), (true, ascii "/a")] ∧
      ∃ done rest, InOrder s [plainGet, plainGet] done rest := by
  have hserved : (run Attended.step (Attended.start (threeNodes.node ⟨0, threeNodes.pos⟩)) replyBetween).map
      (fun s => (s.watched.heard, s.served.map fun served => (served.1.haveReply, served.2.uri)))
        = some (stream [plainGet, plainGet], [(false, ascii "/a"), (true, ascii "/a")]) := by
    decide +kernel
  obtain ⟨s, hrun, hs⟩ := Option.map_eq_some_iff.mp hserved
  rw [Prod.mk.injEq] at hs
  have hreadable : plainGet.Readable := ⟨by decide, rfl⟩
  refine ⟨s, hrun, hs.2, connection_in_order _ _ hrun (by rw [hs.1]) ?_⟩
  intro r hr
  rw [show r = plainGet by simpa using hr]
  exact hreadable

end ChordDht.Chord
