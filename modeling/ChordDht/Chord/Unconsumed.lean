/-
What is in the connection buffer.

Whatever is received on a connection, in whatever pieces, and whatever the node does with it:
as long as its calls of `handle_connection` return true, the buffer holds the bytes that no
processed request has consumed yet, in order, and zeros behind them.  `parse_request` writes
among the bytes it consumes, one call may consume several requests, and `buffer_discard` moves
the rest to the front over them; `parseRequest_of` is all that is used of a parse.

A call that does damage to the memory of the node goes wrong, and there is no relying on the
buffer any more.  `connection_unconsumed_iff` is about the runs that come upon no such call, which
are those whose requests are harmless.

The ghost state beside the connection is what was received and how much of it is consumed.
The node is a parameter of every call, since what comes in elsewhere may change it in between.
-/
import ChordDht.Chord.Damage
import ChordDht.Chord.Segments

namespace ChordDht.Chord

open Trace

/-- How many bytes the requests of a call consumed. -/
def consumedBy (packets : List Packet) : Nat := (packets.map fun packet => packet.ret.toNat).sum

/-- A connection, all that was received on it, and how much of that is consumed. -/
structure Stream where
  state : Connection
  received : Bytes
  consumed : Nat
  deriving DecidableEq, Repr

def Stream.setup : Stream := ⟨connectionSetup, [], 0⟩

/-- A call of `handle_connection` that returns true: `recv` puts the segment into the free part
of the buffer. -/
def Stream.step (s : Stream) (call : Node × Bytes) : Option Stream :=
  if call.2.length ≤ httpMaxSize - s.state.stop then
    match handleConnection call.1 s.state call.2 with
    | .returns ⟨true, state, _, packets⟩ =>
        some ⟨state, s.received ++ call.2, s.consumed + consumedBy packets⟩
    | _ => none
  else none

/-- The buffer holds what was received and is not consumed, and zeros. -/
structure Stream.Unconsumed (s : Stream) : Prop where
  size : s.state.buffer.length = httpMaxSize
  stop_le : s.state.stop ≤ httpMaxSize
  consumed_le : s.consumed ≤ s.received.length
  number : s.state.stop = (s.received.drop s.consumed).length
  front : s.state.buffer.take s.state.stop = s.received.drop s.consumed
  zeros : ∀ b ∈ s.state.buffer.drop s.state.stop, b = 0

theorem Stream.Unconsumed.state_eq {s : Stream} (h : s.Unconsumed) :
    s.state = ⟨s.received.drop s.consumed ++ List.replicate (httpMaxSize - s.state.stop) 0,
      (s.received.drop s.consumed).length⟩ := by
  have hback : s.state.buffer.drop s.state.stop = List.replicate (httpMaxSize - s.state.stop) 0 :=
    List.eq_replicate_iff.mpr ⟨by rw [List.length_drop, h.size], h.zeros⟩
  rw [← h.number, ← h.front, ← hback, List.take_append_drop]

/-- A buffer of that form is as it should be. -/
theorem Stream.unconsumed_of_buffer {s : Stream} {text : Bytes} {room : Nat} (hsize : text.length + room = httpMaxSize)
    (hconsumed : s.consumed ≤ s.received.length) (htext : s.received.drop s.consumed = text)
    (hstop : s.state.stop = text.length) (hbuffer : s.state.buffer = text ++ List.replicate room 0) :
    s.Unconsumed where
  size := by rw [hbuffer, List.length_append, List.length_replicate, hsize]
  stop_le := by omega
  consumed_le := hconsumed
  number := by rw [hstop, htext]
  front := by rw [hbuffer, hstop, htext, List.take_left]
  zeros := by
    rw [hbuffer, hstop, List.drop_left]
    exact fun b => List.eq_of_mem_replicate

theorem setup_unconsumed : Stream.setup.Unconsumed :=
  Stream.unconsumed_of_buffer (Nat.zero_add _) (Nat.le_refl 0) rfl rfl rfl

/-! ### One pass over the buffer -/

/-- A processed packet closes the connection, waits and leaves the memory as it is, or consumes
received bytes and leaves what stands behind them. -/
theorem processPacket_of {node : Node} {mem : Bytes} {n : Nat} {packet : Packet}
    (h : processPacket node mem n = .returns packet) :
    packet.ret = -1 ∨ (packet.ret = 0 ∧ packet.buffer = mem) ∨
      ∃ k : Nat, packet.ret = k ∧ 0 < k ∧ k ≤ n ∧ packet.buffer.drop k = mem.drop k := by
  rw [processPacket, Outcome.bind_eq_returns] at h
  obtain ⟨parse, hparse, h⟩ := h
  cases parseRequest_of hparse with
  | untouched hret hbuffer =>
      rw [if_neg (by omega)] at h
      by_cases hbad : parse.ret = -1
      · rw [if_pos hbad] at h
        rw [← Outcome.returns.inj h]
        exact Or.inl rfl
      · rw [if_neg hbad] at h
        rw [← Outcome.returns.inj h]
        exact Or.inr (Or.inl ⟨hret.resolve_right hbad, hbuffer⟩)
  | consumed k hret hpos hle _ hdrop =>
      rw [if_pos (by omega), Outcome.bind_eq_returns] at h
      obtain ⟨answer, -, h⟩ := h
      rw [← Outcome.returns.inj h]
      by_cases hcloses : closesAfter parse.request = true
      · exact Or.inl (by simp only [hcloses, if_true])
      · exact Or.inr (Or.inr ⟨k, by simp only [if_neg hcloses, hret], hpos, hle, hdrop⟩)

/-- What a pass leaves: it stops behind what it consumed, and unless it closes the connection
the memory from there on is as it was. -/
structure Window.Left (w : Window) (mem : Bytes) (start n : Nat) : Prop where
  start_eq : w.start = start + consumedBy w.packets
  le : consumedBy w.packets ≤ n
  mem_eq : w.ret ≠ -1 → w.mem = mem.drop (consumedBy w.packets)

theorem consumedBy_cons (packet : Packet) (packets : List Packet) :
    consumedBy (packet :: packets) = packet.ret.toNat + consumedBy packets := by
  rw [consumedBy, List.map_cons, List.sum_cons, ← consumedBy]

/-- A request in front of what the rest of the pass consumed. -/
theorem Window.Left.cons {rest : Window} {packet : Packet} {mem : Bytes} {start n k : Nat}
    (h : rest.Left (mem.drop k) (start + k) (n - k)) (hret : packet.ret = k) (hle : k ≤ n) :
    Window.Left { rest with packets := packet :: rest.packets } mem start n := by
  have hsum : consumedBy (packet :: rest.packets) = k + consumedBy rest.packets := by
    rw [consumedBy_cons, hret, Int.toNat_natCast]
  refine ⟨?_, ?_, ?_⟩
  · show rest.start = start + consumedBy (packet :: rest.packets)
    rw [h.start_eq, hsum, Nat.add_assoc]
  · show consumedBy (packet :: rest.packets) ≤ n
    have hle' := h.le
    omega
  · intro hopen
    show rest.mem = mem.drop (consumedBy (packet :: rest.packets))
    rw [h.mem_eq hopen, List.drop_drop, hsum]

/-- The packet that ends the pass consumes nothing. -/
theorem Window.left_last {node : Node} {packet : Packet} {mem : Bytes} {start n : Nat} (hret : packet.ret ≤ 0)
    (hmem : packet.ret ≠ -1 → packet.buffer = mem) :
    Window.Left ⟨packet.ret, node, start, packet.buffer, [packet]⟩ mem start n := by
  have hnone : consumedBy [packet] = 0 := by
    rw [consumedBy_cons, Int.toNat_of_nonpos hret]
    rfl
  refine ⟨?_, ?_, ?_⟩
  · show start = start + consumedBy [packet]
    rw [hnone, Nat.add_zero]
  · show consumedBy [packet] ≤ n
    omega
  · intro hopen
    show packet.buffer = mem.drop (consumedBy [packet])
    rw [hnone, List.drop_zero, hmem hopen]

theorem processWindow_left : ∀ (fuel : Nat) {node : Node} {mem : Bytes} {start n : Nat} {w : Window},
    processWindow fuel node mem start n = .returns w → w.Left mem start n := by
  intro fuel
  induction fuel with
  | zero =>
      intro node mem start n w h
      cases h
  | succ fuel ih =>
      intro node mem start n w h
      rw [processWindow, Outcome.bind_eq_returns] at h
      obtain ⟨packet, hpacket, h⟩ := h
      rcases processPacket_of hpacket with hclosed | ⟨hwait, hsame⟩ | ⟨k, hret, hpos, hle, hdrop⟩
      · rw [if_neg (by omega)] at h
        rw [← Outcome.returns.inj h]
        exact Window.left_last (by omega) fun hopen => absurd hclosed hopen
      · rw [if_neg (by omega)] at h
        rw [← Outcome.returns.inj h]
        exact Window.left_last (by omega) fun _ => hsame
      · rw [if_pos (by omega), Outcome.bind_eq_returns] at h
        obtain ⟨rest, hrest, h⟩ := h
        rw [hret, Int.toNat_natCast, hdrop] at hrest
        rw [← Outcome.returns.inj h]
        exact (ih hrest).cons hret hle

/-- The loop makes progress: with more passes than there are bytes it never runs out of them. -/
theorem processWindow_fuel : ∀ (fuel fuel' : Nat) (node : Node) (mem : Bytes) (start : Nat) {n : Nat},
    n < fuel → n < fuel' → processWindow fuel node mem start n = processWindow fuel' node mem start n := by
  intro fuel
  induction fuel with
  | zero =>
      intro fuel' node mem start n hfuel
      omega
  | succ fuel ih =>
      intro fuel' node mem start n hfuel hfuel'
      cases fuel' with
      | zero => omega
      | succ fuel' =>
          rw [processWindow, processWindow]
          cases hpacket : processPacket node mem n with
          | returns packet =>
              simp only [Outcome.returns_bind]
              by_cases hpos : 0 < packet.ret
              · rw [if_pos hpos, if_pos hpos]
                rcases processPacket_of hpacket with hclosed | ⟨hwait, -⟩ | ⟨k, hret, hk, hle, -⟩
                · omega
                · omega
                · rw [hret, Int.toNat_natCast, ih fuel' _ _ _ (by omega) (by omega)]
              · rw [if_neg hpos, if_neg hpos]
          | diverges => rfl
          | exits => rfl
          | faults => rfl

/-! ### One call, and every run of calls -/

/-- What `recv` delivers stands behind what was there. -/
theorem receive_eq {text segment : Bytes} {room : Nat} :
    (text ++ List.replicate room 0).take text.length ++ segment
        ++ (text ++ List.replicate room 0).drop (text ++ segment).length
      = text ++ segment ++ List.replicate (room - segment.length) 0 := by
  rw [List.take_left, List.length_append, ← List.drop_drop, List.drop_left, List.drop_replicate]

/-- A call that returns true drops what it consumed and keeps the rest in front of zeros. -/
theorem handleConnection_keeps {node node' : Node} {text segment : Bytes} {room : Nat} {state : Connection}
    {packets : List Packet} (h : handleConnection node ⟨text ++ List.replicate room 0, text.length⟩ segment
      = .returns ⟨true, state, node', packets⟩) :
    consumedBy packets ≤ (text ++ segment).length ∧
      state.stop = (text ++ segment).length - consumedBy packets ∧
      state.buffer = (text ++ segment).drop (consumedBy packets)
        ++ List.replicate (consumedBy packets + (room - segment.length)) 0 := by
  unfold handleConnection at h
  by_cases hend : segment = []
  · rw [if_pos hend] at h
    cases h
  rw [if_neg hend] at h
  simp only [← List.length_append, receive_eq] at h
  obtain ⟨w, hw, h⟩ := Outcome.bind_eq_returns.mp h
  by_cases hclosed : w.ret = -1
  · rw [if_pos hclosed] at h
    cases h
  rw [if_neg hclosed] at h
  have hleft := processWindow_left _ hw
  have hstart := hleft.start_eq
  rw [Nat.zero_add] at hstart
  cases h
  refine ⟨hleft.le, by rw [hstart], ?_⟩
  rw [hleft.mem_eq hclosed, hstart, List.take_append_drop]
  exact bufferDiscard_front hleft.le

theorem Stream.step_eq_some {s s' : Stream} {call : Node × Bytes} (h : s.step call = some s') :
    call.2.length ≤ httpMaxSize - s.state.stop ∧ ∃ state node packets,
      handleConnection call.1 s.state call.2 = .returns ⟨true, state, node, packets⟩ ∧
      s' = ⟨state, s.received ++ call.2, s.consumed + consumedBy packets⟩ := by
  unfold Stream.step at h
  by_cases hfits : call.2.length ≤ httpMaxSize - s.state.stop
  · rw [if_pos hfits] at h
    split at h
    · next state node packets hcall => exact ⟨hfits, state, node, packets, hcall, (Option.some.inj h).symm⟩
    · cases h
  · rw [if_neg hfits] at h
    cases h

theorem Stream.step_of_call {s : Stream} {node node' : Node} {segment : Bytes} {state : Connection}
    {packets : List Packet} (hfits : segment.length ≤ httpMaxSize - s.state.stop)
    (hcall : handleConnection node s.state segment = .returns ⟨true, state, node', packets⟩) :
    s.step (node, segment) = some ⟨state, s.received ++ segment, s.consumed + consumedBy packets⟩ := by
  rw [Stream.step, if_pos hfits, hcall]

theorem step_unconsumed (s : Stream) (call : Node × Bytes) (s' : Stream) (h : s.Unconsumed)
    (hstep : s.step call = some s') : s'.Unconsumed := by
  obtain ⟨hfits, state, node, packets, hcall, rfl⟩ := Stream.step_eq_some hstep
  have hstop_le := h.stop_le
  have hnumber := h.number
  have hconsumed := h.consumed_le
  rw [h.state_eq] at hcall
  obtain ⟨hle, hstop, hbuffer⟩ := handleConnection_keeps hcall
  have hdrop : (s.received ++ call.2).drop (s.consumed + consumedBy packets)
      = (s.received.drop s.consumed ++ call.2).drop (consumedBy packets) := by
    rw [← List.drop_drop, List.drop_append_of_le_length hconsumed]
  rw [List.length_append, List.length_drop] at hle
  refine Stream.unconsumed_of_buffer ?_ ?_ hdrop ?_ hbuffer
  · rw [List.length_drop, List.length_append, List.length_drop]
    rw [List.length_drop] at hnumber
    omega
  · show s.consumed + consumedBy packets ≤ (s.received ++ call.2).length
    rw [List.length_append]
    omega
  · rw [List.length_drop]
    exact hstop

/-- **A call does damage** exactly if the bytes in front do. -/
theorem handleConnection_faults_iff {node : Node} (hfree : node.resources.heap.badFree = false)
    {text segment : Bytes} (hne : segment ≠ []) (room : Nat) :
    handleConnection node ⟨text ++ List.replicate room 0, text.length⟩ segment = .faults ↔
      Harmed (room - segment.length) node (text ++ segment) := by
  unfold handleConnection
  rw [if_neg hne]
  simp only [← List.length_append, receive_eq]
  rw [← processWindow_faults_iff hfree (Nat.lt_succ_self _) 0, Outcome.bind_eq_faults]
  refine or_iff_left ?_
  rintro ⟨w, -, hc⟩
  split at hc <;> cases hc

/-- A buffer that is one whole request is consumed whole. -/
theorem handleConnection_one {text segment payload : Bytes} {r : RequestText} {room : Nat} (hne : segment ≠ [])
    (h : Front (text ++ segment) r payload payload.length) {node : Node} {answer : Answer}
    (hanswer : node.answer (r.reading payload (room - segment.length) payload.length) = .returns answer)
    (hopen : closesAfter (r.reading payload (room - segment.length) payload.length) = false) :
    ∃ state packets, handleConnection node ⟨text ++ List.replicate room 0, text.length⟩ segment
        = .returns ⟨true, state, answer.node, packets⟩ ∧ consumedBy packets = (text ++ segment).length := by
  have hpos : 0 < (text ++ segment).length := List.length_pos_iff.mpr (by simp [hne])
  obtain ⟨w, hw, hret, hnode, hstart⟩ := processWindow_one h hanswer hopen ((text ++ segment).length - 1) 0
  have hfuel : (text ++ segment).length - 1 + 2 = (text ++ segment).length + 1 := by omega
  rw [hfuel] at hw
  have hclosed : ¬ w.ret = -1 := by
    rw [hret]
    decide
  have hleft := (processWindow_left _ hw).start_eq
  unfold handleConnection
  rw [if_neg hne]
  simp only [← List.length_append, receive_eq]
  rw [← received, hw, Outcome.returns_bind, if_neg hclosed, hnode, Outcome.pure_eq]
  refine ⟨_, w.packets, rfl, ?_⟩
  omega

/-- The call does no damage to the memory of the node. -/
def Stream.NoFault (s : Stream) (call : Node × Bytes) : Prop :=
  call.2.length ≤ httpMaxSize - s.state.stop → handleConnection call.1 s.state call.2 ≠ .faults

instance (s : Stream) (call : Node × Bytes) : Decidable (s.NoFault call) := by
  unfold Stream.NoFault; infer_instance

/-- Nothing that is in front of the bytes that are not consumed, with the segment behind them, does
damage. -/
def Stream.Harmless (s : Stream) (call : Node × Bytes) : Prop :=
  let text := s.received.drop s.consumed ++ call.2
  call.2 ≠ [] → text.length ≤ httpMaxSize → ¬ Harmed (httpMaxSize - text.length) call.1 text

theorem Stream.Unconsumed.noFault_iff {s : Stream} (h : s.Unconsumed) {call : Node × Bytes}
    (hfree : call.1.resources.heap.badFree = false) : s.NoFault call ↔ s.Harmless call := by
  have hstop_le := h.stop_le
  have hnumber := h.number
  unfold Stream.NoFault Stream.Harmless
  by_cases hne : call.2 = []
  · refine iff_of_true (fun _ => ?_) fun hc => absurd hne hc
    rw [handleConnection, if_pos hne]
    intro hc
    cases hc
  · have hroom : httpMaxSize - s.state.stop - call.2.length
        = httpMaxSize - (s.received.drop s.consumed ++ call.2).length := by
      rw [List.length_append, ← hnumber]
      omega
    have hfits : call.2.length ≤ httpMaxSize - s.state.stop
        ↔ (s.received.drop s.consumed ++ call.2).length ≤ httpMaxSize := by
      rw [List.length_append, ← hnumber]
      omega
    have hcall := @handleConnection_faults_iff _ hfree (s.received.drop s.consumed) _ hne (httpMaxSize - s.state.stop)
    rw [← h.state_eq, hroom] at hcall
    rw [hfits, Ne, hcall]
    exact (imp_iff_right hne).symm

/-- **The connection buffer holds exactly the unconsumed bytes**, and nothing does damage, after
`connection_setup` and after every call of `handle_connection` that returns true, exactly if none
of the requests in front of the buffer does. -/
theorem connection_unconsumed_iff (calls : List (Node × Bytes))
    (hfree : ∀ call ∈ calls, call.1.resources.heap.badFree = false) :
    Along Stream.step Stream.NoFault Stream.setup calls ∧
        Throughout Stream.step Stream.Unconsumed Stream.setup calls ↔
      Along Stream.step Stream.Harmless Stream.setup calls := by
  have hthroughout : Throughout Stream.step Stream.Unconsumed Stream.setup calls :=
    throughout_keep step_unconsumed calls setup_unconsumed
  have hkeep : ∀ s call s', Stream.Unconsumed s → s.Harmless call → s.step call = some s' → s'.Unconsumed :=
    fun s call s' hs _ hstep => step_unconsumed s call s' hs hstep
  rw [and_iff_left hthroughout]
  exact along_congr_of_mem hkeep calls (fun s call hcall hs => hs.noFault_iff (hfree call hcall)) setup_unconsumed

/-- Two requests and five bytes of a third, cut inside the second. -/
def cutInside : List (Node × Bytes) :=
  [(loneNode, plainGet.wire ++ plainGet.wire.take 5), (loneNode, plainGet.wire.drop 5 ++ plainGet.wire.take 5)]

theorem connection_unconsumed_cut :
    Along Stream.step Stream.Harmless Stream.setup cutInside ∧
      (run Stream.step Stream.setup cutInside).map (fun s => (s.received.length, s.consumed, s.state.stop))
        = some (43, 38, 5) :=
  ⟨(connection_unconsumed_iff cutInside (by decide +kernel)).mp
    ⟨by decide +kernel, throughout_keep step_unconsumed cutInside setup_unconsumed⟩, by decide +kernel⟩

/-- An upload that fills the buffer is stored, and a GET of it on the same connection overruns the
reply. -/
theorem look_up_overruns : ∃ state node packets,
    handleConnection loneNode connectionSetup (uploadOf 8152).wire = .returns ⟨true, state, node, packets⟩ ∧
      node.resources.heap.badFree = false ∧
      ¬ Along Stream.step Stream.NoFault Stream.setup [(loneNode, (uploadOf 8152).wire), (node, lookUp.wire)] := by
  have hlength : (uploadOf 8152).wire.length = httpMaxSize := uploadOf_length
  let put : Request := (uploadOf 8152).reading (uploadOf 8152).payload (httpMaxSize - (uploadOf 8152).wire.length)
    (uploadOf 8152).payload.length
  have hharmless : put.Harmless loneNode.resources := by decide +kernel
  obtain ⟨⟨reply, table, hreply, hfree⟩, -⟩ :=
    (@sendReply_up loneNode.resources put rfl).resolve_right fun hdown => hdown.2 hharmless
  have hsetup : connectionSetup = ⟨[] ++ List.replicate httpMaxSize 0, ([] : Bytes).length⟩ := by
    rw [connectionSetup, List.nil_append, List.length_nil]
  have hfull : (uploadOf 8152).wire ≠ [] := List.ne_nil_of_length_pos (by rw [hlength]; decide)
  have hfront : Front ([] ++ (uploadOf 8152).wire) (uploadOf 8152) (uploadOf 8152).payload
      (uploadOf 8152).payload.length := by
    rw [List.nil_append]
    exact uploadOf_serialisable.front
  obtain ⟨state, packets, hcall, hall⟩ := handleConnection_one hfull hfront (answer_local rfl hreply)
    (by decide +kernel)
  rw [← hsetup] at hcall
  refine ⟨state, _, packets, hcall, hfree, ?_⟩
  have hroom : (uploadOf 8152).wire.length ≤ httpMaxSize - Stream.setup.state.stop := by
    rw [show Stream.setup.state.stop = 0 from rfl, Nat.sub_zero, hlength]
  have hstep := Stream.step_of_call hroom hcall
  have hs := step_unconsumed _ _ _ setup_unconsumed hstep
  -- the value is too long for the reply
  have htarget : put.target = ascii "/a" := rfl
  obtain ⟨block, hget⟩ := sendReply_put_get hreply rfl (by decide +kernel)
  rw [htarget] at hget
  intro halong
  have hne : lookUp.wire ≠ [] := by decide
  have hfits : lookUp.wire.length ≤ httpMaxSize := by decide +kernel
  have hlong : maxValueLength < ((uploadOf 8152).payload.length : Int).toNat := by
    rw [Int.toNat_natCast, uploadOf, List.length_replicate]
    decide
  have hharmless' := (hs.noFault_iff hfree).mp (halong.2 _ hstep).1 hne
  have hnothing : (Stream.setup.received ++ (uploadOf 8152).wire).drop (Stream.setup.consumed + consumedBy packets)
      = [] := by
    rw [show Stream.setup.received = [] from rfl, hall]
    exact List.drop_eq_nil_of_le (Nat.le_add_left _ _)
  rw [hnothing, List.nil_append] at hharmless'
  refine hharmless' hfits (.here lookUp_serialisable.front ?_)
  intro hup
  have hlook : (lookUp.reading lookUp.payload (httpMaxSize - lookUp.wire.length) lookUp.payload.length).target
      = ascii "/a" := rfl
  have hshort := (hup rfl).get rfl
  rw [hlook] at hshort
  exact absurd (hshort _ hget) (Nat.not_le_of_lt hlong)

end ChordDht.Chord
