/-
The ring as it runs: processes, and the datagrams between them.

In `Chord/Network.lean` a node takes a request or a datagram whole.  Here every node is a
process in the loop of `main`, started from its command line and environment, and the
processes take their steps in any order: one may be in the middle of a client's buffer while
datagrams for it wait, another in `poll`.  `processes_refine` says that this is no different:
what the processes have sent, remembered and stored is what a run of the ring of
`Chord/Network.lean` comes to.  So what holds in every run there holds of the program.
-/
import ChordDht.Chord.EventLoop
import ChordDht.Chord.Launch
import ChordDht.Chord.Lookup
import ChordDht.Chord.OneStore

namespace ChordDht.Chord

open Arc Trace

/-- The processes, the datagrams no one has taken in yet, and all replies in the order they
were sent. -/
structure System (r : Ring) where
  processes : Fin r.size → Process
  flight : List Datagram
  replies : List Reply

/-- What can happen next: a process takes a step, a datagram that is in flight comes in at the
process it is for, something else comes in, or as in `Event`. -/
inductive Move (r : Ring) where
  | act (i : Fin r.size) (call : SysCall)
  | receive (i : Fin r.size) (k : Nat)
  | foreign (i : Fin r.size) (bytes : Bytes)
  | inject (i : Fin r.size) (m : Message)
  | lose (k : Nat)
  | duplicate (k : Nat)

def Move.reliable {r : Ring} : Move r → Bool
  | .lose _ => false
  | .duplicate _ => false
  | _ => true

/-- No LOOKUP and no REPLY: too short, or with other flags. -/
def isForeign (bytes : Bytes) : Bool :=
  match Message.read bytes with
  | none => true
  | some m => m.flags != 0 && m.flags != 1

def SysCall.isDatagram : SysCall → Bool
  | .recvfrom (some _) => true
  | _ => false

namespace System

variable {r : Ring}

/-- A process has taken a step. -/
def after (s : System r) (i : Fin r.size) (flight : List Datagram) (result : Process × Sent) : System r where
  processes := Function.update s.processes i result.1
  flight := flight ++ result.2.datagrams
  replies := s.replies ++ result.2.replies

def step (s : System r) : Move r → Option (System r)
  | .act i call =>
      if call.isDatagram then none else ((s.processes i).step call).map (s.after i s.flight)
  | .receive i k =>
      s.flight[k]?.bind fun d =>
        if Net.receiver r d = some i then
          ((s.processes i).step (.recvfrom (some d.bytes))).map (s.after i (s.flight.eraseIdx k))
        else none
  | .foreign i bytes =>
      if isForeign bytes then ((s.processes i).step (.recvfrom (some bytes))).map (s.after i s.flight)
      else none
  | .inject i m =>
      if m.flags = 0 then some { s with flight := s.flight ++ [⟨r.addr i, r.port i, m.bytes⟩] } else none
  | .lose k => s.flight[k]?.map fun _ => { s with flight := s.flight.eraseIdx k }
  | .duplicate k => s.flight[k]?.map fun d => { s with flight := s.flight ++ [d] }

/-- All nodes have been started with their configuration, and nothing was sent yet. -/
structure Booted (s : System r) : Prop where
  started : ∀ i, ∃ node, launch (r.argv i) (r.env i) = .returns node ∧ s.processes i = Process.start node
  flight : s.flight = []
  replies : s.replies = []

/-- The processes as `launch` leaves them. -/
def boot (r : Ring) : System r := ⟨fun i => Process.start (r.node i), [], []⟩

theorem booted_boot (r : Ring) : (boot r).Booted := ⟨fun i => ⟨r.node i, launch_ring r i, rfl⟩, rfl, rfl⟩

/-- The system stands for these events of the ring. -/
structure Describes (s : System r) (events : List (Event r)) (net : Net r) : Prop where
  reached : run Net.step (Net.start r) events = some net
  nodes : ∀ i, (s.processes i).node = net.nodes i
  flight : s.flight = net.flight.map Flight.dgram
  redirects : redirectsOf s.replies = net.redirects
  served : s.replies.filter Reply.fromTable = ((Net.start r).log events).map Prod.snd

end System

/-! ### What a step of a process is for its node -/

/-- A step of a process leaves the node alone and sends nothing, or is a packet that is
answered, or a datagram that is taken in. -/
inductive Shown (node : Node) : SysCall → Process × Sent → Prop
  | quiet {call : SysCall} {p : Process} (hcall : call.isDatagram = false) (hnode : p.node = node) :
      Shown node call (p, nothing)
  | packet {p : Process} {mem : Bytes} {n : Nat} {packet : Packet}
      (hpacket : processPacket node mem n = .returns packet) (hnode : p.node = packet.answer.node) :
      Shown node .packet (p, ⟨packet.answer.replies, packet.answer.lookups⟩)
  | datagram {p : Process} {bytes : Bytes} (hnode : p.node = (handleDatagram node bytes).1) :
      Shown node (.recvfrom (some bytes)) (p, ⟨[], (handleDatagram node bytes).2⟩)

theorem packet_shown (p : Process) (front mem : Bytes) (n : Nat) : Shown p.node .packet (p.packet front mem n) := by
  unfold Process.packet
  cases hp : processPacket p.node mem n with
  | returns packet =>
      simp only
      split
      · exact .packet hp rfl
      · split
        · exact .packet hp rfl
        · exact .packet hp rfl
  | diverges | exits | faults => exact .quiet rfl rfl

theorem step_shown {p : Process} {call : SysCall} {result : Process × Sent} (h : p.step call = some result) :
    Shown p.node call result := by
  cases step_stepped h with
  | packet front mem n hturn => exact packet_shown p front mem n
  | recvfrom datagram hturn =>
      rcases datagram with _ | _ | ⟨b, bytes⟩
      · exact .quiet rfl rfl
      · exact .datagram rfl
      · exact .datagram rfl
  | accept result hturn hready =>
      rcases result with fd | _ | _
      · exact .quiet rfl rfl
      · exact .quiet rfl rfl
      · exact .quiet rfl rfl
  | recv received hturn hslot hroom =>
      rcases received with _ | _ | ⟨b, bytes⟩
      · exact .quiet rfl rfl
      · exact .quiet rfl rfl
      · exact .quiet rfl rfl
  | poll | pollError | passServer | passUdp | assertion | passConnection => exact .quiet rfl rfl

/-! ### The ring behind the processes -/

/-- A node asks with messages that can be read. -/
theorem delegate_readable (node : Node) (uri : Bytes) (h : UInt16) :
    ∀ d ∈ (node.delegate uri h).lookups, (Message.read d.bytes).isSome = true := by
  intro d hd
  unfold Node.delegate at hd
  split at hd
  · cases hd
  · split at hd
    · cases hd
    · split at hd
      · cases hd
      · unfold sendTo at hd
        split at hd
        · rw [List.mem_singleton.mp hd]
          rfl
        · cases hd

theorem packet_readable {node : Node} {mem : Bytes} {n : Nat} {packet : Packet}
    (h : processPacket node mem n = .returns packet) :
    ∀ d ∈ packet.answer.lookups, (Message.read d.bytes).isSome = true := by
  rcases processPacket_cases h with ⟨parsed, -, -, hanswer⟩ | ⟨-, -, hnone, -⟩
  · rcases answer_cases hanswer with ⟨-, -, -, hnone, -⟩ | ⟨-, hdelegate⟩
    · rw [hnone]
      intro d hd
      cases hd
    · rw [hdelegate]
      exact delegate_readable _ _ _
  · rw [hnone]
    intro d hd
    cases hd

/-- A request is answered once. -/
theorem answer_replies {node : Node} {request : Request} {answer : Answer}
    (h : node.answer request = .returns answer) : ∃ reply, answer.replies = [reply] := by
  unfold Node.answer at h
  by_cases hr : node.responsible (pseudoHash (request.uri.getD [])) = true
  · simp only [if_pos hr] at h
    obtain ⟨⟨reply, table⟩, -, h⟩ := Outcome.bind_eq_returns.mp h
    rw [← Outcome.returns.inj h]
    exact ⟨reply, rfl⟩
  · simp only [if_neg hr] at h
    rw [← Outcome.returns.inj h]
    unfold Node.delegate
    repeat' split
    all_goals exact ⟨_, rfl⟩

theorem packet_served {node : Node} {mem : Bytes} {n : Nat} {packet : Packet}
    (h : processPacket node mem n = .returns packet) :
    packet.answer.replies.filter Reply.fromTable = (packet.answer.replies.find? Reply.fromTable).toList := by
  rcases processPacket_cases h with ⟨parsed, -, -, hanswer⟩ | ⟨-, -, -, hbad⟩
  · obtain ⟨reply, hreply⟩ := answer_replies hanswer
    rw [hreply]
    cases hserved : reply.fromTable with
    | true => rw [List.filter_cons_of_pos hserved, List.find?_cons_of_pos hserved]; rfl
    | false =>
        have hnot : ¬ reply.fromTable = true := by rw [hserved]; decide
        rw [List.filter_cons_of_neg hnot, List.find?_cons_of_neg hnot]
        rfl
  · have hnone : ∀ reply ∈ packet.answer.replies, ¬ reply.fromTable = true := by
      intro reply hreply
      rw [List.mem_singleton.mp (hbad hreply)]
      exact Bool.false_ne_true
    rw [List.filter_eq_nil_iff.mpr hnone, List.find?_eq_none.mpr hnone]
    rfl

namespace Net

variable {r : Ring}

theorem foldl_launch_flight : ∀ (ds : List Datagram) (s : Net r),
    (∀ d ∈ ds, (Message.read d.bytes).isSome = true) →
      (ds.foldl launch s).flight.map Flight.dgram = s.flight.map Flight.dgram ++ ds := by
  intro ds
  induction ds with
  | nil =>
      intro s _
      exact (List.append_nil _).symm
  | cons d ds ih =>
      intro s hread
      obtain ⟨m, hm⟩ := Option.isSome_iff_exists.mp (hread d List.mem_cons_self)
      rw [List.foldl_cons, ih _ fun d' hd' => hread d' (List.mem_cons_of_mem _ hd'), launch, hm]
      simp

theorem log_append {s t : Net r} {es : List (Event r)} (h : run step s es = some t) (fs : List (Event r)) :
    s.log (es ++ fs) = s.log es ++ t.log fs := by
  induction es generalizing s with
  | nil =>
      rw [Option.some.inj h]
      rfl
  | cons e es ih =>
      obtain ⟨s', hstep, hrest⟩ := run_cons_eq_some.mp h
      rw [List.cons_append, log, log, hstep]
      show _ ++ s'.log (es ++ fs) = _ ++ s'.log es ++ _
      rw [ih hrest, List.append_assoc]

/-- The replies from the tables that one event gives. -/
def gives (s : Net r) (e : Event r) : List Reply := (e.exchange s).toList.map Prod.snd

theorem log_concat {s t t' : Net r} {es : List (Event r)} {e : Event r} (h : run step s es = some t)
    (hstep : t.step e = some t') : (s.log (es ++ [e])).map Prod.snd = (s.log es).map Prod.snd ++ t.gives e := by
  rw [log_append h, List.map_append, log, hstep]
  show _ ++ List.map _ (_ ++ []) = _
  rw [List.append_nil]
  rfl

end Net

theorem redirectsOf_append (xs ys : List Reply) : redirectsOf (xs ++ ys) = redirectsOf xs ++ redirectsOf ys :=
  List.filterMap_append

/-! ### One step -/

namespace System

variable {r : Ring}

/-- A step that the ring does not see. -/
theorem Describes.quiet {s : System r} {events : List (Event r)} {net : Net r} (h : s.Describes events net)
    {i : Fin r.size} {p : Process} (hnode : p.node = (s.processes i).node) :
    (s.after i s.flight (p, nothing)).Describes events net := by
  refine ⟨h.reached, ?_, ?_, ?_, ?_⟩
  · intro j
    show (Function.update s.processes i p j).node = _
    by_cases hj : j = i
    · rw [hj, Function.update_self, hnode, h.nodes]
    · rw [Function.update_of_ne hj, h.nodes]
  · rw [← h.flight]
    exact List.append_nil _
  · rw [← h.redirects]
    exact congrArg redirectsOf (List.append_nil _)
  · rw [← h.served]
    exact congrArg (List.filter _) (List.append_nil _)

/-- A step that is one event of the ring. -/
theorem Describes.event {s s' : System r} {events : List (Event r)} {net net' : Net r} (h : s.Describes events net)
    {e : Event r} (hstep : net.step e = some net') (hnodes : ∀ i, (s'.processes i).node = net'.nodes i)
    (hflight : s'.flight = net'.flight.map Flight.dgram) {new : List Reply} (hnew : s'.replies = s.replies ++ new)
    (hredirects : net'.redirects = net.redirects ++ redirectsOf new)
    (hserved : net.gives e = new.filter Reply.fromTable) : s'.Describes (events ++ [e]) net' where
  reached := by
    rw [run_append h.reached, run_cons, hstep]
    rfl
  nodes := hnodes
  flight := hflight
  redirects := by rw [hnew, redirectsOf_append, h.redirects, hredirects]
  served := by rw [hnew, List.filter_append, h.served, Net.log_concat h.reached hstep, hserved]

/-- A packet is a request at the node. -/
theorem Describes.packet {s : System r} {events : List (Event r)} {net : Net r} (h : s.Describes events net)
    {i : Fin r.size} {mem : Bytes} {n : Nat} {packet : Packet}
    (hpacket : processPacket (s.processes i).node mem n = .returns packet) {p : Process}
    (hnode : p.node = packet.answer.node) :
    (s.after i s.flight (p, ⟨packet.answer.replies, packet.answer.lookups⟩)).Describes
      (events ++ [.request i mem n]) (net.respond i packet.answer) := by
  have hreturns : processPacket (net.nodes i) mem n = .returns packet := by rw [← h.nodes, hpacket]
  have hstep : net.step (.request i mem n) = some (net.respond i packet.answer) := by
    simp only [Net.step, hreturns]
  refine h.event hstep ?_ ?_ rfl (Net.respond_redirects ..) ?_
  · intro j
    rw [Net.respond_nodes]
    show (Function.update s.processes i p j).node = _
    by_cases hj : j = i
    · rw [hj, Function.update_self, Function.update_self, hnode]
    · rw [Function.update_of_ne hj, Function.update_of_ne hj, h.nodes]
  · rw [Net.respond, Net.foldl_launch_flight _ _ (packet_readable hpacket), ← h.flight]
    rfl
  · rw [packet_served hpacket]
    simp only [Net.gives, Event.exchange, hreturns]
    cases packet.answer.replies.find? Reply.fromTable <;> rfl

/-- A datagram that is taken in is delivered. -/
theorem Describes.datagram {s : System r} {events : List (Event r)} {net : Net r} (h : s.Describes events net)
    {i : Fin r.size} {k : Nat} {d : Datagram} (hd : s.flight[k]? = some d) (hfor : Net.receiver r d = some i)
    {p : Process} (hnode : p.node = (handleDatagram (s.processes i).node d.bytes).1) :
    ∃ net', (s.after i (s.flight.eraseIdx k)
      (p, ⟨[], (handleDatagram (s.processes i).node d.bytes).2⟩)).Describes (events ++ [.deliver k]) net' := by
  rw [h.flight, List.getElem?_map] at hd
  obtain ⟨q, hq, rfl⟩ := Option.map_eq_some_iff.mp hd
  have hstep : net.step (.deliver k) = some (net.arrive q (net.flight.eraseIdx k)) := by
    rw [Net.step, hq, Option.map_some]
  have hnew : (s.after i (s.flight.eraseIdx k)
      (p, ⟨[], (handleDatagram (s.processes i).node q.dgram.bytes).2⟩)).replies = s.replies ++ [] := rfl
  refine ⟨_, h.event hstep ?_ ?_ hnew ?_ rfl⟩
  · intro j
    simp only [Net.arrive, hfor]
    show (Function.update s.processes i p j).node = _
    by_cases hj : j = i
    · rw [hj, Function.update_self, Function.update_self, hnode, h.nodes]
    · rw [Function.update_of_ne hj, Function.update_of_ne hj, h.nodes]
  · simp only [Net.arrive, hfor, List.map_append, List.map_map]
    show s.flight.eraseIdx k ++ (handleDatagram (s.processes i).node q.dgram.bytes).2 = _
    rw [h.flight, h.nodes, List.eraseIdx_map]
    exact congrArg _ (List.map_id _).symm
  · rw [Net.arrive_redirects]
    exact (List.append_nil _).symm

/-- What a node does not understand changes nothing. -/
theorem handleDatagram_foreign (node : Node) {bytes : Bytes} (h : isForeign bytes = true) :
    handleDatagram node bytes = (node, []) := by
  unfold isForeign at h
  unfold handleDatagram
  cases hm : Message.read bytes with
  | none => rfl
  | some m =>
      simp only [hm, Bool.and_eq_true, bne_iff_ne] at h
      simp only [if_neg h.1, if_neg h.2]

/-- **One step of the system** is no event of the ring, or one. -/
theorem step_describes {s s' : System r} {move : Move r} {events : List (Event r)} {net : Net r}
    (h : s.Describes events net) (hstep : s.step move = some s') :
    ∃ more net', s'.Describes (events ++ more) net' ∧
      (move.reliable = true → ∀ e ∈ more, e.reliable = true) := by
  have hnothing : ∀ e ∈ ([] : List (Event r)), e.reliable = true := fun e he => absurd he List.not_mem_nil
  cases move with
  | act i call =>
      simp only [step] at hstep
      by_cases hcall : call.isDatagram = true
      · rw [if_pos hcall] at hstep
        cases hstep
      rw [if_neg hcall] at hstep
      obtain ⟨result, hresult, rfl⟩ := Option.map_eq_some_iff.mp hstep
      cases step_shown hresult with
      | quiet _ hnode => exact ⟨[], net, by rw [List.append_nil]; exact h.quiet hnode, fun _ => hnothing⟩
      | packet hpacket hnode => exact ⟨_, _, h.packet hpacket hnode, fun _ e he => by rw [List.mem_singleton.mp he]; rfl⟩
      | datagram => exact absurd rfl hcall
  | receive i k =>
      obtain ⟨d, hd, hstep⟩ := Option.bind_eq_some_iff.mp hstep
      by_cases hfor : Net.receiver r d = some i
      · rw [if_pos hfor] at hstep
        obtain ⟨result, hresult, rfl⟩ := Option.map_eq_some_iff.mp hstep
        cases step_shown hresult with
        | quiet hcall => cases hcall
        | datagram hnode =>
            obtain ⟨net', hnet'⟩ := h.datagram hd hfor hnode
            exact ⟨_, net', hnet', fun _ e he => by rw [List.mem_singleton.mp he]; rfl⟩
      · rw [if_neg hfor] at hstep
        cases hstep
  | foreign i bytes =>
      simp only [step] at hstep
      by_cases hforeign : isForeign bytes = true
      · rw [if_pos hforeign] at hstep
        obtain ⟨result, hresult, rfl⟩ := Option.map_eq_some_iff.mp hstep
        refine ⟨[], net, ?_, fun _ => hnothing⟩
        rw [List.append_nil]
        cases step_shown hresult with
        | quiet hcall => cases hcall
        | datagram hnode =>
            rw [handleDatagram_foreign _ hforeign] at hnode ⊢
            exact h.quiet hnode
      · rw [if_neg hforeign] at hstep
        cases hstep
  | inject i m =>
      simp only [step] at hstep
      by_cases hflags : m.flags = 0
      · rw [if_pos hflags] at hstep
        rw [← Option.some.inj hstep]
        have hnet : net.step (.inject i m) = some (net.launch ⟨r.addr i, r.port i, m.bytes⟩) := by
          rw [Net.step, if_pos hflags]
        refine ⟨_, _, h.event hnet ?_ ?_ (List.append_nil _).symm ?_ rfl, fun _ e he => by
          rw [List.mem_singleton.mp he]; rfl⟩
        · intro j
          rw [Net.launch_lookup]
          exact h.nodes j
        · rw [Net.launch_lookup, h.flight]
          simp
        · rw [Net.launch_redirects]
          exact (List.append_nil _).symm
      · rw [if_neg hflags] at hstep
        cases hstep
  | lose k =>
      obtain ⟨d, hd, rfl⟩ := Option.map_eq_some_iff.mp hstep
      rw [h.flight, List.getElem?_map] at hd
      obtain ⟨q, hq, rfl⟩ := Option.map_eq_some_iff.mp hd
      have hnet : net.step (.lose k) = some { net with flight := net.flight.eraseIdx k } := by
        rw [Net.step, hq, Option.map_some]
      refine ⟨_, _, h.event hnet h.nodes ?_ (List.append_nil _).symm (List.append_nil _).symm rfl,
        fun hc => absurd hc Bool.false_ne_true⟩
      rw [h.flight, List.eraseIdx_map]
  | duplicate k =>
      obtain ⟨d, hd, rfl⟩ := Option.map_eq_some_iff.mp hstep
      rw [h.flight, List.getElem?_map] at hd
      obtain ⟨q, hq, rfl⟩ := Option.map_eq_some_iff.mp hd
      have hnet : net.step (.duplicate k) = some { net with flight := net.flight ++ [q] } := by
        rw [Net.step, hq, Option.map_some]
      refine ⟨_, _, h.event hnet h.nodes ?_ (List.append_nil _).symm (List.append_nil _).symm rfl,
        fun hc => absurd hc Bool.false_ne_true⟩
      rw [h.flight, List.map_append]
      rfl

end System

/-- **The processes refine the ring.**  Whatever steps the processes take, in whatever order, and
whatever the network does to the datagrams: a run of the ring has the same nodes, the same
datagrams in flight, the same redirects and the same replies from the tables, and if no
datagram was lost or repeated, none is in that run. -/
theorem processes_refine (r : Ring) {start s : System r} (hstart : start.Booted) (moves : List (Move r))
    (hrun : run System.step start moves = some s) :
    ∃ events net, s.Describes events net ∧
      ((∀ m ∈ moves, m.reliable = true) → ∀ e ∈ events, e.reliable = true) := by
  have hbooted : ∃ net, start.Describes [] net := by
    refine ⟨Net.start r, rfl, ?_, ?_, ?_, ?_⟩
    · intro i
      obtain ⟨node, hnode, hi⟩ := hstart.started i
      rw [launch_ring, Outcome.returns.injEq] at hnode
      rw [hi, ← hnode]
      rfl
    · exact hstart.flight
    · rw [hstart.replies]
      rfl
    · rw [hstart.replies]
      rfl
  obtain ⟨events, ⟨net, hnet⟩, hreliable⟩ := run_simulates (R := fun s events => ∃ net, s.Describes events net)
    (fun s e s' events hs hstep => by
      obtain ⟨net, hnet⟩ := hs
      obtain ⟨more, net', hnet', hmore⟩ := System.step_describes hnet hstep
      exact ⟨more, ⟨net', hnet'⟩, hmore⟩) moves hbooted hrun
  exact ⟨events, net, hnet, hreliable⟩

theorem one_lt_threeNodes : 1 < threeNodes.size := by
  decide

/-- The first node is asked for `/a` and sends a LOOKUP.  While it still has the start of the next
request to look at, the second node answers, and so the reply is there for the next client. -/
def lookedUpMeanwhile : List (Move threeNodes) :=
  let first : Fin threeNodes.size := ⟨0, threeNodes.pos⟩
  let second : Fin threeNodes.size := ⟨1, one_lt_threeNodes⟩
  [.act first (.poll ⟨true, false, false⟩), .act first (.accept (.connection 7)), .act first .pass, .act first .pass,
    .act first (.poll ⟨false, false, true⟩), .act first .pass, .act first .pass,
    .act second (.poll ⟨false, true, false⟩), .act second .pass, .foreign second (ascii "hello"),
    .act first (.recv (some (getRequest "/a" ++ ascii "GET"))), .act first .packet, .receive second 0,
    .act first .packet, .act first (.poll ⟨false, true, true⟩), .act first .pass, .receive first 0,
    .act first (.recvfrom none), .act first (.recv (some (ascii " /a HTTP/1.1\r\n\r\n"))), .act first .packet]

theorem processes_refine_looked_up : ∃ s : System threeNodes,
    run System.step (System.boot threeNodes) lookedUpMeanwhile = some s ∧
      redirectsOf s.replies = [⟨ascii "/a", inetNtop (threeNodes.addr ⟨2, by decide⟩), threeNodes.port ⟨2, by decide⟩⟩] ∧
      ∃ events net, s.Describes events net ∧
        ((∀ m ∈ lookedUpMeanwhile, m.reliable = true) → ∀ e ∈ events, e.reliable = true) := by
  have hredirects : (run System.step (System.boot threeNodes) lookedUpMeanwhile).map
      (fun s => redirectsOf s.replies)
        = some [⟨ascii "/a", inetNtop (threeNodes.addr ⟨2, by decide⟩), threeNodes.port ⟨2, by decide⟩⟩] := by
    decide +kernel
  obtain ⟨s, hrun, hredirects⟩ := Option.map_eq_some_iff.mp hredirects
  exact ⟨s, hrun, hredirects, processes_refine threeNodes (System.booted_boot _) _ hrun⟩

end ChordDht.Chord
