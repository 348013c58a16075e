/-
The ring as a whole: nodes, datagrams in flight, and what can happen next.

An event is a client's request at a node, a LOOKUP put on the network from outside,
or the network delivering, losing or duplicating a datagram that is in flight.
Events come in any order, so a result about every run is a result about every
interleaving.  The address on a datagram decides who receives it.

Part of the state is bookkeeping that no node sees: every LOOKUP that was ever put on
the network, by serial number; on each datagram the serial number of the LOOKUP it
goes back to and the nodes that have handled it, latest first; the datagrams that
were taken in without an answer; and the redirects clients got.

`Sound` is what holds in every reachable state: nodes keep their configuration,
what is remembered in a reply cache names a node of the ring together with its
predecessor's id, and every REPLY in flight does too.
-/
import ChordDht.Lib.Trace
import ChordDht.Chord.Replies
import ChordDht.Chord.Ring

namespace ChordDht.Chord

open Arc Trace

structure Flight (n : Nat) where
  serial : Nat
  trail : List (Fin n)
  dgram : Datagram
  deriving DecidableEq, Repr

/-- A 303 that was sent: the address in its Location, and the URI it was for. -/
structure Redirect where
  uri : Bytes
  ip : Bytes
  port : UInt16
  deriving DecidableEq, Repr

structure Net (r : Ring) where
  nodes : Fin r.size → Node
  flight : List (Flight r.size)
  lookups : List Message
  delivered : List (Flight r.size)
  redirects : List Redirect

inductive Event (r : Ring) where
  | request (i : Fin r.size) (mem : Bytes) (n : Nat)
  | inject (i : Fin r.size) (m : Message)
  | deliver (k : Nat)
  | lose (k : Nat)
  | duplicate (k : Nat)

/-- What a network that neither loses nor duplicates can do. -/
def Event.reliable {r : Ring} : Event r → Bool
  | .lose _ => false
  | .duplicate _ => false
  | _ => true

def Event.isDeliver {r : Ring} : Event r → Bool
  | .deliver _ => true
  | _ => false

/-- The redirects among some replies. -/
def redirectsOf (replies : List Reply) : List Redirect :=
  replies.filterMap fun reply =>
    match reply with
    | .seeOther ip port uri => some ⟨uri, ip, port⟩
    | _ => none

namespace Net

variable {r : Ring}

def start (r : Ring) : Net r := ⟨r.node, [], [], [], []⟩

/-- The node bound to the address a datagram is sent to. -/
def receiver (r : Ring) (d : Datagram) : Option (Fin r.size) :=
  (List.finRange r.size).find? fun j => decide (r.addr j = d.ip ∧ r.port j = d.port)

/-- Put a new LOOKUP on the network. -/
def launch (s : Net r) (d : Datagram) : Net r :=
  match Message.read d.bytes with
  | some m =>
      { s with
          flight := s.flight ++ [⟨s.lookups.length, [], d⟩]
          lookups := s.lookups ++ [m] }
  | none => s

/-- A datagram arrives; `rest` is what stays in flight. -/
def arrive (s : Net r) (p : Flight r.size) (rest : List (Flight r.size)) : Net r :=
  match receiver r p.dgram with
  | none => { s with flight := rest, delivered := s.delivered ++ [p] }
  | some j =>
      let handled := handleDatagram (s.nodes j) p.dgram.bytes
      { s with
          nodes := Function.update s.nodes j handled.1
          flight := rest ++ handled.2.map fun d => ⟨p.serial, j :: p.trail, d⟩
          delivered := if handled.2 = [] then s.delivered ++ [p] else s.delivered }

/-- A request is answered at node `i`. -/
def respond (s : Net r) (i : Fin r.size) (answer : Answer) : Net r :=
  answer.lookups.foldl launch
    { s with
        nodes := Function.update s.nodes i answer.node
        redirects := s.redirects ++ redirectsOf answer.replies }

def step (s : Net r) : Event r → Option (Net r)
  | .request i mem n =>
      match processPacket (s.nodes i) mem n with
      | .returns packet => some (s.respond i packet.answer)
      | _ => none
  | .inject i m =>
      if m.flags = 0 then some (s.launch ⟨r.addr i, r.port i, m.bytes⟩) else none
  | .deliver k => s.flight[k]?.map fun p => s.arrive p (s.flight.eraseIdx k)
  | .lose k => s.flight[k]?.map fun _ => { s with flight := s.flight.eraseIdx k }
  | .duplicate k => s.flight[k]?.map fun p => { s with flight := s.flight ++ [p] }

end Net

/-! ### What answering a request does -/

/-- Serving a request from the table never redirects. -/
theorem redirectsOf_sendReply {request : Request} {table : Table} {reply : Reply} {table' : Table}
    (h : sendReply request table = .returns (reply, table')) : redirectsOf [reply] = [] := by
  have hcases : ∀ ip port uri, reply ≠ .seeOther ip port uri := by
    intro ip port uri hc
    subst hc
    simp only [sendReply] at h
    repeat' split at h
    all_goals simp only [Outcome.returns.injEq, Prod.mk.injEq, reduceCtorEq, false_and] at h
  cases reply with
  | seeOther ip port uri => exact absurd rfl (hcases ip port uri)
  | _ => rfl

/-- **What a packet does**: nothing, or what `answer` does for the request it holds. -/
theorem processPacket_cases {node : Node} {mem : Bytes} {n : Nat} {packet : Packet}
    (h : processPacket node mem n = .returns packet) :
    (∃ parsed, parseRequest mem n emptyRequest = .returns parsed ∧ 0 < parsed.ret ∧
      node.answer parsed.request = .returns packet.answer) ∨
    ((∀ parsed, parseRequest mem n emptyRequest = .returns parsed → ¬ 0 < parsed.ret) ∧
      packet.answer.node = node ∧ packet.answer.lookups = [] ∧
      packet.answer.replies ⊆ [.badRequest]) := by
  obtain ⟨parsed, hparse, h⟩ := Outcome.bind_eq_returns.mp h
  by_cases hpos : 0 < parsed.ret
  · rw [if_pos hpos] at h
    obtain ⟨answer, hanswer, h⟩ := Outcome.bind_eq_returns.mp h
    refine Or.inl ⟨parsed, hparse, hpos, ?_⟩
    rw [Outcome.pure_eq, Outcome.returns.injEq] at h
    rw [hanswer, ← h]
  · rw [if_neg hpos] at h
    refine Or.inr ⟨?_, ?_⟩
    · intro parsed' hparse'
      rw [hparse, Outcome.returns.injEq] at hparse'
      rwa [← hparse']
    · split at h
      all_goals
        rw [Outcome.pure_eq, Outcome.returns.injEq] at h
        rw [← h]
        exact ⟨rfl, rfl, by simp⟩

theorem redirectsOf_badRequest {replies : List Reply} (h : replies ⊆ [.badRequest]) :
    redirectsOf replies = [] := by
  rw [redirectsOf, List.filterMap_eq_nil_iff]
  intro reply hreply
  rw [List.mem_singleton.mp (h hreply)]

/-- **What an answer is**: served locally, or delegated without touching the table. -/
theorem answer_cases {node : Node} {request : Request} {answer : Answer}
    (h : node.answer request = .returns answer) :
    (node.responsible (pseudoHash (request.uri.getD [])) = true ∧
      ∃ resources, answer.node = { node with resources := resources } ∧ answer.lookups = [] ∧
        redirectsOf answer.replies = []) ∨
    (node.responsible (pseudoHash (request.uri.getD [])) = false ∧
      answer = node.delegate (request.uri.getD []) (pseudoHash (request.uri.getD []))) := by
  by_cases hr : node.responsible (pseudoHash (request.uri.getD [])) = true
  · obtain ⟨reply, resources, hreply, rfl⟩ := answer_served hr h
    exact Or.inl ⟨hr, resources, rfl, rfl, redirectsOf_sendReply hreply⟩
  · rw [answer_delegated hr, Outcome.returns.injEq] at h
    exact Or.inr ⟨by simpa using hr, h.symm⟩

/-! ### The invariant of the ring -/

/-- What a cached reply says: a node of the ring and its predecessor's id. -/
def CacheSound (r : Ring) (node : Node) : Prop :=
  node.haveReply = true → ∃ o, node.replyPeer = r.peer o ∧ node.replyPrevId = r.id (prev o)

/-- A datagram of the protocol: a LOOKUP, or a REPLY that names a node of the ring. -/
def WireSound (r : Ring) (bytes : Bytes) : Prop :=
  ∃ m : Message, bytes = m.bytes ∧ (m.flags = 0 ∨ ∃ o, m = r.replyNaming o)

namespace Net

variable {r : Ring}

structure Sound (s : Net r) : Prop where
  configured : ∀ i, Configured r i (s.nodes i)
  cache : ∀ i, CacheSound r (s.nodes i)
  flight : ∀ p ∈ s.flight, WireSound r p.dgram.bytes

theorem sound_start (r : Ring) : (start r).Sound := by
  refine ⟨configured_node r, ?_, ?_⟩
  · intro i h
    simp [start, Ring.node] at h
  · intro p hp
    simp [start] at hp

/-- Changing one node to one that is configured and remembers a sound reply keeps both. -/
theorem update_sound {s : Net r} (hs : s.Sound) {i : Fin r.size} {node : Node}
    (hconf : Configured r i node) (hcache : CacheSound r node) :
    (∀ j, Configured r j (Function.update s.nodes i node j)) ∧
      ∀ j, CacheSound r (Function.update s.nodes i node j) := by
  constructor
  · intro j
    by_cases hj : j = i
    · subst hj; rwa [Function.update_self]
    · rw [Function.update_of_ne hj]; exact hs.configured j
  · intro j
    by_cases hj : j = i
    · subst hj; rwa [Function.update_self]
    · rw [Function.update_of_ne hj]; exact hs.cache j

theorem launch_sound {s : Net r} (hs : s.Sound) {d : Datagram} (hd : WireSound r d.bytes) :
    (s.launch d).Sound := by
  unfold launch
  split
  · refine ⟨hs.configured, hs.cache, ?_⟩
    intro p hp
    rcases List.mem_append.mp hp with hp | hp
    · exact hs.flight p hp
    · rw [List.mem_singleton.mp hp]
      exact hd
  · exact hs

theorem foldl_launch_sound : ∀ (ds : List Datagram) {s : Net r}, s.Sound →
    (∀ d ∈ ds, WireSound r d.bytes) → (ds.foldl launch s).Sound := by
  intro ds
  induction ds with
  | nil => intro s hs _; exact hs
  | cons d ds ih =>
      intro s hs hds
      exact ih (launch_sound hs (hds d (by simp))) (fun d' hd' => hds d' (by simp [hd']))

/-- Delegating keeps a node sound, and what it sends is a LOOKUP. -/
theorem delegate_sound {i : Fin r.size} {node : Node} (hconf : Configured r i node)
    (hcache : CacheSound r node) (uri : Bytes) (h : UInt16) :
    Configured r i (node.delegate uri h).node ∧ CacheSound r (node.delegate uri h).node ∧
      ∀ d ∈ (node.delegate uri h).lookups, WireSound r d.bytes := by
  unfold Node.delegate
  split
  · exact ⟨hconf, hcache, by simp⟩
  · split
    · exact ⟨⟨hconf.selfId, hconf.successor, hconf.predecessor, hconf.selfIp, hconf.selfPort⟩,
        fun hc => by simp at hc, by simp⟩
    · split
      · refine ⟨⟨hconf.selfId, hconf.successor, hconf.predecessor, hconf.selfIp, hconf.selfPort⟩,
          fun _ => ⟨next i, hconf.successor, ?_⟩, by simp⟩
        rw [prev_next]
        exact hconf.selfId
      · refine ⟨hconf, hcache, ?_⟩
        intro d hd
        rw [hconf.successor, Ring.peer, sendTo_inetNtop] at hd
        rw [List.mem_singleton.mp hd]
        exact ⟨_, rfl, Or.inl rfl⟩

theorem respond_sound {s : Net r} (hs : s.Sound) {i : Fin r.size} {answer : Answer}
    (hconf : Configured r i answer.node) (hcache : CacheSound r answer.node)
    (hwire : ∀ d ∈ answer.lookups, WireSound r d.bytes) : (s.respond i answer).Sound := by
  obtain ⟨hconf', hcache'⟩ := update_sound hs hconf hcache
  exact foldl_launch_sound answer.lookups ⟨hconf', hcache', hs.flight⟩ hwire

theorem handle_sound {i : Fin r.size} {node : Node} (hconf : Configured r i node)
    (hcache : CacheSound r node) {bytes : Bytes} (hb : WireSound r bytes) :
    Configured r i (handleDatagram node bytes).1 ∧ CacheSound r (handleDatagram node bytes).1 ∧
      ∀ d ∈ (handleDatagram node bytes).2, WireSound r d.bytes := by
  obtain ⟨m, rfl, hm⟩ := hb
  rcases hm with hflag | ⟨o, rfl⟩
  · have hlookup := handleDatagram_lookup hconf hflag []
    rw [List.append_nil] at hlookup
    rcases hlookup with ⟨-, h⟩ | ⟨-, -, h⟩ | ⟨-, -, h⟩
    · rw [h]
      exact ⟨hconf, hcache, by simp only [List.mem_singleton, forall_eq]; exact ⟨_, rfl, Or.inr ⟨i, rfl⟩⟩⟩
    · rw [h]
      exact ⟨hconf, hcache,
        by simp only [List.mem_singleton, forall_eq]; exact ⟨_, rfl, Or.inr ⟨next i, rfl⟩⟩⟩
    · rw [h]
      exact ⟨hconf, hcache, by simp only [List.mem_singleton, forall_eq]; exact ⟨m, rfl, Or.inl hflag⟩⟩
  · have hreply := handleDatagram_reply node (m := r.replyNaming o) rfl []
    rw [List.append_nil] at hreply
    rw [hreply]
    exact ⟨⟨hconf.selfId, hconf.successor, hconf.predecessor, hconf.selfIp, hconf.selfPort⟩,
      fun _ => ⟨o, rfl, rfl⟩, by simp⟩

theorem arrive_sound {s : Net r} (hs : s.Sound) {p : Flight r.size}
    (hp : WireSound r p.dgram.bytes) {rest : List (Flight r.size)}
    (hrest : ∀ q ∈ rest, WireSound r q.dgram.bytes) : (s.arrive p rest).Sound := by
  unfold arrive
  split
  · exact ⟨hs.configured, hs.cache, hrest⟩
  · rename_i j hj
    obtain ⟨hconf, hcache, hwire⟩ := handle_sound (hs.configured j) (hs.cache j) hp
    obtain ⟨hconf', hcache'⟩ := update_sound hs hconf hcache
    refine ⟨hconf', hcache', ?_⟩
    intro q hq
    rcases List.mem_append.mp hq with hq | hq
    · exact hrest q hq
    · obtain ⟨d, hd, rfl⟩ := List.mem_map.mp hq
      exact hwire d hd

theorem request_sound {s : Net r} (hs : s.Sound) {i : Fin r.size} {mem : Bytes} {n : Nat}
    {packet : Packet} (h : processPacket (s.nodes i) mem n = .returns packet) :
    (s.respond i packet.answer).Sound := by
  rcases processPacket_cases h with ⟨parsed, -, -, hanswer⟩ | ⟨-, hnode, hnone, -⟩
  · rcases answer_cases hanswer with ⟨-, resources, hnode, hnone, -⟩ | ⟨-, hdel⟩
    · refine respond_sound hs ?_ ?_ (by simp [hnone])
      · have hc := hs.configured i
        rw [hnode]
        exact ⟨hc.selfId, hc.successor, hc.predecessor, hc.selfIp, hc.selfPort⟩
      · rw [hnode]
        exact hs.cache i
    · obtain ⟨hconf, hcache, hwire⟩ := delegate_sound (hs.configured i) (hs.cache i)
        (parsed.request.uri.getD []) (pseudoHash (parsed.request.uri.getD []))
      rw [← hdel] at hconf hcache hwire
      exact respond_sound hs hconf hcache hwire
  · refine respond_sound hs ?_ ?_ (by simp [hnone])
    · rw [hnode]; exact hs.configured i
    · rw [hnode]; exact hs.cache i

/-- **One step keeps the ring sound.** -/
theorem step_sound {s s' : Net r} {e : Event r} (hs : s.Sound) (h : s.step e = some s') :
    s'.Sound := by
  have herase : ∀ k, ∀ q ∈ s.flight.eraseIdx k, WireSound r q.dgram.bytes :=
    fun k q hq => hs.flight q (List.mem_of_mem_eraseIdx hq)
  cases e with
  | request i mem n =>
      simp only [step] at h
      cases hp : processPacket (s.nodes i) mem n with
      | returns packet =>
          rw [hp] at h
          rw [← Option.some.inj h]
          exact request_sound hs hp
      | _ => rw [hp] at h; simp at h
  | inject i m =>
      simp only [step] at h
      split at h
      · rename_i hflag
        rw [← Option.some.inj h]
        exact launch_sound hs ⟨m, rfl, Or.inl hflag⟩
      · simp at h
  | deliver k =>
      obtain ⟨p, hp, rfl⟩ := Option.map_eq_some_iff.mp h
      exact arrive_sound hs (hs.flight p (List.mem_of_getElem? hp)) (herase k)
  | lose k =>
      obtain ⟨p, hp, rfl⟩ := Option.map_eq_some_iff.mp h
      exact ⟨hs.configured, hs.cache, herase k⟩
  | duplicate k =>
      obtain ⟨p, hp, rfl⟩ := Option.map_eq_some_iff.mp h
      refine ⟨hs.configured, hs.cache, ?_⟩
      intro q hq
      rcases List.mem_append.mp hq with hq | hq
      · exact hs.flight q hq
      · rw [List.mem_singleton.mp hq]
        exact hs.flight p (List.mem_of_getElem? hp)

/-! ### Tables -/

theorem arrive_resources (s : Net r) (p : Flight r.size) (rest : List (Flight r.size)) (j : Fin r.size) :
    ((s.arrive p rest).nodes j).resources = (s.nodes j).resources := by
  unfold arrive
  split
  · rfl
  · rename_i i _
    by_cases hj : j = i
    · subst hj
      simp only [Function.update_self, handleDatagram_resources]
    · simp only [Function.update_of_ne hj]

end Net

end ChordDht.Chord
