/-
Who serves a URI over HTTP.

The two paths into a node decide responsibility differently.  A LOOKUP is answered by
the interval tests alone, so over UDP every node that names anybody names the owner.
An HTTP request is also served by a node that takes itself to be alone, and a node
takes itself to be alone when the ids of both its neighbours are 0.  That is right for
a node without a DHT and wrong for the partner of a node whose id is 0:
`servedOnce_iff` says that these rings are the only exception.
-/
import ChordDht.Chord.Replies
import ChordDht.Chord.Ring

namespace ChordDht.Chord

open Arc

variable {r : Ring} {nodes : Fin r.size → Node}

/-- Asked over UDP for this hash, node `k` names node `o` in its REPLY. -/
def Names (r : Ring) (nodes : Fin r.size → Node) (k o : Fin r.size) (h : UInt16) : Prop :=
  ∃ m : Message, m.flags = 0 ∧ m.id = h ∧
    (handleDatagram (nodes k) m.bytes).2 = [⟨m.ip, m.port, (r.replyNaming o).bytes⟩]

section Requests

variable (node : Node) (mem : Bytes) (n : Nat) (parsed : Parse)

/-- `process_packet` takes its local branch: what it does is what `send_reply` does with the
node's own table. -/
def ServesItself : Prop :=
  processPacket node mem n = (do
    let (reply, table) ← sendReply parsed.request node.resources
    return ⟨if closesAfter parsed.request then -1 else parsed.ret, parsed.buffer, parsed.request,
      ⟨{ node with resources := table }, [reply], []⟩⟩)

/-- It takes the other one: the client is redirected or told to come back. -/
def SendsAway : Prop :=
  processPacket node mem n = .returns ⟨if closesAfter parsed.request then -1 else parsed.ret, parsed.buffer,
    parsed.request, node.delegate parsed.request.target (pseudoHash parsed.request.target)⟩

end Requests

/-- One node serves the request itself, every other node sends it away, and the one is the node
that is named over UDP for the hash of its URI. -/
structure ServedBy (r : Ring) (nodes : Fin r.size → Node) (mem : Bytes) (n : Nat) (parsed : Parse)
    (i : Fin r.size) : Prop where
  serves : ∀ j, ServesItself (nodes j) mem n parsed ↔ j = i
  others : ∀ j, j ≠ i → SendsAway (nodes j) mem n parsed
  named : ∃ k, Names r nodes k i (pseudoHash parsed.request.target)
  only : ∀ k o, Names r nodes k o (pseudoHash parsed.request.target) → o = i

def ServedOnce (r : Ring) (nodes : Fin r.size → Node) (mem : Bytes) (n : Nat) (parsed : Parse) : Prop :=
  ∃ i, ServedBy r nodes mem n parsed i

/-- The ring is a pair, one of the two has the id 0, and the hash is on its arc. -/
def Shadowed (r : Ring) (h : UInt16) : Prop :=
  r.size = 2 ∧ ∃ i j, i ≠ j ∧ r.id i = 0 ∧ (h = 0 ∨ r.id j < h)

/-! ### Over UDP -/

theorem replyNaming_inj {o o' : Fin r.size} (h : (r.replyNaming o).bytes = (r.replyNaming o').bytes) :
    o = o' := by
  have hm : r.replyNaming o = r.replyNaming o' := Message.bytes_inj.mp h
  exact r.id_injective (congrArg Message.peerId hm)

/-- Whoever is named over UDP is the owner. -/
theorem names_owner (hc : ∀ i, Configured r i (nodes i)) {k o : Fin r.size} {h : UInt16}
    (hn : Names r nodes k o h) : r.Owns o h := by
  obtain ⟨m, hm, rfl, hsent⟩ := hn
  have hlookup := handleDatagram_lookup (hc k) hm []
  rw [List.append_nil] at hlookup
  rcases hlookup with ⟨hown, heq⟩ | ⟨-, hown, heq⟩ | ⟨-, -, heq⟩
  · rw [heq] at hsent
    rwa [← replyNaming_inj (congrArg Datagram.bytes (List.head_eq_of_cons_eq hsent))]
  · rw [heq] at hsent
    rwa [← replyNaming_inj (congrArg Datagram.bytes (List.head_eq_of_cons_eq hsent))]
  · rw [heq] at hsent
    have hsame : m = r.replyNaming o :=
      Message.bytes_inj.mp (congrArg Datagram.bytes (List.head_eq_of_cons_eq hsent))
    rw [hsame] at hm
    exact absurd hm (by show (1 : UInt8) ≠ 0; decide)

/-- The owner names itself. -/
theorem owner_names_itself (hc : ∀ i, Configured r i (nodes i)) {o : Fin r.size} {h : UInt16}
    (ho : r.Owns o h) : Names r nodes o o h := by
  refine ⟨⟨0, h, 0, ⟨0, 0, 0, 0⟩, 0⟩, rfl, rfl, ?_⟩
  have hlookup := handleDatagram_lookup (hc o) (m := ⟨0, h, 0, ⟨0, 0, 0, 0⟩, 0⟩) rfl []
  rw [List.append_nil] at hlookup
  rcases hlookup with ⟨-, heq⟩ | ⟨hno, -⟩ | ⟨hno, -⟩
  · rw [heq]
  · exact absurd ho hno
  · exact absurd ho hno

/-! ### The two branches -/

section Branches

variable {mem : Bytes} {n : Nat} {parsed : Parse} (hparse : parseRequest mem n emptyRequest = .returns parsed)
  (hpos : 0 < parsed.ret)

include hparse hpos in
theorem servesItself_of_responsible {node : Node}
    (hr : node.responsible (pseudoHash parsed.request.target) = true) : ServesItself node mem n parsed := by
  unfold Request.target at hr
  rw [ServesItself, processPacket_parsed hparse hpos]
  simp only [Node.answer, hr, if_true]
  cases sendReply parsed.request node.resources with
  | returns served => rfl
  | diverges | exits | faults => rfl

include hparse hpos in
theorem sendsAway_of_not {node : Node}
    (hr : ¬ node.responsible (pseudoHash parsed.request.target) = true) : SendsAway node mem n parsed := by
  rw [SendsAway, processPacket_parsed hparse hpos, answer_delegated hr]
  rfl

/-- What comes from the own table is not what is sent by a node that delegates. -/
theorem SendsAway.not_serves {node : Node} (haway : SendsAway node mem n parsed) :
    ¬ ServesItself node mem n parsed := by
  intro hserves
  rw [ServesItself, haway] at hserves
  obtain ⟨⟨reply, table⟩, hreply, hsame⟩ := Outcome.bind_eq_returns.mp hserves.symm
  have hreplies : [reply] = (node.delegate parsed.request.target (pseudoHash parsed.request.target)).replies :=
    congrArg (fun packet => packet.answer.replies) (Outcome.returns.inj hsame)
  have hnone := delegate_fromTable node parsed.request.target (pseudoHash parsed.request.target)
  rw [← hreplies, List.find?_cons_of_pos (sendReply_fromTable hreply)] at hnone
  cases hnone

include hparse hpos in
/-- **The local branch is taken exactly where the node takes itself to be responsible.** -/
theorem servesItself_iff (node : Node) :
    ServesItself node mem n parsed ↔ node.responsible (pseudoHash parsed.request.target) = true := by
  constructor
  · intro hserves
    by_contra hr
    exact (sendsAway_of_not hparse hpos hr).not_serves hserves
  · exact servesItself_of_responsible hparse hpos

include hparse hpos in
/-- So one node serves the request and UDP agrees exactly when HTTP is served by the owner. -/
theorem servedOnce_iff_owns (hc : ∀ i, Configured r i (nodes i)) :
    ServedOnce r nodes mem n parsed ↔ ∀ j,
      (nodes j).responsible (pseudoHash parsed.request.target) = true ↔
        r.Owns j (pseudoHash parsed.request.target) := by
  obtain ⟨o, ho, honly⟩ := r.existsUnique_owns (pseudoHash parsed.request.target)
  have hserves := servesItself_iff hparse hpos
  constructor
  · rintro ⟨i, h⟩ j
    have hoi : o = i := h.only o o (owner_names_itself hc ho)
    rw [← hserves, h.serves, ← hoi]
    constructor
    · intro hj
      rw [hj]
      exact ho
    · exact honly j
  · intro h
    have howner : ∀ j, (nodes j).responsible (pseudoHash parsed.request.target) = true ↔ j = o := by
      intro j
      rw [h j]
      constructor
      · exact honly j
      · intro hj
        rw [hj]
        exact ho
    refine ⟨o, fun j => (hserves _).trans (howner j), ?_, ⟨o, owner_names_itself hc ho⟩, ?_⟩
    · intro j hj
      exact sendsAway_of_not hparse hpos fun hr => hj ((howner j).mp hr)
    · intro k o' hn
      exact honly o' (names_owner hc hn)

end Branches

/-! ### Over HTTP -/

/-- A node that follows itself is the only one. -/
theorem size_of_next_self {n : Nat} {i : Fin n} (h : next i = i) : n = 1 := by
  have hi := i.isLt
  have hval := congrArg Fin.val h
  simp only [next] at hval
  split at hval <;> omega

/-- A ring of one: its node owns everything. -/
theorem owns_of_next_self {i : Fin r.size} (h : next i = i) (u : UInt16) : r.Owns i u := by
  obtain ⟨o, ho, -⟩ := r.existsUnique_owns u
  have hsize := size_of_next_self h
  have hoi : o = i := Fin.ext (by have := o.isLt; have := i.isLt; omega)
  rwa [hoi] at ho

/-- A node takes itself to be alone if it is, or if both its neighbours have the id 0. -/
theorem singleNode_iff {i : Fin r.size} {node : Node} (hc : Configured r i node) :
    node.singleNode = true ↔ next i = i ∨ (r.id (prev i) = 0 ∧ r.id (next i) = 0) := by
  rw [Node.singleNode, Bool.or_eq_true, Bool.and_eq_true, Bool.and_eq_true, beq_iff_eq, beq_iff_eq,
    beq_iff_eq, beq_iff_eq, hc.selfId, hc.predecessor, hc.successor]
  show (r.id (prev i) = r.id i ∧ r.id (next i) = r.id i) ∨ _ ↔ _
  constructor
  · intro h
    rcases h with h | h
    · exact Or.inl (r.id_injective h.2)
    · exact Or.inr h
  · intro h
    rcases h with h | h
    · left
      have hprev : prev i = i := by rw [← h, prev_next, h]
      rw [hprev, h]
      exact ⟨rfl, rfl⟩
    · exact Or.inr h

/-- Two neighbours with one id are one node, and the ring a pair. -/
theorem pair_of_neighbours {i : Fin r.size} (hne : next i ≠ i) (h : next i = prev i) :
    r.size = 2 := by
  have hi := i.isLt
  have hval := congrArg Fin.val h
  have hval' : (next i).val ≠ i.val := fun hc => hne (Fin.ext hc)
  simp only [next, prev] at hval hval'
  split at hval' <;> split at hval <;> split at hval <;> omega

/-- In a pair each node is between the other and the other. -/
theorem neighbours_of_pair {i j : Fin r.size} (hsize : r.size = 2) (hij : i ≠ j) :
    prev i = j ∧ next i = j := by
  have hi := i.isLt
  have hj := j.isLt
  have hval : i.val ≠ j.val := fun hc => hij (Fin.ext hc)
  constructor
  · apply Fin.ext
    simp only [prev]
    split <;> omega
  · apply Fin.ext
    simp only [next]
    split <;> omega

/-- The node with the id 0 owns what wraps around. -/
theorem owns_zero_iff {i : Fin r.size} (hid : r.id i = 0) (h : UInt16) :
    r.Owns i h ↔ h = 0 ∨ r.id (prev i) < h := by
  unfold Ring.Owns OnArc
  rw [hid, if_neg (by simp)]
  have hzero : h.toNat ≤ (0 : UInt16).toNat ↔ h = 0 := by
    rw [← UInt16.toNat_inj]
    exact Nat.le_zero
  rw [hzero, ← UInt16.lt_iff_toNat_lt]
  exact Or.comm

/-- **The nodes that take themselves to be responsible are the owners**, unless the ring is a pair
with the id 0 in it and the hash on the arc of that id. -/
theorem responsible_iff_owns (hc : ∀ i, Configured r i (nodes i)) {h : UInt16} :
    (∀ j, (nodes j).responsible h = true ↔ r.Owns j h) ↔ ¬ Shadowed r h := by
  have hresponsible : ∀ j, (nodes j).responsible h = true ↔
      (next j = j ∨ (r.id (prev j) = 0 ∧ r.id (next j) = 0)) ∨ r.Owns j h := by
    intro j
    rw [Node.responsible, Bool.or_eq_true, singleNode_iff (hc j), (hc j).self_test]
  constructor
  · rintro hserves ⟨hsize, i, j, hij, hid, hh⟩
    obtain ⟨hprev, hnext⟩ := neighbours_of_pair hsize (Ne.symm hij)
    obtain ⟨hprev', -⟩ := neighbours_of_pair hsize hij
    have hi : r.Owns i h := (owns_zero_iff hid h).mpr (by rw [hprev']; exact hh)
    have hj : r.Owns j h := by
      rw [← hserves j, hresponsible j, hprev, hnext, hid]
      exact Or.inl (Or.inr ⟨rfl, rfl⟩)
    exact hij (Ring.owns_unique hi hj)
  · intro hnot j
    rw [hresponsible j]
    constructor
    · intro h'
      rcases h' with (halone | ⟨hprev, hnext⟩) | howns
      · exact owns_of_next_self halone h
      · have hsame : next j = prev j := r.id_injective (hnext.trans hprev.symm)
        by_cases halone : next j = j
        · exact owns_of_next_self halone h
        · -- the other node has the id 0; it would own the hash if `j` did not
          have hsize := pair_of_neighbours halone hsame
          by_contra hno
          obtain ⟨o, ho, -⟩ := r.existsUnique_owns h
          have hoj : o ≠ j := fun hc' => hno (hc' ▸ ho)
          obtain ⟨-, hnext'⟩ := neighbours_of_pair hsize (Ne.symm hoj)
          have hid : r.id o = 0 := by rw [← hnext', hnext]
          obtain ⟨hprev', -⟩ := neighbours_of_pair hsize hoj
          refine hnot ⟨hsize, o, j, hoj, hid, ?_⟩
          rw [← hprev']
          exact (owns_zero_iff hid h).mp ho
      · exact howns
    · intro howns
      exact Or.inr howns

/-- **Exactly one node serves a request, and it is the node lookups name, unless the ring is
a pair with the id 0 in it and the hash on the arc of that id.** -/
theorem servedOnce_iff (r : Ring) (nodes : Fin r.size → Node) (hc : ∀ i, Configured r i (nodes i))
    {mem : Bytes} {n : Nat} {parsed : Parse} (hparse : parseRequest mem n emptyRequest = .returns parsed)
    (hpos : 0 < parsed.ret) :
    ServedOnce r nodes mem n parsed ↔ ¬ Shadowed r (pseudoHash parsed.request.target) :=
  (servedOnce_iff_owns hparse hpos hc).trans (responsible_iff_owns hc)

/-! ### A pair with the id 0 -/

/-- Two nodes with the ids 0 and 0x4000. -/
def pairWithZero : Ring where
  size := 2
  id := ![0, 0x4000]
  addr := ![⟨10, 0, 0, 1⟩, ⟨10, 0, 0, 2⟩]
  port := fun _ => 8080
  pos := by decide
  sorted := by decide
  distinct := by
    unfold Function.Injective
    decide

/-- A GET of a URI that is one letter, as the buffer holds it. -/
def letterGet (letter : String) : Bytes := ascii ("GET /" ++ letter ++ " HTTP/1.1\r\n\r\n\x00")

/-- Both nodes serve `/a`: node 0 owns its hash, and the other takes itself to be alone. -/
theorem served_twice : ∃ parsed, parseRequest (letterGet "a") 19 emptyRequest = .returns parsed ∧
    0 < parsed.ret ∧ parsed.request.target = ascii "/a" ∧
      ¬ ServedOnce pairWithZero pairWithZero.node (letterGet "a") 19 parsed := by
  have hparsed : (parseRequest (letterGet "a") 19 emptyRequest >>= fun parsed =>
      .returns (decide (0 < parsed.ret), parsed.request.target)) = .returns (true, ascii "/a") := by
    decide +kernel
  obtain ⟨parsed, hparse, h⟩ := Outcome.bind_eq_returns.mp hparsed
  rw [Outcome.returns.injEq, Prod.mk.injEq] at h
  have hpos := of_decide_eq_true h.1
  refine ⟨parsed, hparse, hpos, h.2, ?_⟩
  rintro ⟨i, hserved⟩
  have hserves := fun j => (hserved.serves j).mp ∘ (servesItself_iff hparse hpos (pairWithZero.node j)).mpr
  rw [h.2] at hserves
  have h0 := hserves ⟨0, by decide⟩ (by decide +kernel)
  have h1 := hserves ⟨1, by decide⟩ (by decide +kernel)
  exact absurd (h0.trans h1.symm) (by decide)

theorem servedOnce_iff_pairWithZero : ∃ parsed,
    parseRequest (letterGet "b") 19 emptyRequest = .returns parsed ∧
      (ServedOnce pairWithZero pairWithZero.node (letterGet "b") 19 parsed ↔
        ¬ Shadowed pairWithZero (pseudoHash parsed.request.target)) := by
  have hparsed : (parseRequest (letterGet "b") 19 emptyRequest >>= fun parsed =>
      .returns (decide (0 < parsed.ret))) = .returns true := by
    decide +kernel
  obtain ⟨parsed, hparse, hpos⟩ := Outcome.bind_eq_returns.mp hparsed
  rw [Outcome.returns.injEq] at hpos
  exact ⟨parsed, hparse, servedOnce_iff pairWithZero pairWithZero.node (configured_node pairWithZero) hparse
    (of_decide_eq_true hpos)⟩

end ChordDht.Chord
