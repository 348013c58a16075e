/-
A ring of nodes that know their neighbours.

`Ring` lists the nodes by increasing id.  Every node is configured with its own id
and address and with those of its neighbours in that order, wrapping at the ends.
No two processes can be bound to one address, so addresses are distinct.

`Owns i h` is the abstract responsibility: `h` is on the arc that ends at node `i`.
`isResponsible` decides it, and every hash has exactly one owner.  What a node does with
a LOOKUP is said once, in `handleDatagram_lookup`.
-/
import ChordDht.Lib.Arc
import ChordDht.Chord.Webserver

namespace ChordDht.Chord

open Arc

structure Ring where
  size : Nat
  id : Fin size → UInt16
  addr : Fin size → InAddr
  port : Fin size → UInt16
  pos : 0 < size
  sorted : StrictMono fun i => (id i).toNat
  distinct : Function.Injective fun i => (addr i, port i)

namespace Ring

variable (r : Ring)

/-- A node as the others know it. -/
def peer (i : Fin r.size) : ChordPeer := ⟨r.id i, inetNtop (r.addr i), r.port i⟩

/-- The freshly started node `i`. -/
def node (i : Fin r.size) : Node where
  selfId := r.id i
  successor := r.peer (next i)
  predecessor := r.peer (prev i)
  selfIp := inetNtop (r.addr i)
  selfPort := r.port i
  haveReply := false
  replyPeer := ⟨0, [], 0⟩
  replyPrevId := 0
  resources := initialResources

/-- Node `i` is responsible for the hash: it is in `(predecessor id, own id]`, cyclically. -/
def Owns (i : Fin r.size) (h : UInt16) : Prop :=
  OnArc (r.id (prev i)).toNat (r.id i).toNat h.toNat

/-- The REPLY that names node `i`. -/
def replyNaming (i : Fin r.size) : Message := ⟨1, r.id (prev i), r.id i, r.addr i, r.port i⟩

end Ring

/-- A node that still has the configuration of node `i`. -/
structure Configured (r : Ring) (i : Fin r.size) (node : Node) : Prop where
  selfId : node.selfId = r.id i
  successor : node.successor = r.peer (next i)
  predecessor : node.predecessor = r.peer (prev i)
  selfIp : node.selfIp = inetNtop (r.addr i)
  selfPort : node.selfPort = r.port i

theorem configured_node (r : Ring) (i : Fin r.size) : Configured r i (r.node i) :=
  ⟨rfl, rfl, rfl, rfl, rfl⟩

/-! ### Responsibility is ownership -/

theorem isResponsible_iff (h s p : UInt16) :
    isResponsible h s p = true ↔ OnArc p.toNat s.toNat h.toNat := by
  unfold isResponsible OnArc
  by_cases hps : p < s
  · rw [if_pos hps, if_pos (UInt16.lt_iff_toNat_lt.mp hps)]
    simp [UInt16.lt_iff_toNat_lt, UInt16.le_iff_toNat_le]
  · rw [if_neg hps, if_neg (fun hc => hps (UInt16.lt_iff_toNat_lt.mpr hc))]
    simp [UInt16.lt_iff_toNat_lt, UInt16.le_iff_toNat_le]

namespace Ring

variable {r : Ring}

/-- **Every hash has exactly one owner.** -/
theorem existsUnique_owns (r : Ring) (h : UInt16) : ∃! i, r.Owns i h :=
  existsUnique_onArc r.sorted r.pos h.toNat

theorem owns_unique {i j : Fin r.size} {h : UInt16} (hi : r.Owns i h) (hj : r.Owns j h) : i = j :=
  (r.existsUnique_owns h).unique hi hj

theorem id_injective (r : Ring) : Function.Injective r.id := by
  intro i j h
  exact r.sorted.injective (congrArg UInt16.toNat h)

theorem addr_unique {i j : Fin r.size} (haddr : r.addr i = r.addr j) (hport : r.port i = r.port j) :
    i = j :=
  r.distinct (Prod.ext haddr hport)

end Ring

section Tests

variable {r : Ring} {i : Fin r.size} {node : Node}

/-- The first responsibility test of a node asks whether it is the owner. -/
theorem Configured.self_test (hc : Configured r i node) (h : UInt16) :
    isResponsible h node.selfId node.predecessor.id = true ↔ r.Owns i h := by
  rw [isResponsible_iff, hc.selfId, hc.predecessor]
  exact Iff.rfl

/-- The second one asks whether its successor is. -/
theorem Configured.successor_test (hc : Configured r i node) (h : UInt16) :
    isResponsible h node.successor.id node.selfId = true ↔ r.Owns (next i) h := by
  rw [isResponsible_iff, hc.selfId, hc.successor, Ring.Owns, prev_next]
  exact Iff.rfl

end Tests

/-! ### Messages -/

theorem readBe16_be16 (w : UInt16) :
    readBe16 (UInt8.ofNat (w.toNat / 256)) (UInt8.ofNat (w.toNat % 256)) = w := by
  have hw := UInt16.toNat_lt w
  apply UInt16.toNat_inj.mp
  rw [readBe16, UInt16.toNat_ofNat', UInt8.toNat_ofNat', UInt8.toNat_ofNat']
  omega

/-- **A message is read back, whatever follows its 11 bytes.** -/
@[simp] theorem Message.read_bytes (m : Message) (rest : Bytes) :
    Message.read (m.bytes ++ rest) = some m := by
  simp only [Message.bytes, be16, InAddr.bytes, List.cons_append, List.nil_append, Message.read,
    readBe16_be16]

@[simp] theorem Message.bytes_length (m : Message) : m.bytes.length = 11 := rfl

@[simp] theorem Message.bytes_inj {m m' : Message} : m.bytes = m'.bytes ↔ m = m' := by
  constructor
  · intro h
    have hm := Message.read_bytes m []
    rw [h, Message.read_bytes] at hm
    exact (Option.some.inj hm).symm
  · exact congrArg Message.bytes

/-- The text of an address survives its copy into a buffer of the right size. -/
@[simp] theorem strncpy_inetNtop (q : InAddr) :
    strncpy (inetNtop q) (inetAddrStrLen - 1) = inetNtop q := by
  have hzero : (0 : UInt8) ∉ inetNtop q := by
    have hdec : ∀ n, (0 : UInt8) ∉ decimal n := by
      intro n h
      exact absurd (isDigit_of_mem_decimal n 0 h) (by decide)
    simp [inetNtop, hdec]
  have hlen := inetNtop_length_lt q
  rw [strncpy, cstr_eq_self hzero, List.take_of_length_le]
  omega

@[simp] theorem addressOf_inetNtop (q : InAddr) : addressOf (inetNtop q) = q := by
  rw [addressOf, inetPton_inetNtop]
  rfl

@[simp] theorem sendTo_inetNtop (q : InAddr) (port : UInt16) (bytes : Bytes) :
    sendTo (inetNtop q) port bytes = [⟨q, port, bytes⟩] := by
  rw [sendTo, inetPton_inetNtop]

/-! ### What a node does with a message -/

section Handle

variable {r : Ring} {i : Fin r.size} {node : Node}

/-- **A LOOKUP leaves the node as it was and sends one datagram**: the REPLY naming the
owner, to whoever asks, if the owner is this node or its successor, and otherwise the
same 11 bytes to the successor. -/
theorem handleDatagram_lookup (hc : Configured r i node) {m : Message} (hm : m.flags = 0)
    (rest : Bytes) :
    (r.Owns i m.id ∧
      handleDatagram node (m.bytes ++ rest)
        = (node, [⟨m.ip, m.port, (r.replyNaming i).bytes⟩])) ∨
    (¬ r.Owns i m.id ∧ r.Owns (next i) m.id ∧
      handleDatagram node (m.bytes ++ rest)
        = (node, [⟨m.ip, m.port, (r.replyNaming (next i)).bytes⟩])) ∨
    (¬ r.Owns i m.id ∧ ¬ r.Owns (next i) m.id ∧
      handleDatagram node (m.bytes ++ rest)
        = (node, [⟨r.addr (next i), r.port (next i), m.bytes⟩])) := by
  have htake : (m.bytes ++ rest).take 11 = m.bytes := List.take_left' m.bytes_length
  by_cases hself : r.Owns i m.id
  · refine Or.inl ⟨hself, ?_⟩
    simp only [handleDatagram, Message.read_bytes, hm, if_true]
    rw [if_pos ((hc.self_test m.id).mpr hself), hc.predecessor, hc.selfId, hc.selfIp, hc.selfPort,
      strncpy_inetNtop, sendTo_inetNtop, addressOf_inetNtop]
    rfl
  · have hself' := fun h => hself ((hc.self_test m.id).mp h)
    by_cases hsucc : r.Owns (next i) m.id
    · refine Or.inr (Or.inl ⟨hself, hsucc, ?_⟩)
      simp only [handleDatagram, Message.read_bytes, hm, if_true]
      rw [if_neg hself', if_pos ((hc.successor_test m.id).mpr hsucc), hc.selfId, hc.successor,
        strncpy_inetNtop, sendTo_inetNtop, Ring.peer, addressOf_inetNtop, Ring.replyNaming, prev_next]
    · have hsucc' := fun h => hsucc ((hc.successor_test m.id).mp h)
      refine Or.inr (Or.inr ⟨hself, hsucc, ?_⟩)
      simp only [handleDatagram, Message.read_bytes, hm, if_true]
      rw [if_neg hself', if_neg hsucc', htake, hc.successor, Ring.peer, sendTo_inetNtop]

/-- A REPLY is remembered and sends nothing. -/
theorem handleDatagram_reply (node : Node) {m : Message} (hm : m.flags = 1) (rest : Bytes) :
    handleDatagram node (m.bytes ++ rest) =
      ({ node with
          haveReply := true
          replyPrevId := m.id
          replyPeer := ⟨m.peerId, inetNtop m.ip, m.port⟩ }, []) := by
  have hne : ¬ m.flags = 0 := by rw [hm]; decide
  simp only [handleDatagram, Message.read_bytes, if_neg hne, if_pos hm, strncpy_inetNtop]

end Handle

/-! ### A small ring to try things on -/

/-- Three nodes, one machine each. -/
def threeNodes : Ring where
  size := 3
  id := ![0x1000, 0x8000, 0xF000]
  addr := ![⟨10, 0, 0, 1⟩, ⟨10, 0, 0, 2⟩, ⟨10, 0, 0, 3⟩]
  port := fun _ => 8080
  pos := by decide
  sorted := by decide
  distinct := by
    unfold Function.Injective
    decide

end ChordDht.Chord
