/-
What a node that serves a request itself does, method by method.

The four branches of `send_reply`, each as the call of the store it makes.  Methods are
compared as whole strings, so the branches exclude each other.

A request that makes the node write outside its blocks or its reply buffer, or free a string
literal, is a fault; `answer_up` says which requests do that.
-/
import ChordDht.Lib.Trace
import ChordDht.Chord.Store
import ChordDht.Chord.Webserver

namespace ChordDht.Chord

namespace Request

variable (request : Request)

def target : Bytes := request.uri.getD []
def isGet : Prop := request.method.getD [] = ascii "GET"
def isPut : Prop := request.method.getD [] = ascii "PUT"
def isDelete : Prop := request.method.getD [] = ascii "DELETE"

instance : Decidable request.isGet := by unfold isGet; infer_instance
instance : Decidable request.isPut := by unfold isPut; infer_instance
instance : Decidable request.isDelete := by unfold isDelete; infer_instance

end Request

theorem put_ne_get : ascii "PUT" ≠ ascii "GET" := by decide
theorem delete_ne_get : ascii "DELETE" ≠ ascii "GET" := by decide
theorem delete_ne_put : ascii "DELETE" ≠ ascii "PUT" := by decide

/-- The longest value that fits a 200 reply. -/
def maxValueLength : Nat := 8151

/-- **A value fits the buffer of its reply up to 8151 bytes.** -/
theorem okText_fits_iff {n : Nat} : (okText n).length + n ≤ httpMaxSize ↔ n ≤ maxValueLength := by
  have hframe : (ascii "HTTP/1.1 200 OK\r\nContent-Length: ").length = 33 := by decide
  have hend : (ascii "\r\n\r\n").length = 4 := by decide
  have hdigits : (decimal n).length ≤ 3 ↔ n < 1000 := decimal_length_le_iff (by omega)
  have hdigits' : (decimal n).length ≤ 4 ↔ n < 10000 := decimal_length_le_iff (by omega)
  rw [okText, List.length_append, List.length_append, hframe, hend, httpMaxSize, maxValueLength]
  omega

section Methods

variable {request : Request} (table : Table)

theorem sendReply_found (hget : request.isGet) {block : Block} {n : Nat}
    (hfound : get request.target table.tuples = some (block, n)) :
    sendReply request table = if maxValueLength < n then .faults
      else .returns (.ok n (block.cells.take n), table) := by
  have hfits : httpMaxSize < (okText n).length + n ↔ maxValueLength < n := by
    rw [← Nat.not_le, okText_fits_iff, Nat.not_le]
  unfold Request.isGet at hget
  unfold Request.target at hfound
  simp only [sendReply, if_pos hget, hfound, hfits]

theorem sendReply_missing (hget : request.isGet) (hfound : get request.target table.tuples = none) :
    sendReply request table = .returns (.notFound, table) := by
  unfold Request.isGet at hget
  unfold Request.target at hfound
  simp only [sendReply, if_pos hget, hfound]

theorem sendReply_put (hput : request.isPut) {existed : Bool} {table' : Table}
    (hset : set request.target request.payload request.payloadLength.toNat table = (existed, table')) :
    sendReply request table = if table.heap.damaged table'.heap then .faults
      else .returns (if existed then .noContent else .created, table') := by
  unfold Request.isPut at hput
  unfold Request.target at hset
  have hget : request.method.getD [] ≠ ascii "GET" := by
    rw [hput]
    exact put_ne_get
  simp only [sendReply, if_neg hget, if_pos hput, hset]

theorem sendReply_delete (hdelete : request.isDelete) {existed : Bool} {table' : Table}
    (hset : delete request.target table = (existed, table')) :
    sendReply request table = if table.heap.damaged table'.heap then .faults
      else .returns (if existed then .noContent else .deleteNotFound, table') := by
  unfold Request.isDelete at hdelete
  unfold Request.target at hset
  have hget : request.method.getD [] ≠ ascii "GET" := by
    rw [hdelete]
    exact delete_ne_get
  have hput : request.method.getD [] ≠ ascii "PUT" := by
    rw [hdelete]
    exact delete_ne_put
  simp only [sendReply, if_neg hget, if_neg hput, if_pos hdelete, hset]

theorem sendReply_other (hget : ¬ request.isGet) (hput : ¬ request.isPut)
    (hdelete : ¬ request.isDelete) :
    sendReply request table = .returns (.methodNotSupported, table) := by
  unfold Request.isGet at hget
  unfold Request.isPut at hput
  unfold Request.isDelete at hdelete
  simp only [sendReply, if_neg hget, if_neg hput, if_neg hdelete]

/-- What serving a request comes to, method by method. -/
inductive Served (request : Request) (table : Table) : Outcome (Reply × Table) → Prop
  | missing (hget : request.isGet) (hput : ¬ request.isPut) (hdelete : ¬ request.isDelete)
      (hfound : get request.target table.tuples = none) :
      Served request table (.returns (.notFound, table))
  | found (hget : request.isGet) (hput : ¬ request.isPut) (hdelete : ¬ request.isDelete) (block : Block)
      (n : Nat) (hfound : get request.target table.tuples = some (block, n)) (hfits : n ≤ maxValueLength) :
      Served request table (.returns (.ok n (block.cells.take n), table))
  | overrun (hget : request.isGet) (hput : ¬ request.isPut) (hdelete : ¬ request.isDelete) (block : Block)
      (n : Nat) (hfound : get request.target table.tuples = some (block, n)) (hlong : maxValueLength < n) :
      Served request table .faults
  | put (hget : ¬ request.isGet) (hput : request.isPut) (hdelete : ¬ request.isDelete) (existed : Bool)
      (after : Table)
      (hset : set request.target request.payload request.payloadLength.toNat table = (existed, after))
      (hsound : table.heap.damaged after.heap = false) :
      Served request table (.returns (if existed then .noContent else .created, after))
  | putDamaged (hget : ¬ request.isGet) (hput : request.isPut) (hdelete : ¬ request.isDelete)
      (hdamaged : table.heap.damaged
        (set request.target request.payload request.payloadLength.toNat table).2.heap = true) :
      Served request table .faults
  | delete (hget : ¬ request.isGet) (hput : ¬ request.isPut) (hdelete : request.isDelete) (existed : Bool)
      (after : Table) (hset : Chord.delete request.target table = (existed, after))
      (hsound : table.heap.damaged after.heap = false) :
      Served request table (.returns (if existed then .noContent else .deleteNotFound, after))
  | deleteDamaged (hget : ¬ request.isGet) (hput : ¬ request.isPut) (hdelete : request.isDelete)
      (hdamaged : table.heap.damaged (Chord.delete request.target table).2.heap = true) :
      Served request table .faults
  | other (hget : ¬ request.isGet) (hput : ¬ request.isPut) (hdelete : ¬ request.isDelete) :
      Served request table (.returns (.methodNotSupported, table))

/-- **The methods exclude each other**, and each makes its own call of the store. -/
theorem sendReply_served (request : Request) (table : Table) :
    Served request table (sendReply request table) := by
  by_cases hget : request.isGet
  · have hput : ¬ request.isPut := fun hc => put_ne_get (hc.symm.trans hget)
    have hdelete : ¬ request.isDelete := fun hc => delete_ne_get (hc.symm.trans hget)
    cases hfound : get request.target table.tuples with
    | none =>
        rw [sendReply_missing table hget hfound]
        exact .missing hget hput hdelete hfound
    | some found =>
        obtain ⟨block, n⟩ := found
        rw [sendReply_found table hget hfound]
        by_cases hlong : maxValueLength < n
        · rw [if_pos hlong]
          exact .overrun hget hput hdelete block n hfound hlong
        · rw [if_neg hlong]
          exact .found hget hput hdelete block n hfound (Nat.le_of_not_lt hlong)
  · by_cases hput : request.isPut
    · have hdelete : ¬ request.isDelete := fun hc => delete_ne_put (hc.symm.trans hput)
      cases hset : set request.target request.payload request.payloadLength.toNat table with
      | mk existed after =>
          rw [sendReply_put table hput hset]
          cases hdamaged : table.heap.damaged after.heap with
          | true => exact .putDamaged hget hput hdelete (by rw [hset, hdamaged])
          | false => exact .put hget hput hdelete existed after hset hdamaged
    · by_cases hdelete : request.isDelete
      · cases hset : delete request.target table with
        | mk existed after =>
            rw [sendReply_delete table hdelete hset]
            cases hdamaged : table.heap.damaged after.heap with
            | true => exact .deleteDamaged hget hput hdelete (by rw [hset, hdamaged])
            | false => exact .delete hget hput hdelete existed after hset hdamaged
      · rw [sendReply_other table hget hput hdelete]
        exact .other hget hput hdelete

/-- The replies that come from a table. -/
def Reply.fromTable : Reply → Bool
  | .seeOther .. | .serviceUnavailable | .badRequest => false
  | _ => true

theorem sendReply_fromTable {request : Request} {table : Table} {reply : Reply} {table' : Table}
    (h : sendReply request table = .returns (reply, table')) : reply.fromTable = true := by
  have hserved := sendReply_served request table
  rw [h] at hserved
  cases hserved with
  | missing | found | other => rfl
  | put _ _ _ existed | delete _ _ _ existed =>
      cases existed with
      | true => rfl
      | false => rfl

end Methods

/-- Answering from the node's own table changes nothing but the table. -/
theorem answer_local {node : Node} {request : Request}
    (hr : node.responsible (pseudoHash request.target) = true) {reply : Reply} {table : Table}
    (h : sendReply request node.resources = .returns (reply, table)) :
    node.answer request = .returns ⟨{ node with resources := table }, [reply], []⟩ := by
  unfold Request.target at hr
  simp only [Node.answer, hr, if_true, h]
  rfl

/-- An answer of a responsible node comes from its table. -/
theorem answer_served {node : Node} {request : Request} {answer : Answer}
    (hr : node.responsible (pseudoHash request.target) = true) (h : node.answer request = .returns answer) :
    ∃ reply table, sendReply request node.resources = .returns (reply, table) ∧
      answer = ⟨{ node with resources := table }, [reply], []⟩ := by
  unfold Request.target at hr
  simp only [Node.answer, hr, if_true] at h
  obtain ⟨⟨reply, table⟩, hreply, h⟩ := Outcome.bind_eq_returns.mp h
  rw [Outcome.pure_eq, Outcome.returns.injEq] at h
  exact ⟨reply, table, hreply, h.symm⟩

/-- Where that goes wrong the node goes down. -/
theorem answer_local_faults {node : Node} {request : Request}
    (hr : node.responsible (pseudoHash request.target) = true) (h : sendReply request node.resources = .faults) :
    node.answer request = .faults := by
  unfold Request.target at hr
  simp only [Node.answer, hr, if_true, h]
  rfl

/-- A node that is not responsible delegates. -/
theorem answer_delegated {node : Node} {request : Request}
    (hr : ¬ node.responsible (pseudoHash request.target) = true) :
    node.answer request = .returns (node.delegate request.target (pseudoHash request.target)) := by
  unfold Request.target at hr ⊢
  simp only [Node.answer, hr]
  rfl

/-- It keeps its table. -/
theorem delegate_resources (node : Node) (uri : Bytes) (h : UInt16) :
    (node.delegate uri h).node.resources = node.resources := by
  unfold Node.delegate
  repeat' split
  all_goals rfl

/-- So does a node that is sent a datagram. -/
theorem handleDatagram_resources (node : Node) (bytes : Bytes) :
    (handleDatagram node bytes).1.resources = node.resources := by
  unfold handleDatagram
  repeat' split
  all_goals rfl

/-- None of the replies of a node that delegates comes from a table. -/
theorem delegate_fromTable (node : Node) (uri : Bytes) (h : UInt16) :
    (node.delegate uri h).replies.find? Reply.fromTable = none := by
  unfold Node.delegate
  repeat' split
  all_goals rfl

/-- What a packet does with a request that parses is what the node answers. -/
theorem processPacket_parsed {mem : Bytes} {n : Nat} {parsed : Parse}
    (hparse : parseRequest mem n emptyRequest = .returns parsed) (hpos : 0 < parsed.ret) (node : Node) :
    processPacket node mem n = (do
      let answer ← node.answer parsed.request
      return ⟨if closesAfter parsed.request then -1 else parsed.ret, parsed.buffer, parsed.request, answer⟩) := by
  unfold processPacket
  rw [hparse, Outcome.returns_bind, if_pos hpos]

theorem processPacket_faults {mem : Bytes} {n : Nat} {parsed : Parse}
    (hparse : parseRequest mem n emptyRequest = .returns parsed) (hpos : 0 < parsed.ret) {node : Node}
    (hanswer : node.answer parsed.request = .faults) : processPacket node mem n = .faults := by
  rw [processPacket_parsed hparse hpos, hanswer]
  rfl

/-- The node after a request, if it is still up. -/
def Node.next (node : Node) (request : Request) : Option Node :=
  match node.answer request with
  | .returns answer => some answer.node
  | _ => none

/-- The table can serve the request without damage to memory: a value that is asked for fits its
reply, and what is written and freed are blocks of the table. -/
structure Request.Harmless (request : Request) (table : Table) : Prop where
  get : request.isGet → ∀ found ∈ get request.target table.tuples, found.2 ≤ maxValueLength
  put : request.isPut →
    SetContained request.target request.payload request.payloadLength.toNat table.tuples
  delete : request.isDelete → TupleOwned request.target table.tuples

theorem harmless_iff {request : Request} {table : Table} : request.Harmless table ↔
    (request.isGet → ∀ found ∈ get request.target table.tuples, found.2 ≤ maxValueLength) ∧
      (request.isPut →
        SetContained request.target request.payload request.payloadLength.toNat table.tuples) ∧
      (request.isDelete → TupleOwned request.target table.tuples) :=
  ⟨fun h => ⟨h.get, h.put, h.delete⟩, fun h => ⟨h.1, h.2.1, h.2.2⟩⟩

instance (request : Request) (table : Table) : Decidable (request.Harmless table) :=
  decidable_of_iff' _ harmless_iff

/-- The node does no damage to its memory when it serves the request itself. -/
def Node.withstands (node : Node) (request : Request) : Prop :=
  node.responsible (pseudoHash request.target) = true → request.Harmless node.resources

instance (node : Node) (request : Request) : Decidable (node.withstands request) := by
  unfold Node.withstands; infer_instance

/-- **What is served from a sound table** is served exactly where that does no damage. -/
theorem sendReply_up {table : Table} {request : Request} (hup : table.heap.badFree = false) :
    (∃ reply table', sendReply request table = .returns (reply, table') ∧ table'.heap.badFree = false) ∧
      request.Harmless table ∨
    sendReply request table = .faults ∧ ¬ request.Harmless table := by
  have hset := @set_damaged_iff request.target request.payload request.payloadLength.toNat table
  have hdel := @delete_damaged_iff request.target table
  have hserved := sendReply_served request table
  generalize sendReply request table = outcome at hserved ⊢
  cases hserved with
  | missing _ hput hdelete hmissing =>
      refine Or.inl ⟨⟨_, _, rfl, hup⟩, ?_, fun hc => absurd hc hput, fun hc => absurd hc hdelete⟩
      intro _ found hfound
      rw [hmissing] at hfound
      cases hfound
  | found _ hput hdelete block n hfound hfits =>
      refine Or.inl ⟨⟨_, _, rfl, hup⟩, ?_, fun hc => absurd hc hput, fun hc => absurd hc hdelete⟩
      intro _ found hfound'
      rw [← Option.some.inj (hfound.symm.trans hfound')]
      exact hfits
  | overrun hget _ _ block n hfound hlong =>
      refine Or.inr ⟨rfl, fun hc => ?_⟩
      have hfits : n ≤ maxValueLength := hc.get hget _ hfound
      omega
  | put hget _ hdelete existed after hcall hsound =>
      rw [hcall] at hset
      exact Or.inl ⟨⟨_, _, rfl, (damaged_eq_false_iff.mp hsound).1⟩, fun hc => absurd hc hget,
        fun _ => (hset.mp hsound).2, fun hc => absurd hc hdelete⟩
  | putDamaged _ hput _ hdamaged =>
      refine Or.inr ⟨rfl, fun hc => ?_⟩
      rw [hset.mpr ⟨hup, hc.put hput⟩] at hdamaged
      exact Bool.noConfusion hdamaged
  | delete hget hput _ existed after hcall hsound =>
      rw [hcall] at hdel
      exact Or.inl ⟨⟨_, _, rfl, (damaged_eq_false_iff.mp hsound).1⟩, fun hc => absurd hc hget,
        fun hc => absurd hc hput, fun _ => (hdel.mp hsound).2⟩
  | deleteDamaged _ _ hdelete hdamaged =>
      refine Or.inr ⟨rfl, fun hc => ?_⟩
      rw [hdel.mpr ⟨hup, hc.delete hdelete⟩] at hdamaged
      exact Bool.noConfusion hdamaged
  | other hget hput hdelete =>
      exact Or.inl ⟨⟨_, _, rfl, hup⟩, fun hc => absurd hc hget, fun hc => absurd hc hput,
        fun hc => absurd hc hdelete⟩

/-- **A node that is up stays up exactly when it withstands the request.** -/
theorem answer_up {node : Node} {request : Request} (hfree : node.resources.heap.badFree = false) :
    (∃ answer, node.answer request = .returns answer ∧
        answer.node.resources.heap.badFree = false) ∧ node.withstands request ∨
      node.answer request = .faults ∧ ¬ node.withstands request := by
  by_cases hr : node.responsible (pseudoHash request.target) = true
  · rcases @sendReply_up node.resources request hfree with
      ⟨⟨reply, table, hreply, hup⟩, hharmless⟩ | ⟨hdown, hnot⟩
    · exact Or.inl ⟨⟨_, answer_local hr hreply, hup⟩, fun _ => hharmless⟩
    · exact Or.inr ⟨answer_local_faults hr hdown, fun hc => hnot (hc hr)⟩
  · refine Or.inl ⟨⟨_, answer_delegated hr, ?_⟩, fun hc => absurd hc hr⟩
    rw [delegate_resources]
    exact hfree

/-- What a PUT stores is found. -/
theorem sendReply_put_get {request : Request} {table table' : Table} {reply : Reply}
    (h : sendReply request table = .returns (reply, table')) (hput : request.isPut)
    (hroom : HasRoom request.target table.tuples) :
    ∃ block, get request.target table'.tuples = some (block, request.payloadLength.toNat) := by
  have hstored := set_stored request.payload request.payloadLength.toNat hroom
  have hserved := sendReply_served request table
  rw [h] at hserved
  cases hserved with
  | put _ _ _ existed after hset _ =>
      rw [hset] at hstored
      obtain ⟨block, hget, -⟩ := hstored
      exact ⟨block, hget⟩
  | missing _ hnot _ _ => exact absurd hput hnot
  | found _ hnot _ _ _ _ => exact absurd hput hnot
  | delete _ hnot _ _ _ _ _ => exact absurd hput hnot
  | other _ hnot _ => exact absurd hput hnot

/-! ### Redirects -/

/-- A redirect is not cut by the buffer it is put together in. -/
def Reply.Whole : Reply → Prop
  | .seeOther ip port uri => (seeOtherText ip port uri).length < httpMaxSize
  | _ => True

/-- The bytes of a 303 reply that are there for the address and the URI. -/
def maxLocationLength : Nat := 8126

theorem seeOtherText_length (ip : Bytes) (port : UInt16) (uri : Bytes) :
    (seeOtherText ip port uri).length = 65 + (ip.length + (decimal port.toNat).length + uri.length) := by
  have hhead : (ascii "HTTP/1.1 303 See Other\r\nLocation: http://").length = 41 := by decide
  have hcolon : (ascii ":").length = 1 := by decide
  have hend : (ascii "\r\nContent-Length: 0\r\n\r\n").length = 23 := by decide
  simp only [seeOtherText, List.length_append, hhead, hcolon, hend]
  omega

/-- **A redirect is not cut if address and URI have at most 8126 bytes.** -/
theorem seeOther_whole_iff {ip : Bytes} {port : UInt16} {uri : Bytes} :
    (Reply.seeOther ip port uri).Whole ↔
      ip.length + (decimal port.toNat).length + uri.length ≤ maxLocationLength := by
  show (seeOtherText ip port uri).length < httpMaxSize ↔ _
  rw [seeOtherText_length, httpMaxSize, maxLocationLength]
  omega

/-- Where the client is sent that asks for a URI of another node. -/
def Node.redirectPeer (node : Node) : Option ChordPeer :=
  if node.successor.id = node.predecessor.id then some node.successor
  else if node.haveReply then some node.replyPeer
  else none

/-- A redirect for this URI, if there is one, has room for it. -/
def Node.redirectFits (node : Node) (uri : Bytes) : Prop :=
  ∀ peer ∈ node.redirectPeer,
    peer.ip.length + (decimal peer.port.toNat).length + uri.length ≤ maxLocationLength

instance (node : Node) (uri : Bytes) : Decidable (node.redirectFits uri) := by
  unfold Node.redirectFits; infer_instance

/-- **A request for another node's URI is answered whole exactly if the redirect is short.** -/
theorem delegate_whole_iff (node : Node) (uri : Bytes) (uriHash : UInt16) :
    (∀ reply ∈ (node.delegate uri uriHash).replies, reply.Whole) ↔ node.redirectFits uri := by
  unfold Node.delegate Node.redirectFits Node.redirectPeer
  split
  · simp [seeOther_whole_iff]
  · split
    · simp [seeOther_whole_iff]
    · split
      · simp [Reply.Whole]
      · simp [Reply.Whole]

/-- The node can answer the request in full: from its own table without damage, or with a
redirect that has room for the URI. -/
def Node.answersWhole (node : Node) (request : Request) : Prop :=
  if node.responsible (pseudoHash request.target) then request.Harmless node.resources
  else node.redirectFits request.target

instance (node : Node) (request : Request) : Decidable (node.answersWhole request) := by
  unfold Node.answersWhole; infer_instance

/-- **A request is answered in full exactly where that can be done.** -/
theorem answer_whole_iff {node : Node} {request : Request} (hfree : node.resources.heap.badFree = false) :
    (∃ answer, node.answer request = .returns answer ∧ ∀ reply ∈ answer.replies, reply.Whole) ↔
      node.answersWhole request := by
  unfold Node.answersWhole
  by_cases hr : node.responsible (pseudoHash request.target) = true
  · rw [if_pos hr]
    rcases @sendReply_up node.resources request hfree with
      ⟨⟨reply, table, hreply, -⟩, hharmless⟩ | ⟨hdown, hnot⟩
    · refine iff_of_true ⟨_, answer_local hr hreply, ?_⟩ hharmless
      intro reply' hreply'
      have htable := sendReply_fromTable hreply
      rw [List.mem_singleton.mp hreply']
      cases reply with
      | seeOther => cases htable
      | _ => trivial
    · refine iff_of_false ?_ hnot
      rintro ⟨answer, hanswer, -⟩
      rw [answer_local_faults hr hdown] at hanswer
      cases hanswer
  · rw [if_neg hr, answer_delegated hr, ← delegate_whole_iff]
    constructor
    · rintro ⟨answer, hanswer, hwhole⟩
      rw [← Outcome.returns.inj hanswer] at hwhole
      exact hwhole
    · intro hwhole
      exact ⟨_, rfl, hwhole⟩

/-- A node that was started without neighbours, so that all URIs are its own. -/
def loneNode : Node where
  selfId := 0
  successor := ⟨0, [], 0⟩
  predecessor := ⟨0, [], 0⟩
  selfIp := ascii "127.0.0.1"
  selfPort := 8080
  haveReply := false
  replyPeer := ⟨0, [], 0⟩
  replyPrevId := 0
  resources := initialResources

end ChordDht.Chord
