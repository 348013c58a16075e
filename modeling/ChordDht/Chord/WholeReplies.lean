/-
Whether a client gets the whole of a reply.

`send_reply` puts a status line, a length and the stored value into `HTTP_MAX_SIZE` bytes
without a look at the length, and a redirect is cut to one byte less than that.  The
bytes that frame an upload bound the value that can come in and the bytes that frame a
reply bound the value that can go out, and the two differ: a plain upload gets by with
40 bytes and a reply needs 41.

`replies_complete_iff` is about every run of one node: its replies are whole, and would be
in each state it comes to, exactly if no value of more than 8151 bytes is stored and no
redirect is for a target that is too long for the buffer, or that has a zero byte in it, at
which the string that is sent ends.
-/
import ChordDht.Chord.Durable
import ChordDht.Chord.Redirects
import ChordDht.Chord.Wire

namespace ChordDht.Chord

open Trace

/-- What the reply to a request for this target should be: a 200 reply has its whole value and fits
the buffer it is put together in, and a 303 reply has the whole target behind the address and
all that comes after it. -/
def Reply.CompleteFor (target : Bytes) : Reply → Prop
  | .ok length body => body.length = length ∧ (Reply.ok length body).wire.length ≤ httpMaxSize
  | .seeOther ip port uri =>
      (Reply.seeOther ip port uri).wire = (seeOtherText ip port target).map some
  | _ => True

/-! ### Runs of a node -/

/-- What a parse starts from: the connection buffer from the parse position on, and how many
of its bytes have been received. -/
structure Unparsed where
  mem : Bytes
  n : Nat
  room : mem.length ≤ httpMaxSize
  filled : n ≤ mem.length

inductive Input where
  | packet (u : Unparsed)
  | datagram (bytes : Bytes)

/-- A node and all it has replied, each reply with the target that was asked for as it was received. -/
structure Service where
  node : Node
  exchanges : List (Bytes × Reply)

namespace Service

/-- The node with the table it is started with. -/
def start (node : Node) : Service := ⟨{ node with resources := initialResources }, []⟩

def step (s : Service) : Input → Option Service
  | .packet u =>
      match processPacket s.node u.mem u.n with
      | .returns packet => some ⟨packet.answer.node,
          s.exchanges ++ packet.answer.replies.map fun reply => (receivedTarget u.mem, reply)⟩
      | _ => none
  | .datagram bytes => some ⟨(handleDatagram s.node bytes).1, s.exchanges⟩

/-- Every reply so far was whole, and any GET would be answered, and in full. -/
structure Complete (s : Service) : Prop where
  sent : ∀ e ∈ s.exchanges, e.2.CompleteFor e.1
  stored : ∀ request : Request, request.isGet →
    ∃ reply table, sendReply request s.node.resources = .returns (reply, table) ∧
      reply.CompleteFor request.target

end Service

/-- The request does not store too long a value, and its target is not too long to be redirected
and has no zero byte. -/
def Node.replyFits (node : Node) (target : Bytes) (request : Request) : Prop :=
  if node.responsible (pseudoHash request.target) then
    request.isPut → HasRoom request.target node.resources.tuples →
      request.payloadLength.toNat ≤ maxValueLength
  else
    ∀ peer ∈ node.redirectPeer, (0 : UInt8) ∉ target ∧
      peer.ip.length + (decimal peer.port.toNat).length + target.length ≤ maxLocationLength

/-- The request that is accepted, if one is, fits. -/
def Input.Fits (s : Service) : Input → Prop
  | .packet u => ∀ parsed, parseRequest u.mem u.n emptyRequest = .returns parsed →
      0 < parsed.ret → s.node.replyFits (receivedTarget u.mem) parsed.request
  | .datagram _ => True

/-! ### Single replies -/

/-- **A value fits its reply up to 8151 bytes.** -/
theorem ok_complete_iff {target : Bytes} {n : Nat} {cells : List Cell} :
    (Reply.ok n (cells.take n)).CompleteFor target ↔ n ≤ cells.length ∧ n ≤ maxValueLength := by
  have hwhole : (cells.take n).length = n ↔ n ≤ cells.length := by
    rw [List.length_take]
    omega
  show (cells.take n).length = n ∧ _ ≤ httpMaxSize ↔ _
  rw [hwhole]
  refine and_congr_right ?_
  intro hn
  rw [Reply.wire, List.length_append, List.length_map, hwhole.mpr hn, okText_fits_iff]

/-- **A redirect has the whole target** if that has no zero byte and is not cut. -/
theorem seeOther_complete_iff {ip : Bytes} {port : UInt16} {target : Bytes} :
    (Reply.seeOther ip port (cstr target)).CompleteFor target ↔ (0 : UInt8) ∉ target ∧
      ip.length + (decimal port.toNat).length + target.length ≤ maxLocationLength := by
  have hprefix : cstr target <+: target := List.takeWhile_prefix _
  have hle := hprefix.length_le
  show ((seeOtherText ip port (cstr target)).take (httpMaxSize - 1)).map some = _ ↔ _
  rw [List.map_inj_right fun _ _ h => Option.some.inj h]
  constructor
  · intro hwhole
    have hlength := congrArg List.length hwhole
    rw [List.length_take, seeOtherText_length, seeOtherText_length, httpMaxSize] at hlength
    have hsame : cstr target = target := hprefix.eq_of_length (by omega)
    refine ⟨?_, by rw [maxLocationLength]; omega⟩
    rw [← hsame]
    exact zero_notMem_cstr target
  · rintro ⟨hzero, hshort⟩
    rw [cstr_eq_self hzero, List.take_eq_self_iff, seeOtherText_length, httpMaxSize]
    rw [maxLocationLength] at hshort
    omega

/-! ### The values in the table -/

/-- Every value is in its block and short enough for a reply. -/
def ValuesFit (tuples : List Tuple) : Prop :=
  ∀ t ∈ tuples, ∀ block, t.value = some block →
    t.valueLength ≤ block.cells.length ∧ t.valueLength ≤ maxValueLength

theorem ValuesFit.set {tuples : List Tuple} (hfit : ValuesFit tuples) (i : Nat) {t : Tuple}
    (ht : ∀ block, t.value = some block →
      t.valueLength ≤ block.cells.length ∧ t.valueLength ≤ maxValueLength) :
    ValuesFit (tuples.set i t) := by
  intro t' hmem
  rcases List.mem_or_eq_of_mem_set hmem with hmem | rfl
  · exact hfit t' hmem
  · exact ht

/-- What a lookup finds is the value of a tuple. -/
theorem get_mem {key : Bytes} {tuples : List Tuple} {block : Block} {n : Nat}
    (h : get key tuples = some (block, n)) : ∃ t ∈ tuples, t.value = some block ∧ t.valueLength = n := by
  simp only [get, Option.bind_eq_bind, Option.bind_eq_some_iff, Option.some.injEq, Option.pure_def,
    Prod.mk.injEq] at h
  obtain ⟨i, -, t, ht, block', hblock, rfl, rfl⟩ := h
  exact ⟨t, List.mem_of_getElem? ht, hblock, rfl⟩

theorem valuesFit_initial : ValuesFit initialResources.tuples := by
  intro t ht block hblock
  rcases List.mem_append.mp ht with ht | ht
  · have hall : ∀ t ∈ [literalTuple (ascii "/static/foo") (ascii "Foo"),
        literalTuple (ascii "/static/bar") (ascii "Bar"), literalTuple (ascii "/static/baz") (ascii "Baz")],
        ∀ block ∈ t.value, t.valueLength ≤ block.cells.length ∧ t.valueLength ≤ maxValueLength := by
      decide +kernel
    exact hall t ht block hblock
  · rw [List.eq_of_mem_replicate ht] at hblock
    cases hblock

/-- A short value may be stored. -/
theorem ValuesFit.set_call {table : Table} (hfit : ValuesFit table.tuples) (key value : Bytes) {n : Nat}
    (hn : HasRoom key table.tuples → n ≤ maxValueLength) :
    ValuesFit (Chord.set key value n table).2.tuples := by
  have hnew : ∀ {cells : List Cell} {s : Bytes}, cells = storeCells (List.replicate n none) s →
      n ≤ cells.length := by
    intro cells s hcells
    rw [hcells, storeCells_length, List.length_replicate]
  unfold Chord.set
  cases hf : find key table.tuples with
  | some i =>
      obtain ⟨block, hblock, hcells⟩ := overwrite_block (table.tuples.getD i hole) value n table.heap
      show ValuesFit (table.tuples.set i (overwrite _ value n table.heap).1)
      rw [hblock]
      refine hfit.set i ?_
      rintro block' ⟨⟩
      exact ⟨hnew hcells, hn (Or.inl (by simp [hf]))⟩
  | none =>
      cases hi : table.tuples.findIdx? (·.key.isNone) with
      | none => exact hfit
      | some i =>
          obtain ⟨origin, block, hblock, hcells⟩ := create_block key value n table.heap
          show ValuesFit (table.tuples.set i (create key value n table.heap).1)
          rw [hblock]
          refine hfit.set i ?_
          rintro block' ⟨⟩
          exact ⟨hnew hcells, hn (Or.inr (by simp [hi]))⟩

theorem ValuesFit.delete_call {table : Table} (hfit : ValuesFit table.tuples) (key : Bytes) :
    ValuesFit (delete key table).2.tuples := by
  unfold delete
  cases find key table.tuples with
  | none => exact hfit
  | some i =>
      refine hfit.set i ?_
      intro block hblock
      cases hblock

/-! ### One request -/

/-- A served request replies in full and keeps the values short. -/
theorem sendReply_short {request : Request} {table table' : Table} {reply : Reply} (target : Bytes)
    (hfit : ValuesFit table.tuples)
    (hput : request.isPut → HasRoom request.target table.tuples →
      request.payloadLength.toNat ≤ maxValueLength)
    (h : sendReply request table = .returns (reply, table')) :
    reply.CompleteFor target ∧ ValuesFit table'.tuples := by
  have hserved := sendReply_served request table
  rw [h] at hserved
  cases hserved with
  | missing _ _ _ _ => exact ⟨trivial, hfit⟩
  | found _ _ _ block n hfound =>
      obtain ⟨t, ht, hvalue, hlength⟩ := get_mem hfound
      exact ⟨ok_complete_iff.mpr (hlength ▸ hfit t ht _ hvalue), hfit⟩
  | put _ hisPut _ existed after hset _ =>
      have hafter := hfit.set_call request.target request.payload (hput hisPut)
      rw [hset] at hafter
      refine ⟨?_, hafter⟩
      split <;> trivial
  | delete _ _ _ existed after hset _ =>
      have hafter := hfit.delete_call request.target
      rw [hset] at hafter
      refine ⟨?_, hafter⟩
      split <;> trivial
  | other _ _ _ => exact ⟨trivial, hfit⟩

/-- A GET is served from short values. -/
theorem sendReply_get_short {request : Request} {table : Table} (hfit : ValuesFit table.tuples)
    (hget : request.isGet) : ∃ reply, sendReply request table = .returns (reply, table) := by
  cases hfound : get request.target table.tuples with
  | none => exact ⟨_, sendReply_missing table hget hfound⟩
  | some found =>
      obtain ⟨block, n⟩ := found
      obtain ⟨t, ht, hvalue, hlength⟩ := get_mem hfound
      have hshort : n ≤ maxValueLength := hlength ▸ (hfit t ht _ hvalue).2
      rw [sendReply_found table hget hfound, if_neg (Nat.not_lt.mpr hshort)]
      exact ⟨_, rfl⟩

/-- A PUT that stores too long a value leaves a table with a GET that is not answered. -/
theorem sendReply_put_complete {request : Request} {table table' : Table} {reply : Reply}
    (h : sendReply request table = .returns (reply, table')) (hput : request.isPut)
    (hroom : HasRoom request.target table.tuples)
    (hgets : ∀ look : Request, look.isGet → sendReply look table' ≠ .faults) :
    request.payloadLength.toNat ≤ maxValueLength := by
  obtain ⟨block, hget⟩ := sendReply_put_get h hput hroom
  let look : Request := ⟨some (ascii "GET"), some request.target, [], [], 0⟩
  have hlook : look.isGet := rfl
  by_contra hlong
  refine hgets look hlook ?_
  rw [sendReply_found table' hlook hget, if_pos (Nat.lt_of_not_le hlong)]

/-- **A request for another node's URI is answered in full exactly if the redirect is short and the
URI has no zero byte.** -/
theorem delegate_complete_iff (node : Node) (target : Bytes) (uriHash : UInt16) :
    (∀ reply ∈ (node.delegate (cstr target) uriHash).replies, reply.CompleteFor target) ↔
      ∀ peer ∈ node.redirectPeer, (0 : UInt8) ∉ target ∧
        peer.ip.length + (decimal peer.port.toNat).length + target.length ≤ maxLocationLength := by
  unfold Node.delegate Node.redirectPeer
  split
  · simp [seeOther_complete_iff]
  · split
    · simp [seeOther_complete_iff]
    · split
      · simp [Reply.CompleteFor]
      · simp [Reply.CompleteFor]

/-! ### Runs -/

namespace Service

/-- What holds in the states that requests that fit come to. -/
structure Short (s : Service) : Prop where
  sent : ∀ e ∈ s.exchanges, e.2.CompleteFor e.1
  values : ValuesFit s.node.resources.tuples

theorem Short.complete {s : Service} (h : s.Short) : s.Complete := by
  refine ⟨h.sent, ?_⟩
  intro request hget
  obtain ⟨reply, hreply⟩ := sendReply_get_short h.values hget
  have hnotPut : ¬ request.isPut := fun hc => put_ne_get (hc.symm.trans hget)
  exact ⟨reply, _, hreply, (sendReply_short _ h.values (fun hc => absurd hc hnotPut) hreply).1⟩

theorem Complete.no_fault {s : Service} (h : s.Complete) (look : Request) (hget : look.isGet) :
    sendReply look s.node.resources ≠ .faults := by
  obtain ⟨reply, table, hreply, -⟩ := h.stored look hget
  rw [hreply]
  intro hc
  cases hc

theorem short_start (node : Node) : (start node).Short :=
  ⟨fun _ h => absurd h List.not_mem_nil, valuesFit_initial⟩

/-- The condition on the one request that was parsed. -/
theorem fits_packet_iff {s : Service} {u : Unparsed} {parsed : Parse}
    (hparse : parseRequest u.mem u.n emptyRequest = .returns parsed) (hpos : 0 < parsed.ret) :
    Input.Fits s (.packet u) ↔ s.node.replyFits (receivedTarget u.mem) parsed.request :=
  (Outcome.forall_returns hparse).trans (imp_iff_right hpos)

/-- **A request that fits keeps the values short and is answered in full.** -/
theorem answer_short {node : Node} {target : Bytes} {request : Request} {answer : Answer}
    (huri : request.target = cstr target) (hvalues : ValuesFit node.resources.tuples)
    (hfits : node.replyFits target request) (h : node.answer request = .returns answer) :
    (∀ reply ∈ answer.replies, reply.CompleteFor target) ∧ ValuesFit answer.node.resources.tuples := by
  unfold Node.replyFits at hfits
  by_cases hr : node.responsible (pseudoHash request.target) = true
  · rw [if_pos hr] at hfits
    obtain ⟨reply, table, hreply, rfl⟩ := answer_served hr h
    obtain ⟨hcomplete, hvalues'⟩ := sendReply_short target hvalues hfits hreply
    refine ⟨?_, hvalues'⟩
    intro reply' hmem
    rwa [List.mem_singleton.mp hmem]
  · rw [if_neg hr] at hfits
    rw [answer_delegated hr, Outcome.returns.injEq, huri] at h
    rw [← h, delegate_resources]
    exact ⟨(delegate_complete_iff node target _).mpr hfits, hvalues⟩

/-- **Only a request that fits leaves a node that answers in full.** -/
theorem answer_needs {node : Node} {target : Bytes} {request : Request} {answer : Answer}
    (huri : request.target = cstr target) (h : node.answer request = .returns answer)
    (hreplies : ∀ reply ∈ answer.replies, reply.CompleteFor target)
    (hgets : ∀ look : Request, look.isGet → sendReply look answer.node.resources ≠ .faults) :
    node.replyFits target request := by
  unfold Node.replyFits
  by_cases hr : node.responsible (pseudoHash request.target) = true
  · rw [if_pos hr]
    obtain ⟨reply, table, hreply, rfl⟩ := answer_served hr h
    intro hput hroom
    exact sendReply_put_complete hreply hput hroom hgets
  · rw [if_neg hr]
    rw [answer_delegated hr, Outcome.returns.injEq, huri] at h
    rw [← h] at hreplies
    exact (delegate_complete_iff node target _).mp hreplies

theorem step_short {s s' : Service} {input : Input} (hs : s.Short) (hfits : input.Fits s)
    (h : s.step input = some s') : s'.Short := by
  cases input with
  | datagram bytes =>
      rw [← Option.some.inj h]
      refine ⟨hs.sent, ?_⟩
      rw [handleDatagram_resources]
      exact hs.values
  | packet u =>
      simp only [step] at h
      split at h
      case h_2 => cases h
      case h_1 packet hpacket =>
        rw [← Option.some.inj h]
        rcases processPacket_cases hpacket with ⟨parsed, hparse, hpos, hanswer⟩ | ⟨-, hnode, -, hreplies⟩
        · have huri : parsed.request.target = cstr (receivedTarget u.mem) := by
            rw [Request.target, parseRequest_target hparse hpos, Option.getD_some]
          obtain ⟨hnew, hvalues⟩ := answer_short huri hs.values ((fits_packet_iff hparse hpos).mp hfits) hanswer
          refine ⟨?_, hvalues⟩
          intro e hmem
          rcases List.mem_append.mp hmem with hmem | hmem
          · exact hs.sent e hmem
          · obtain ⟨reply, hreply, rfl⟩ := List.mem_map.mp hmem
            exact hnew reply hreply
        · refine ⟨?_, ?_⟩
          · intro e hmem
            rcases List.mem_append.mp hmem with hmem | hmem
            · exact hs.sent e hmem
            · obtain ⟨reply, hreply, rfl⟩ := List.mem_map.mp hmem
              rw [List.mem_singleton.mp (hreplies hreply)]
              trivial
          · rw [hnode]
            exact hs.values

theorem step_needs {s s' : Service} {input : Input} (h : s.step input = some s') (hs' : s'.Complete) :
    input.Fits s := by
  cases input with
  | datagram bytes => trivial
  | packet u =>
      simp only [step] at h
      split at h
      case h_2 => cases h
      case h_1 packet hpacket =>
        rw [← Option.some.inj h] at hs'
        rcases processPacket_cases hpacket with ⟨parsed, hparse, hpos, hanswer⟩ | ⟨hnot, -⟩
        · have huri : parsed.request.target = cstr (receivedTarget u.mem) := by
            rw [Request.target, parseRequest_target hparse hpos, Option.getD_some]
          rw [fits_packet_iff hparse hpos]
          refine answer_needs huri hanswer ?_ hs'.no_fault
          intro reply hreply
          exact hs'.sent _ (List.mem_append_right _ (List.mem_map.mpr ⟨reply, hreply, rfl⟩))
        · intro parsed hparse hpos
          exact absurd hpos (hnot parsed hparse)

end Service

/-- **The replies of a run are whole in exactly the runs whose requests fit**: those that store
no value of more than 8151 bytes, and redirect no target that is too long for the buffer or has a
zero byte in it.  The inputs are whatever the connection buffer and the UDP socket may hold, in
any order. -/
theorem replies_complete_iff (node : Node) (inputs : List Input) {s : Service}
    (hrun : run Service.step (Service.start node) inputs = some s) :
    Throughout Service.step Service.Complete (Service.start node) inputs ↔
      Along Service.step (fun s input => input.Fits s) (Service.start node) inputs :=
  throughout_iff_along (fun _ hs => hs.complete) (fun _ _ _ hs hfits h => Service.step_short hs hfits h)
    (fun _ _ _ _ h hs' => Service.step_needs h hs') inputs (Service.short_start node) hrun

/-! ### An upload as long as the receive buffer -/

/-- An upload that fills the receive buffer. -/
def fullUpload : Unparsed :=
  ⟨(uploadOf 8152).wire, httpMaxSize, uploadOf_length.le, uploadOf_length.ge⟩

/-- A GET of what it stored. -/
def shortLook : Unparsed := ⟨lookUp.wire, lookUp.wire.length, by decide +kernel, Nat.le_refl _⟩

theorem Service.step_packet {s : Service} {u : Unparsed} {parsed : Parse} {answer : Answer}
    (hparse : parseRequest u.mem u.n emptyRequest = .returns parsed) (hpos : 0 < parsed.ret)
    (hanswer : s.node.answer parsed.request = .returns answer) :
    s.step (.packet u) = some ⟨answer.node,
      s.exchanges ++ answer.replies.map fun reply => (receivedTarget u.mem, reply)⟩ := by
  simp only [Service.step, processPacket_parsed hparse hpos, hanswer, Outcome.returns_bind, Outcome.pure_eq]

/-- The upload is stored, and the reply to a GET of it would be one byte longer than its buffer. -/
theorem upload_overruns_reply :
    ∃ s, run Service.step (Service.start loneNode) [.packet fullUpload] = some s ∧
      processPacket s.node shortLook.mem shortLook.n = .faults ∧ ¬ s.Complete := by
  have hparse := uploadOf_serialisable.parse [] uploadOf_length.le
  have hparse' := lookUp_serialisable.parse [] (Nat.le_refl _)
  simp only [List.append_nil] at hparse hparse'
  have hpos : (0 : Int) < (uploadOf 8152).wire.length := by
    rw [uploadOf_length, httpMaxSize]
    norm_num
  have hpos' : (0 : Int) < lookUp.wire.length := by decide +kernel
  -- the upload is stored
  let put : Request := ⟨some (ascii "PUT"), some (ascii "/a"), (uploadOf 8152).headers,
    (uploadOf 8152).payload, (uploadOf 8152).payload.length⟩
  obtain ⟨reply, table, hreply, -, hstored, -⟩ := @sendReply_fits (Service.start loneNode).node put
    (by decide +kernel) rfl
  have hstep : (Service.start loneNode).step (.packet fullUpload) = some _ :=
    Service.step_packet hparse hpos (answer_local rfl hreply)
  -- and too long for the reply
  obtain ⟨block, hget, -⟩ := hstored rfl
  let look : Request := ⟨some (ascii "GET"), some (ascii "/a"), [], [], 0⟩
  have hlook : look.isGet := rfl
  have hlong : maxValueLength < put.payloadLength.toNat := by
    show maxValueLength < (((uploadOf 8152).payload.length : Int)).toNat
    rw [Int.toNat_natCast, uploadOf, List.length_replicate]
    decide
  have hfaults : sendReply look table = .faults := by
    rw [sendReply_found table hlook hget, if_pos hlong]
  refine ⟨_, run_cons_eq_some.mpr ⟨_, hstep, rfl⟩, ?_, ?_⟩
  · exact processPacket_faults hparse' hpos' (answer_local_faults rfl hfaults)
  · intro hcomplete
    exact hcomplete.no_fault look hlook hfaults

/-- A GET of one of the entries the table starts with. -/
def fooRequest : Unparsed :=
  ⟨getRequest "/static/foo", (getRequest "/static/foo").length, by decide +kernel, Nat.le_refl _⟩

theorem replies_complete_iff_foo :
    Throughout Service.step Service.Complete (Service.start loneNode) [.packet fooRequest] ↔
      Along Service.step (fun s input => input.Fits s) (Service.start loneNode) [.packet fooRequest] := by
  have hsome : (run Service.step (Service.start loneNode) [.packet fooRequest]).isSome = true := by
    decide +kernel
  obtain ⟨s, hrun⟩ := Option.isSome_iff_exists.mp hsome
  exact replies_complete_iff loneNode _ hrun

end ChordDht.Chord
