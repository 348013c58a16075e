/-
Reading back what was stored.

A body goes through `body`, `my_strdup`, `body` again and a `%s`: it is a C string all
the way, and what is behind a zero byte is lost.  How much of what follows the head is
taken for the body is another matter: the code looks for `Content-Length:` anywhere in
the first 4095 bytes of the head, so the URI or another header can hold the one it finds.
`read_back_iff` says that a stored body comes back unchanged exactly when it has no zero
byte and its length was read right, or when the length that was read lets the request
wait for ever.
-/
import ChordDht.Tcp.LengthScan
import ChordDht.Tcp.Resources

namespace ChordDht.Tcp

open Outcome

/-- A well-formed PUT of a resource, with the length of its body declared. -/
structure PutRequest where
  name : Bytes
  fields : List Field
  body : Bytes
  named : name ≠ []
  valid : RequestText.Valid ⟨ascii "PUT", dynamicPrefix ++ name, fields⟩
  declared : ∃ f ∈ fields, f.name = ascii "Content-Length" ∧ (∀ b ∈ f.value, isDigit b = true) ∧
    digitsValue f.value = body.length
  fits : (RequestText.head ⟨ascii "PUT", dynamicPrefix ++ name, fields⟩ ++ body).length ≤ buffSize

namespace PutRequest

variable (p : PutRequest)

def uri : Bytes := dynamicPrefix ++ p.name

def text : RequestText := ⟨ascii "PUT", p.uri, p.fields⟩

def head : Bytes := p.text.head

def wire : Bytes := p.head ++ p.body

/-- The length the server gives the message. -/
def total : Nat := p.head.length + contentLength p.head

theorem findCrlfcrlf_head (rest : Bytes) :
    ∃ headerEnd, findCrlfcrlf (p.head ++ rest) = some headerEnd ∧ headerEnd + 4 = p.head.length :=
  RequestText.findCrlfcrlf_head p.valid rest

theorem checkHeader_head (rest : Bytes) : checkHeader (p.head ++ rest) = (1001, some p.uri) :=
  RequestText.checkHeader_head p.valid rest

end PutRequest

/-- It is known how long the request is; and once it, at the front of a stream, has been
answered 201 or 204, then after any requests that do not PUT or DELETE the name, a GET is
answered with the body. -/
def ReadBack (server : Server) (p : PutRequest) : Prop :=
  totalLen p.wire ≠ .faults ∧ ∀ more n, framer.next (p.wire ++ more) = some n →
    ∀ answered, answer server ((p.wire ++ more).take n) = answered →
      (answered.1 = some (emptyReply "201 Created") ∨ answered.1 = some (emptyReply "204 No Content")) →
      ∀ requests get, (∀ r ∈ requests, ¬ Touches p.name r) → IsGet p.uri get →
        (answer (answerAll answered.2 requests).2 get).1 = some (replyOk p.body)

/-! ### Storing -/

section Storing

variable (p : PutRequest)

theorem totalLen_wire (more : Bytes) :
    totalLen (p.wire ++ more) = if 2 ^ 31 ≤ p.total then .faults else .returns (some p.total) := by
  rw [PutRequest.wire, List.append_assoc]
  exact RequestText.totalLen_head p.valid (p.body ++ more)

/-- What is taken for the body. -/
theorem take_wire (more : Bytes) :
    (p.wire ++ more).take p.total = p.head ++ (p.body ++ more).take (contentLength p.head) := by
  rw [PutRequest.wire, List.append_assoc, PutRequest.total, List.take_length_add_append]

/-- **Once the request is answered**, what was taken for its body is stored, up to a zero. -/
theorem answer_put (server : Server) {taken : Bytes} (htaken : taken.length < bodySize) :
    contentOf p.name (answer server (p.head ++ taken)).2.resourceList = some (cstr taken) ∧
      ((answer server (p.head ++ taken)).1 = some (emptyReply "201 Created") ∨
        (answer server (p.head ++ taken)).1 = some (emptyReply "204 No Content")) := by
  obtain ⟨headerEnd, hfind, hlen⟩ := p.findCrlfcrlf_head taken
  have hbody : (getBody (server.setUri p.uri) (p.head ++ taken)).body = taken := by
    have hdrop : (p.head ++ taken).drop (headerEnd + 4) = taken := List.drop_left' hlen.symm
    unfold getBody
    rw [hfind]
    simp only [hdrop, Server.setBody]
    exact List.take_of_length_le (by omega)
  obtain ⟨code, server', hput, hcode, hcontent⟩ :=
    checkDynamicResource_put (getBody (server.setUri p.uri) (p.head ++ taken)) p.named
  have hget : getCode server (p.head ++ taken) = (code, server') := by
    unfold getCode
    rw [p.checkHeader_head]
    exact hput
  rw [hbody] at hcontent
  have hanswer : answer server (p.head ++ taken) = (reply server' code, server') := by
    unfold answer
    rw [hget]
  rw [hanswer]
  refine ⟨hcontent, ?_⟩
  rcases hcode with rfl | rfl
  · exact Or.inl rfl
  · exact Or.inr rfl

end Storing

/-! ### Reading -/

/-- **A GET** is answered with the content. -/
theorem answer_get {server : Server} {name content get : Bytes} (hname : name ≠ [])
    (hget : IsGet (dynamicPrefix ++ name) get)
    (hcontent : contentOf name server.resourceList = some content) :
    (answer server get).1 = some (replyOk (cstr (content.take (bodySize - 1)))) := by
  obtain ⟨resource, hfind, hresource⟩ := Option.map_eq_some_iff.mp hcontent
  have hstatic : strncmp (dynamicPrefix ++ name) staticPrefix 8 = false := by
    rw [Bool.eq_false_iff]
    intro hc
    have hzero : (0 : UInt8) ∉ staticPrefix := by decide
    have htake : (dynamicPrefix ++ name).take 8 = staticPrefix := (strncmp_length hzero).mp hc
    rw [List.take_append_of_le_length (by decide)] at htake
    exact absurd htake (by decide)
  have hcode : getCode server get
      = (200, (server.setUri (dynamicPrefix ++ name)).setBody content) := by
    unfold getCode
    rw [hget]
    simp only [Option.getD_some, hstatic, strncmp_dynamicPrefix]
    unfold getDynamicRessource
    simp only [strncmp_dynamicPrefix, drop_dynamicPrefix, hname]
    rw [show (server.setUri (dynamicPrefix ++ name)).resourceList = server.resourceList from rfl, hfind]
    simp [hresource]
  have hbody : respBody ((server.setUri (dynamicPrefix ++ name)).setBody content)
      = cstr (content.take (bodySize - 1)) := by
    unfold respBody
    exact if_pos (strncmp_dynamicPrefix name)
  unfold answer
  rw [hcode]
  simp only [reply_ok, hbody]

/-- A reply tells its body. -/
theorem replyOk_inj {a b : Bytes} (h : replyOk a = replyOk b) : a = b := by
  unfold replyOk at h
  simp only [List.append_assoc, List.append_cancel_left_eq] at h
  have hcr : ∀ (s : Bytes), isDigit ((crlf ++ s).headD 0) = false := fun _ => rfl
  have hdigits := congrArg (List.takeWhile isDigit) h
  rw [takeWhile_digits (isDigit_of_mem_decimal _) (hcr _),
    takeWhile_digits (isDigit_of_mem_decimal _) (hcr _)] at hdigits
  rw [hdigits] at h
  simpa using h

/-! ### The round trip -/

/-- A C string copied to `body` and back is the same. -/
theorem cstr_take_cstr {s : Bytes} (hs : s.length < bodySize) :
    cstr ((cstr s).take (bodySize - 1)) = cstr s := by
  have hlen := cstr_length_le s
  rw [List.take_of_length_le (by omega), cstr_eq_self (zero_notMem_cstr s)]

/-- **What a GET is answered with** after the PUT and other requests. -/
theorem read_back (server : Server) (p : PutRequest) {taken get : Bytes} {requests : List Bytes}
    (htaken : taken.length < bodySize) (hrequests : ∀ r ∈ requests, ¬ Touches p.name r)
    (hget : IsGet p.uri get) :
    (answer (answerAll (answer server (p.head ++ taken)).2 requests).2 get).1
      = some (replyOk (cstr taken)) := by
  have hstored := (answer_put p server htaken).1
  rw [← answerAll_content requests _ hrequests] at hstored
  rw [answer_get p.named hget hstored, cstr_take_cstr htaken]

/-- The GET of the resource. -/
def getRequest (p : PutRequest) : RequestText := ⟨ascii "GET", p.uri, []⟩

theorem isGet_getRequest (p : PutRequest) : IsGet p.uri (getRequest p).head := by
  have hshort : (getRequest p).requestLine.length ≤ 256 := by
    have h := p.valid.short
    have hsame : (getRequest p).requestLine.length
        = (RequestText.mk (ascii "PUT") (dynamicPrefix ++ p.name) p.fields).requestLine.length := by
      simp only [RequestText.requestLine, getRequest, PutRequest.uri, List.length_append, List.length_cons]
      rfl
    omega
  have hmethod : Word (ascii "GET") := by decide +kernel
  have hlen : (ascii "GET").length ≤ 15 := by decide
  have hvalid : (getRequest p).Valid :=
    ⟨⟨hmethod, hlen⟩, p.valid.uri, hshort, fun _ hf => absurd hf List.not_mem_nil⟩
  have h := RequestText.checkHeader_head hvalid []
  rwa [List.append_nil] at h

/-- If it is the body whatever follows, it was all of the body. -/
theorem eq_of_cstr_take {body : Bytes} {n : Nat}
    (h : cstr ((body ++ List.replicate n 1).take n) = body) : n = body.length ∧ (0 : UInt8) ∉ body := by
  have hzero : (0 : UInt8) ∉ body := by
    rw [← h]
    exact zero_notMem_cstr _
  have hall : (0 : UInt8) ∉ (body ++ List.replicate n 1).take n := by
    intro hmem
    rcases List.mem_append.mp (List.mem_of_mem_take hmem) with hmem | hmem
    · exact hzero hmem
    · exact absurd (List.eq_of_mem_replicate hmem) (by decide)
  rw [cstr_eq_self hall] at h
  have hlen := congrArg List.length h
  rw [List.length_take, List.length_append, List.length_replicate] at hlen
  exact ⟨by omega, hzero⟩

/-- **A stored body is read back exactly when** it has no zero byte and the length found
in the head is its length, or the length found there does not let it be answered at all. -/
theorem read_back_iff (server : Server) (p : PutRequest) :
    ReadBack server p ↔ (contentLength p.head = p.body.length ∧ (0 : UInt8) ∉ p.body) ∨
      (buffSize < p.total ∧ p.total < 2 ^ 31) := by
  have hsize : buffSize = 8192 := rfl
  have hbodySize : bodySize = 8192 := rfl
  have hwire : p.wire.length = p.head.length + p.body.length := List.length_append
  have hfits : p.wire.length ≤ buffSize := p.fits
  have hhead : 0 < p.head.length := by
    obtain ⟨headerEnd, -, hlen⟩ := p.findCrlfcrlf_head []
    omega
  have htotal : p.total = p.head.length + contentLength p.head := rfl
  constructor
  · intro ⟨hdefined, hread⟩
    have hlt : p.total < 2 ^ 31 := by
      by_contra hc
      have h := totalLen_wire p []
      rw [List.append_nil, if_pos (by omega)] at h
      exact hdefined h
    by_cases hroom : p.total ≤ buffSize
    · -- enough bytes follow for the length that was found
      have hnext : framer.next (p.wire ++ List.replicate (contentLength p.head) 1) = some p.total := by
        refine nextMessage_eq_some.mpr ⟨?_, ?_, hroom⟩
        · rw [totalLen_wire, if_neg (by omega)]
        · rw [List.length_append, List.length_replicate]
          omega
      have htaken : ((p.body ++ List.replicate (contentLength p.head) 1).take
          (contentLength p.head)).length < bodySize := by
        rw [List.length_take]
        omega
      have h := hread _ _ hnext _ rfl
      rw [take_wire] at h
      have hlast := h (answer_put p server htaken).2 [] (getRequest p).head
        (fun r hr => absurd hr List.not_mem_nil) (isGet_getRequest p)
      rw [read_back server p htaken (fun r hr => absurd hr List.not_mem_nil) (isGet_getRequest p),
        Option.some.injEq] at hlast
      exact Or.inl (eq_of_cstr_take (replyOk_inj hlast))
    · exact Or.inr ⟨by omega, hlt⟩
  · intro h
    have hlt : p.total < 2 ^ 31 := by omega
    refine ⟨?_, ?_⟩
    · have hwhole := totalLen_wire p []
      rw [List.append_nil, if_neg (by omega)] at hwhole
      rw [hwhole]
      exact nofun
    · intro more n hnext answered hanswered _ requests get hrequests hget
      obtain ⟨hn, -, hroom⟩ := nextMessage_eq_some.mp hnext
      rw [totalLen_wire, if_neg (by omega), Outcome.returns.injEq, Option.some.injEq] at hn
      rcases h with ⟨hlength, hzero⟩ | ⟨hlong, _⟩
      · have htaken : (p.body ++ more).take (contentLength p.head) = p.body := by
          rw [hlength, List.take_left]
        subst hn hanswered
        rw [take_wire, htaken, read_back server p (by omega) hrequests hget, cstr_eq_self hzero]
      · omega

/-! ### A body with a zero byte -/

def lengthField : Field := ⟨ascii "Content-Length", ascii "3"⟩

theorem lengthField_valid : lengthField.Valid := ⟨by decide, by decide, by decide +kernel⟩

/-- PUT of `/dynamic/a` with the body `x`, a zero byte and `y`. -/
def zeroPut : PutRequest where
  name := ascii "a"
  fields := [lengthField]
  body := [120, 0, 121]
  named := by decide
  valid := by
    have hmethod : Word (ascii "PUT") := by decide +kernel
    have huri : Word (dynamicPrefix ++ ascii "a") := by decide +kernel
    refine ⟨⟨hmethod, by decide⟩, ⟨huri, by decide⟩, by decide +kernel, ?_⟩
    intro f hf
    rw [List.mem_singleton.mp hf]
    exact lengthField_valid
  declared := ⟨lengthField, List.mem_singleton.mpr rfl, rfl, by decide +kernel, by decide +kernel⟩
  fits := by decide +kernel

/-- It is answered 201, and the GET with a body of one byte. -/
theorem zero_byte_lost : ¬ ReadBack initServer zeroPut := by
  intro ⟨_, hread⟩
  have hnext : framer.next (zeroPut.wire ++ []) = some zeroPut.wire.length := by decide +kernel
  have hcreated : (answer initServer ((zeroPut.wire ++ []).take zeroPut.wire.length)).1
      = some (emptyReply "201 Created") := by decide +kernel
  have hget := hread _ _ hnext _ rfl (Or.inl hcreated) [] (getRequest zeroPut).head
    (fun r hr => absurd hr List.not_mem_nil) (isGet_getRequest zeroPut)
  have hreply : (answer (answer initServer ((zeroPut.wire ++ []).take zeroPut.wire.length)).2
      (getRequest zeroPut).head).1 = some (replyOk [120]) := by decide +kernel
  have hlost : some (replyOk [120]) = some (replyOk zeroPut.body) := hreply.symm.trans hget
  exact absurd hlost (by decide +kernel)

end ChordDht.Tcp
