/-
`main` of `tcp-http-server/webserver.c`: one connection after the other, as long as it runs.

The buffer is new for each connection, but what `message_handler.c` keeps in global arrays is
not: the URI and the body of the last request are still there when the next client comes, and
a GET overwrites the body with what it found.  `server_is_file_server` says that nothing of
this shows.  Over any connections, and however their streams are cut, the replies are those
of a server that only knows its files.
-/
import ChordDht.Tcp.ResourceMap

namespace ChordDht.Tcp

open Outcome

/-- What the network hands over in a connection: how the stream is cut, and the stream. -/
structure Client where
  cut : Nat → Nat
  stream : Bytes

/-- The loop of `main`: the replies on each connection, and the globals afterwards. -/
def serveClients (server : Server) : List Client → Outcome (List (List Bytes) × Server)
  | [] => return ([], server)
  | client :: clients => do
      let served ← serveConnection client.cut server client.stream
      let (others, server) ← serveClients served.server clients
      return (served.replies :: others, server)

/-! ### The file server -/

/-- What a message asks for. -/
inductive Demand where
  | malformed
  | unknown
  | get (uri : Bytes)
  | put (uri body : Bytes)
  | delete (uri : Bytes)
  deriving DecidableEq, Repr

/-- What stands behind the headers. -/
def bodyOf (message : Bytes) : Bytes :=
  (findCrlfcrlf message).elim [] fun headerEnd => message.drop (headerEnd + 4)

def demand (message : Bytes) : Demand :=
  let (code, copied) := checkHeader message
  let uri := copied.getD []
  if code = 400 then .malformed
  else if code = 1000 then .get uri
  else if code = 1001 then .put uri (bodyOf message)
  else if code = 1002 then .delete uri
  else .unknown

/-- The files, by name. -/
abbrev Files := Bytes → Option Bytes

namespace Files

def empty : Files := fun _ => none

/-- The three static pages. -/
def static (uri : Bytes) : Option Bytes :=
  if uri = ascii "/static/foo" then some (ascii "Foo")
  else if uri = ascii "/static/bar" then some (ascii "Bar")
  else if uri = ascii "/static/baz" then some (ascii "Baz")
  else none

/-- The page at a URI: a static one, or a file.  No file has the empty name. -/
def page (files : Files) (uri : Bytes) : Option Bytes :=
  match nameOf uri with
  | none => static uri
  | some [] => none
  | some (c :: cs) => files (c :: cs)

/-- The reply to a demand, and the files afterwards.  A file is a text: it ends at the first
zero byte of the body. -/
def answer (files : Files) : Demand → Bytes × Files
  | .malformed => (emptyReply "400 Bad Request", files)
  | .unknown => (emptyReply "501 Not Implemented", files)
  | .get uri => ((files.page uri).elim (emptyReply "404 Not Found") replyOk, files)
  | .put uri body =>
      match nameOf uri with
      | none => (emptyReply "403 Forbidden", files)
      | some [] => (emptyReply "404 Not Found", files)
      | some (c :: cs) =>
          (if (files (c :: cs)).isSome then emptyReply "204 No Content" else emptyReply "201 Created",
            Function.update files (c :: cs) (some (cstr body)))
  | .delete uri =>
      match nameOf uri with
      | none => (emptyReply "403 Forbidden", files)
      | some [] => (emptyReply "404 Not Found", files)
      | some (c :: cs) =>
          if (files (c :: cs)).isSome then
            (emptyReply "204 No Content", Function.update files (c :: cs) none)
          else (emptyReply "404 Not Found", files)

def answerAll (files : Files) : List Demand → List Bytes × Files
  | [] => ([], files)
  | d :: ds =>
      let (reply, files) := files.answer d
      let (replies, files) := files.answerAll ds
      (reply :: replies, files)

/-- The demands of each client, one client after the other. -/
def answerClients (files : Files) : List (List Demand) → List (List Bytes)
  | [] => []
  | ds :: clients => (files.answerAll ds).1 :: (files.answerAll ds).2.answerClients clients

end Files

/-! ### What the checks make of a message -/

theorem checkFirstLine_codes (message : Bytes) :
    (checkFirstLine message).1 = 400 ∨ (checkFirstLine message).1 = 501 ∨
      (((checkFirstLine message).1 = 1000 ∨ (checkFirstLine message).1 = 1001 ∨ (checkFirstLine message).1 = 1002) ∧
        ∃ uri, (checkFirstLine message).2 = some uri) := by
  unfold checkFirstLine
  repeat' split
  all_goals simp

/-- A message has no good code, or one of three with a URI. -/
theorem checkHeader_codes (message : Bytes) :
    (checkHeader message).1 = 400 ∨ (checkHeader message).1 = 501 ∨
      (((checkHeader message).1 = 1000 ∨ (checkHeader message).1 = 1001 ∨ (checkHeader message).1 = 1002) ∧
        ∃ uri, (checkHeader message).2 = some uri) := by
  have hfirst := checkFirstLine_codes message
  unfold checkHeader
  simp only
  by_cases hbad : (checkFirstLine message).1 = 400
  · rw [if_pos hbad]
    exact Or.inl rfl
  · rw [if_neg hbad]
    rcases checkAfterFirstLine_or message (checkFirstLine message).1 with hafter | hafter
    · exact Or.inl hafter
    · rw [hafter]
      exact hfirst

/-- A request in good form asks for what its method says. -/
theorem demand_head {r : RequestText} (h : r.Valid) (body : Bytes) : demand (r.head ++ body)
    = if r.method = ascii "GET" then .get r.uri
      else if r.method = ascii "PUT" then .put r.uri body
      else if r.method = ascii "DELETE" then .delete r.uri
      else .unknown := by
  have hbody : bodyOf (r.head ++ body) = body := by
    obtain ⟨headerEnd, hfind, hlen⟩ := RequestText.findCrlfcrlf_head h body
    unfold bodyOf
    rw [hfind]
    exact List.drop_left' hlen.symm
  unfold demand
  rw [RequestText.checkHeader_head h body, hbody, RequestText.verdict]
  by_cases hget : r.method = ascii "GET"
  · rw [if_pos hget, if_pos hget]
    rfl
  · rw [if_neg hget, if_neg hget]
    by_cases hput : r.method = ascii "PUT"
    · rw [if_pos hput, if_pos hput]
      rfl
    · rw [if_neg hput, if_neg hput]
      by_cases hdelete : r.method = ascii "DELETE"
      · rw [if_pos hdelete, if_pos hdelete]
        rfl
      · rw [if_neg hdelete, if_neg hdelete]
        rfl

/-! ### One demand -/

/-- The server has these files. -/
structure Has (server : Server) (files : Files) : Prop where
  keeps : Keeps server ⟨files, server.body⟩
  texts : ∀ name content, files name = some content → (0 : UInt8) ∉ content

theorem has_init : Has initServer Files.empty where
  keeps := ⟨⟨List.nodup_nil, fun _ _ => by simp [initServer, named, Files.empty]⟩,
    fun _ hr => absurd hr List.not_mem_nil, rfl⟩
  texts := fun _ _ hc => absurd hc.symm (Option.some_ne_none _)

theorem has_of_keeps {server : Server} {files : Files} {body : Bytes} (h : Keeps server ⟨files, body⟩)
    (htexts : ∀ name content, files name = some content → (0 : UInt8) ∉ content) : Has server files :=
  ⟨⟨h.lists, h.short, rfl⟩, htexts⟩

/-- The globals besides the list do not matter. -/
theorem Has.of_list {server server' : Server} {files : Files} (h : Has server files)
    (hlist : server'.resourceList = server.resourceList) : Has server' files where
  keeps := ⟨by rw [hlist]; exact h.keeps.lists, by rw [hlist]; exact h.keeps.short, rfl⟩
  texts := h.texts

section Pages

variable {uri : Bytes}

theorem nameOf_static (h : strncmp uri staticPrefix 8 = true) : nameOf uri = none := by
  have hstatic : uri.take 8 = staticPrefix := (@strncmp_length uri staticPrefix (by decide)).mp h
  refine if_neg fun hdynamic => ?_
  obtain ⟨rest, hrest⟩ := hdynamic
  rw [← hrest, List.take_append_of_le_length (by decide)] at hstatic
  exact absurd hstatic (by decide)

theorem static_none (h : strncmp uri staticPrefix 8 ≠ true) : Files.static uri = none := by
  have hnot : ∀ page, strncmp page staticPrefix 8 = true → uri ≠ page := by
    intro page hpage hc
    rw [hc] at h
    exact h hpage
  rw [Files.static, if_neg (hnot _ (by decide)), if_neg (hnot _ (by decide)), if_neg (hnot _ (by decide))]

/-- The static pages, as the code finds them and as it sends them. -/
theorem static_reply (server : Server) (h : strncmp uri staticPrefix 8 = true) :
    reply (server.setUri uri) (checkStaticResource uri)
      = some ((Files.static uri).elim (emptyReply "404 Not Found") replyOk) := by
  have hdynamic : strncmp uri dynamicPrefix 9 = false := by
    rcases nameOf_cases uri with ⟨hd, -⟩ | ⟨-, hname⟩
    · exact hd
    · rw [nameOf_static h] at hname
      exact absurd hname.symm (Option.some_ne_none _)
  have hbody : respBody (server.setUri uri) = if uri = ascii "/static/foo" then ascii "Foo"
      else if uri = ascii "/static/bar" then ascii "Bar"
      else if uri = ascii "/static/baz" then ascii "Baz" else [] := by
    unfold respBody
    exact if_neg (by rw [show (server.setUri uri).requestUri = uri from rfl, hdynamic]; exact Bool.false_ne_true)
  unfold checkStaticResource Files.static
  by_cases hfoo : uri = ascii "/static/foo"
  · rw [if_pos hfoo, if_pos hfoo, reply_ok, hbody, if_pos hfoo]
    rfl
  · rw [if_neg hfoo, if_neg hfoo]
    by_cases hbar : uri = ascii "/static/bar"
    · rw [if_pos hbar, if_pos hbar, reply_ok, hbody, if_neg hfoo, if_pos hbar]
      rfl
    · rw [if_neg hbar, if_neg hbar]
      by_cases hbaz : uri = ascii "/static/baz"
      · rw [if_pos hbaz, if_pos hbaz, reply_ok, hbody, if_neg hfoo, if_neg hbar, if_pos hbaz]
        rfl
      · rw [if_neg hbaz, if_neg hbaz]
        rfl

end Pages

theorem getDynamicRessource_uri (server : Server) (uri : Bytes) :
    (getDynamicRessource server uri).2.requestUri = server.requestUri := by
  unfold getDynamicRessource
  split
  · rfl
  · simp only
    split
    · rfl
    · split <;> rfl

/-- A file is found in the list, copied to `body`, and sent as it is. -/
theorem dynamic_reply {server : Server} {files : Files} (h : Has server files) {uri : Bytes}
    (huri : server.requestUri = uri) (hdynamic : strncmp uri dynamicPrefix 9 = true) :
    reply (getDynamicRessource server uri).2 (getDynamicRessource server uri).1
      = some ((files.page uri).elim (emptyReply "404 Not Found") replyOk) := by
  obtain ⟨hcode, hkeeps⟩ := h.keeps.get uri
  have hname : nameOf uri = some (uri.drop 9) := by
    rcases nameOf_cases uri with ⟨hd, -⟩ | ⟨-, hname⟩
    · rw [hd] at hdynamic
      cases hdynamic
    · exact hname
  have hnotFound : ∀ server', reply server' 404 = some (emptyReply "404 Not Found") := fun _ => rfl
  rw [Call.spec, hname] at hcode hkeeps
  rw [Files.page, hname]
  cases hdrop : uri.drop 9 with
  | nil =>
      rw [hdrop] at hcode
      rw [Option.some.inj hcode, hnotFound]
      rfl
  | cons c cs =>
      rw [hdrop] at hcode hkeeps
      show _ = some ((files (c :: cs)).elim _ replyOk)
      cases hfile : files (c :: cs) with
      | none =>
          simp only [hfile] at hcode
          rw [Option.some.inj hcode, hnotFound]
          rfl
      | some content =>
          simp only [hfile] at hcode hkeeps
          have hbody : respBody (getDynamicRessource server uri).2 = content := by
            unfold respBody
            rw [getDynamicRessource_uri, huri, if_pos hdynamic, hkeeps.body]
            exact cstr_eq_self (h.texts _ _ hfile)
          rw [Option.some.inj hcode, reply_ok, hbody]
          rfl

/-- **A GET** is answered with the page, or 404. -/
theorem get_served {server : Server} {files : Files} (h : Has server files) {message uri : Bytes}
    (hcheck : checkHeader message = (1000, some uri)) :
    (answer server message).1 = some (files.answer (.get uri)).1 ∧ Has (answer server message).2 files := by
  have hset : Has (server.setUri uri) files := h.of_list rfl
  have hcode : getCode server message
      = if strncmp uri staticPrefix 8 then (checkStaticResource uri, server.setUri uri)
        else if strncmp uri dynamicPrefix 9 then getDynamicRessource (server.setUri uri) uri
        else (404, server.setUri uri) := by
    unfold getCode
    rw [hcheck]
    rfl
  unfold answer
  rw [hcode]
  by_cases hstatic : strncmp uri staticPrefix 8 = true
  · have hpage : files.page uri = Files.static uri := by
      rw [Files.page, nameOf_static hstatic]
    rw [if_pos hstatic]
    refine ⟨?_, hset⟩
    show reply _ _ = some ((files.page uri).elim _ replyOk)
    rw [hpage]
    exact static_reply server hstatic
  · rw [if_neg hstatic]
    by_cases hdynamic : strncmp uri dynamicPrefix 9 = true
    · rw [if_pos hdynamic]
      exact ⟨dynamic_reply hset rfl hdynamic, hset.of_list (getDynamicRessource_list _ _)⟩
    · have hpage : files.page uri = none := by
        rcases nameOf_cases uri with ⟨-, hname⟩ | ⟨hd, -⟩
        · rw [Files.page, hname]
          exact static_none hstatic
        · exact absurd hd hdynamic
      rw [if_neg hdynamic]
      refine ⟨?_, hset⟩
      show some _ = some ((files.page uri).elim _ replyOk)
      rw [hpage]
      rfl

/-- The body of a message that fits the buffer is copied whole. -/
theorem getBody_body (server : Server) {message : Bytes} (hlen : message.length ≤ buffSize) :
    (getBody server message).body = bodyOf message := by
  unfold getBody bodyOf
  cases hfind : findCrlfcrlf message with
  | none => rfl
  | some headerEnd =>
      have hshort : (message.drop (headerEnd + 4)).length ≤ bodySize - 1 := by
        rw [List.length_drop]
        unfold buffSize at hlen
        unfold bodySize
        omega
      exact List.take_of_length_le hshort

theorem texts_update {files : Files} (h : ∀ name content, files name = some content → (0 : UInt8) ∉ content)
    (name : Bytes) {content : Option Bytes} (hcontent : ∀ text ∈ content, (0 : UInt8) ∉ text) :
    ∀ name' text, Function.update files name content name' = some text → (0 : UInt8) ∉ text := by
  intro name' text htext
  by_cases hname : name' = name
  · rw [hname, Function.update_self] at htext
    exact hcontent text htext
  · rw [Function.update_of_ne hname] at htext
    exact h name' text htext

/-- **A PUT** stores the body. -/
theorem put_served {server : Server} {files : Files} (h : Has server files) {message uri : Bytes}
    (hcheck : checkHeader message = (1001, some uri)) (hlen : message.length ≤ buffSize) :
    (answer server message).1 = some (files.answer (.put uri (bodyOf message))).1 ∧
      Has (answer server message).2 (files.answer (.put uri (bodyOf message))).2 := by
  have hset : Has (getBody (server.setUri uri) message) files := h.of_list (getBody_list _ _)
  have hcode : getCode server message = checkDynamicResource (getBody (server.setUri uri) message) uri 1001 := by
    unfold getCode
    rw [hcheck]
    rfl
  have hbody := getBody_body (server.setUri uri) hlen
  obtain ⟨hput, hkeeps⟩ := hset.keeps.put uri 0
  unfold answer
  rw [hcode]
  simp only [Call.spec, hbody] at hput hkeeps
  cases hname : nameOf uri with
  | none =>
      simp only [hname, Option.some.injEq] at hput hkeeps
      simp only [Files.answer, hname, hput]
      exact ⟨rfl, has_of_keeps hkeeps h.texts⟩
  | some name =>
      cases name with
      | nil =>
          simp only [hname, Option.some.injEq] at hput hkeeps
          simp only [Files.answer, hname, hput]
          exact ⟨rfl, has_of_keeps hkeeps h.texts⟩
      | cons c cs =>
          simp only [hname, Option.some.injEq] at hput hkeeps
          simp only [Files.answer, hname, hput]
          refine ⟨?_, has_of_keeps hkeeps (texts_update h.texts _ ?_)⟩
          · cases (files (c :: cs)).isSome <;> rfl
          · intro text htext
            rw [← Option.some.inj htext]
            exact zero_notMem_cstr _

/-- **A DELETE** takes the file away. -/
theorem delete_served {server : Server} {files : Files} (h : Has server files) {message uri : Bytes}
    (hcheck : checkHeader message = (1002, some uri)) :
    (answer server message).1 = some (files.answer (.delete uri)).1 ∧
      Has (answer server message).2 (files.answer (.delete uri)).2 := by
  have hset : Has (server.setUri uri) files := h.of_list rfl
  have hcode : getCode server message = checkDynamicResource (server.setUri uri) uri 1002 := by
    unfold getCode
    rw [hcheck]
    rfl
  obtain ⟨hdelete, hkeeps⟩ := hset.keeps.delete uri
  unfold answer
  rw [hcode]
  simp only [Call.spec] at hdelete hkeeps
  cases hname : nameOf uri with
  | none =>
      simp only [hname, Option.some.injEq] at hdelete hkeeps
      simp only [Files.answer, hname, hdelete]
      exact ⟨rfl, has_of_keeps hkeeps h.texts⟩
  | some name =>
      cases name with
      | nil =>
          simp only [hname, Option.some.injEq] at hdelete hkeeps
          simp only [Files.answer, hname, hdelete]
          exact ⟨rfl, has_of_keeps hkeeps h.texts⟩
      | cons c cs =>
          simp only [hname] at hdelete hkeeps
          simp only [Files.answer, hname]
          by_cases hfile : (files (c :: cs)).isSome = true
          · rw [if_pos hfile, Option.some.injEq] at hdelete
            rw [if_pos hfile] at hkeeps
            rw [if_pos hfile, hdelete]
            exact ⟨rfl, has_of_keeps hkeeps (texts_update h.texts _ fun text htext => by cases htext)⟩
          · rw [if_neg hfile, Option.some.injEq] at hdelete
            rw [if_neg hfile] at hkeeps
            rw [if_neg hfile, hdelete]
            exact ⟨rfl, has_of_keeps hkeeps h.texts⟩

/-- A message that is refused by its head. -/
theorem refused_served {server : Server} {files : Files} (h : Has server files) {message : Bytes} {code : Nat}
    {copied : Option Bytes} (hcheck : checkHeader message = (code, copied)) (hcode : code = 400 ∨ code = 501) :
    (answer server message).1 = some (files.answer (demand message)).1 ∧
      Has (answer server message).2 (files.answer (demand message)).2 := by
  have hset : Has (server.setUri (copied.getD server.requestUri)) files := h.of_list rfl
  rcases hcode with rfl | rfl
  · have hget : getCode server message = (400, server.setUri (copied.getD server.requestUri)) := by
      unfold getCode
      rw [hcheck]
      rfl
    have hdemand : demand message = .malformed := by
      unfold demand
      rw [hcheck]
      rfl
    unfold answer
    rw [hget, hdemand]
    exact ⟨rfl, hset⟩
  · have hget : getCode server message = (501, server.setUri (copied.getD server.requestUri)) := by
      unfold getCode
      rw [hcheck]
      rfl
    have hdemand : demand message = .unknown := by
      unfold demand
      rw [hcheck]
      rfl
    unfold answer
    rw [hget, hdemand]
    exact ⟨rfl, hset⟩

/-- **Every message** is answered as its demand says. -/
theorem message_served {server : Server} {files : Files} (h : Has server files) {message : Bytes}
    (hlen : message.length ≤ buffSize) :
    (answer server message).1 = some (files.answer (demand message)).1 ∧
      Has (answer server message).2 (files.answer (demand message)).2 := by
  rcases hcheck : checkHeader message with ⟨code, copied⟩
  have hcodes := checkHeader_codes message
  rw [hcheck] at hcodes
  rcases hcodes with hcode | hcode | ⟨hcode, uri, hcopied⟩
  · exact refused_served h hcheck (Or.inl hcode)
  · exact refused_served h hcheck (Or.inr hcode)
  · simp only at hcode hcopied
    rw [hcopied] at hcheck
    unfold demand
    rw [hcheck]
    rcases hcode with rfl | rfl | rfl
    · exact get_served h hcheck
    · exact put_served h hcheck hlen
    · exact delete_served h hcheck

/-! ### Connections -/

theorem messages_served : ∀ (messages : List Bytes) {server : Server} {files : Files}, Has server files →
    (∀ m ∈ messages, m.length ≤ buffSize) →
      (answerAll server messages).1 = (files.answerAll (messages.map demand)).1 ∧
        Has (answerAll server messages).2 (files.answerAll (messages.map demand)).2 := by
  intro messages
  induction messages with
  | nil => intro server files h _; exact ⟨rfl, h⟩
  | cons m ms ih =>
      intro server files h hlen
      obtain ⟨hreply, hhas⟩ := message_served h (hlen m List.mem_cons_self)
      obtain ⟨hreplies, hhas'⟩ := ih hhas fun q hq => hlen q (List.mem_cons_of_mem _ hq)
      refine ⟨?_, hhas'⟩
      show (answer server m).1.getD [] :: (answerAll (answer server m).2 ms).1 = _ :: _
      rw [hreply, hreplies]
      rfl

/-- The messages that the stream of each client splits into. -/
def Split (clients : List Client) (messages : List (List Bytes)) : Prop :=
  List.Forall₂ (fun (client : Client) ms => ∃ rest, framer.Splits client.stream ms rest) clients messages

theorem clients_served : ∀ (clients : List Client) {server : Server} {files : Files}, Has server files →
    (∀ client ∈ clients, Representable client.stream) →
      ∃ messages server', Split clients messages ∧ serveClients server clients
        = .returns (files.answerClients (messages.map (List.map demand)), server') := by
  intro clients
  induction clients with
  | nil => intro server files _ _; exact ⟨[], server, .nil, rfl⟩
  | cons client clients ih =>
      intro server files h hrep
      obtain ⟨messages, rest, hs⟩ := @Framer.splits_exists _ framer client.stream
      have hempty : framer.next ([] : Bytes) = none := by decide
      have hserve := @serve_splits client.cut (client.stream.length + 1) 0 server [] client.stream rest messages hs
        hempty (hrep client List.mem_cons_self) (Nat.zero_le _) (Nat.lt_succ_self _)
      have hfits : ∀ m ∈ messages, m.length ≤ buffSize := fun m hm =>
        (nextMessage_eq_some.mp (hs.whole m hm)).2.2
      obtain ⟨hreplies, hhas⟩ := messages_served messages h hfits
      obtain ⟨others, server', hsplit, hrun⟩ := ih hhas fun c hc => hrep c (List.mem_cons_of_mem _ hc)
      refine ⟨messages :: others, server', .cons ⟨rest, hs⟩ hsplit, ?_⟩
      rw [serveClients, serveConnection, hserve, returns_bind]
      simp only
      rw [hrun, returns_bind, hreplies]
      rfl

/-- **The server is a file server.**  Whatever clients come, one after the other, whatever they send
(lengths that are numbers apart) and however it is cut: the messages on each connection are
answered by what they ask for and by the files as all messages before have left them. -/
theorem server_is_file_server (clients : List Client) (hrep : ∀ client ∈ clients, Representable client.stream) :
    ∃ messages server, Split clients messages ∧ serveClients initServer clients
      = .returns (Files.empty.answerClients (messages.map (List.map demand)), server) :=
  clients_served clients has_init hrep

/-- One client stores a file, byte by byte; the next one reads it. -/
def twoClients : List Client :=
  [⟨fun _ => 1, putText⟩, ⟨fun _ => 8192, crlfLine "GET /dynamic/a HTTP/1.1" ++ crlf⟩]

theorem server_is_file_server_two :
    (serveClients initServer twoClients >>= fun result => .returns result.1)
        = .returns [[emptyReply "201 Created"], [replyOk (ascii "abc")]] ∧
      ∃ messages server, Split twoClients messages ∧ serveClients initServer twoClients
        = .returns (Files.empty.answerClients (messages.map (List.map demand)), server) := by
  have hput : totalLen putText = .returns (some putText.length) := by decide +kernel
  have hget : totalLen (crlfLine "GET /dynamic/a HTTP/1.1" ++ crlf)
      = .returns (some (crlfLine "GET /dynamic/a HTTP/1.1" ++ crlf).length) := by decide +kernel
  have hnothing : Representable [] := representable_of_last (by decide) (fun n hn => by cases hn)
  refine ⟨by decide +kernel, server_is_file_server twoClients ?_⟩
  intro client hclient
  rcases List.mem_cons.mp hclient with rfl | hclient
  · have hrep := representable_cons hput hnothing
    rwa [List.append_nil] at hrep
  · have hrep := representable_cons hget hnothing
    rw [List.append_nil] at hrep
    rwa [List.mem_singleton.mp hclient]

end ChordDht.Tcp
