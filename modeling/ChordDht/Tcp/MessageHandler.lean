/-
`message_handler.c`: what the server makes of the bytes of a connection.

The buffer is the list of the bytes that are valid in it.  The two global arrays
`request_uri` and `body` hold C strings; the list of resources is kept newest first.
Allocations and `send` succeed.  An addition that leaves the range of `int` has no
defined result.
-/
import ChordDht.Lib.Decimal
import ChordDht.Lib.Outcome
import ChordDht.Lib.Search

namespace ChordDht.Tcp

/-- `struct DynamicResource`, without the link. -/
structure DynamicResource where
  filename : Bytes
  content : Bytes
  deriving DecidableEq, Repr

/-- `sizeof(body)`. -/
def bodySize : Nat := 8192

/-- The globals: `request_uri`, what was last copied to `body`, and `resource_list`. -/
structure Server where
  requestUri : Bytes
  body : Bytes
  resourceList : List DynamicResource
  /-- There is room for the zero byte. -/
  fits : body.length < bodySize
  deriving DecidableEq, Repr

def Server.setUri (server : Server) (uri : Bytes) : Server := { server with requestUri := uri }

/-- Copy to `body` as much as leaves room for the zero byte. -/
def Server.setBody (server : Server) (bytes : Bytes) : Server where
  requestUri := server.requestUri
  body := bytes.take (bodySize - 1)
  resourceList := server.resourceList
  fits := Nat.lt_of_le_of_lt (List.length_take_le _ _) (by decide)

def Server.setResources (server : Server) (resources : List DynamicResource) : Server :=
  { server with resourceList := resources }

def findCrlfcrlf (buf : Bytes) : Option Nat := search (crlf ++ crlf) buf

/-! ### The request line and the headers -/

/-- One `%<width>s` of `sscanf`: the word behind the blanks, and the rest. -/
def scanString (width : Nat) (s : Bytes) : Option (Bytes × Bytes) :=
  let t := s.dropWhile isSpace
  let word := (t.take width).takeWhile fun b => !isSpace b
  if word = [] then none else some (word, t.drop word.length)

/-- `sscanf(line, "%15s %255s %15s", method, uri, version)`, when it reads all three. -/
def scanRequestLine (line : Bytes) : Option (Bytes × Bytes × Bytes) := do
  let (method, s) ← scanString 15 (cstr line)
  let (uri, s) ← scanString 255 s
  let (version, _) ← scanString 15 s
  return (method, uri, version)

/-- `Key: Value`, with neither of them empty. -/
def headerLineOk (line : Bytes) : Bool :=
  let hline := cstr line
  match hline.findIdx? (· == 58) with
  | none => false
  | some colon => colon != 0 && hline.getD (colon + 1) 0 == 32 && hline.getD (colon + 2) 0 != 0

/-- The loop over the header lines, from the end of the request line on: whether it ends
without an error. -/
def checkHeaderLines : Nat → Bytes → Bool
  | 0, _ => true
  | fuel + 1, buf =>
      if buf.length < 2 then true
      else
        match search crlf buf with
        | none => false
        | some 0 => true
        | some lineLen =>
            if 511 ≤ lineLen then false
            else headerLineOk (buf.take lineLen) && checkHeaderLines fuel (buf.drop (lineLen + 2))

/-- `check_first_line`: the code, and what is copied to `request_uri`. -/
def checkFirstLine (buf : Bytes) : Nat × Option Bytes :=
  match search crlf buf with
  | none => (400, none)
  | some lineLen =>
      if lineLen = 0 ∨ 256 < lineLen then (400, none)
      else
        match scanRequestLine (buf.take lineLen) with
        | none => (400, none)
        | some (method, uri, version) =>
            if version ≠ ascii "HTTP/1.1" then (400, none)
            else if checkHeaderLines buf.length (buf.drop (lineLen + 2)) = false then (400, none)
            else if method = ascii "GET" then (1000, some uri)
            else if method = ascii "PUT" then (1001, some uri)
            else if method = ascii "DELETE" then (1002, some uri)
            else (501, none)

/-- `check_after_first_line`: the statements behind the `return` in its loop are never reached. -/
def checkAfterFirstLine (buf : Bytes) (codeFromFirstLine : Nat) : Nat :=
  match search crlf buf with
  | none => 400
  | some lineLen =>
      let rest := buf.drop (lineLen + 2)
      if rest.length < 2 then codeFromFirstLine
      else
        match search crlf rest with
        | none => 400
        | some _ => codeFromFirstLine

def checkHeader (buf : Bytes) : Nat × Option Bytes :=
  let (code, uri) := checkFirstLine buf
  if code = 400 then (400, uri) else (checkAfterFirstLine buf code, uri)

/-! ### Resources -/

def staticPrefix : Bytes := ascii "/static/"

def dynamicPrefix : Bytes := ascii "/dynamic/"

def checkStaticResource (uri : Bytes) : Nat :=
  if uri = ascii "/static/foo" then 200
  else if uri = ascii "/static/bar" then 200
  else if uri = ascii "/static/baz" then 200
  else 404

/-- `get_dynamic_ressource`: the code, and the globals with `body` filled. -/
def getDynamicRessource (server : Server) (uri : Bytes) : Nat × Server :=
  if strncmp uri dynamicPrefix 9 = false then (404, server)
  else
    let filename := uri.drop 9
    if filename = [] then (404, server)
    else
      match server.resourceList.find? (·.filename == filename) with
      | none => (404, server)
      | some resource => (200, server.setBody resource.content)

/-- `get_body`. -/
def getBody (server : Server) (buf : Bytes) : Server :=
  match findCrlfcrlf buf with
  | none => server.setBody []
  | some headerEnd => server.setBody (buf.drop (headerEnd + 4))

/-- The contents of the first resource of that name, replaced by the body. -/
def replaceContent (filename content : Bytes) : List DynamicResource → List DynamicResource
  | [] => []
  | resource :: rest =>
      if resource.filename = filename then { resource with content := content } :: rest
      else resource :: replaceContent filename content rest

/-- `check_dynamic_resource`; `my_strdup` copies a string up to its zero. -/
def checkDynamicResource (server : Server) (uri : Bytes) (code : Nat) : Nat × Server :=
  if strncmp uri dynamicPrefix 9 = false then (403, server)
  else
    let filename := uri.drop 9
    let found := server.resourceList.any (·.filename == filename)
    if code = 1001 then
      if filename = [] then (404, server)
      else if found then
        (204, server.setResources (replaceContent filename (cstr server.body) server.resourceList))
      else (201, server.setResources (⟨filename, cstr server.body⟩ :: server.resourceList))
    else if code = 1002 then
      if filename = [] then (404, server)
      else if found then
        (204, server.setResources (server.resourceList.eraseP (·.filename == filename)))
      else (404, server)
    else (404, server)

/-! ### Messages -/

def getCode (server : Server) (buf : Bytes) : Nat × Server :=
  let (code, copied) := checkHeader buf
  let uri := copied.getD server.requestUri
  let server := server.setUri uri
  if code = 400 then (400, server)
  else if code = 1000 then
    if strncmp uri staticPrefix 8 then (checkStaticResource uri, server)
    else if strncmp uri dynamicPrefix 9 then getDynamicRessource server uri
    else (404, server)
  else if code = 1001 then checkDynamicResource (getBody server buf) uri code
  else if code = 1002 then checkDynamicResource server uri code
  else (code, server)

/-- A reply without a body. -/
def emptyReply (status : String) : Bytes :=
  ascii "HTTP/1.1 " ++ ascii status ++ crlf ++ ascii "Content-Length: 0" ++ crlf ++ crlf

def replyOkPrefix : Bytes := ascii "HTTP/1.1 200 OK" ++ crlf ++ ascii "Content-Length: "

def replyOk (respBody : Bytes) : Bytes :=
  replyOkPrefix ++ decimal respBody.length ++ crlf ++ crlf ++ respBody

/-- The text a 200 is sent with. -/
def respBody (server : Server) : Bytes :=
  if strncmp server.requestUri dynamicPrefix 9 then cstr server.body
  else if server.requestUri = ascii "/static/foo" then ascii "Foo"
  else if server.requestUri = ascii "/static/bar" then ascii "Bar"
  else if server.requestUri = ascii "/static/baz" then ascii "Baz"
  else []

/-- The reply to a code; there is none if it does not fit `reply_buf`. -/
def reply (server : Server) (code : Nat) : Option Bytes :=
  if code = 400 then some (emptyReply "400 Bad Request")
  else if code = 404 then some (emptyReply "404 Not Found")
  else if code = 501 then some (emptyReply "501 Not Implemented")
  else if code = 403 then some (emptyReply "403 Forbidden")
  else if code = 201 then some (emptyReply "201 Created")
  else if code = 204 then some (emptyReply "204 No Content")
  else if code = 200 then
    let written := replyOk (respBody server)
    if 9000 ≤ written.length then none else some written
  else some (emptyReply "501 Not Implemented")

/-- The reply to a message, and the globals afterwards. -/
def answer (server : Server) (message : Bytes) : Option Bytes × Server :=
  let (code, server') := getCode server message
  (reply server' code, server')

/-- The value of the first `Content-Length:` in the headers, negative ones being zero. -/
def contentLength (header : Bytes) : Nat :=
  let headerBlock := cstr (header.take 4095)
  match search (ascii "Content-Length:") headerBlock with
  | none => 0
  | some i =>
      let cl := headerBlock.drop (i + (ascii "Content-Length:").length)
      (atoi (cl.dropWhile fun b => b == 32 || b == 9)).toNat

/-- `total_len`, as soon as the headers are complete. -/
def totalLen (buf : Bytes) : Outcome (Option Nat) :=
  if buf.length < 4 then .returns none
  else
    match findCrlfcrlf buf with
    | none => .returns none
    | some headerEnd =>
        let headerLen := headerEnd + 4
        let total := headerLen + contentLength (buf.take headerLen)
        if 2 ^ 31 ≤ total then .faults else .returns (some total)

/-- What a call of `get_messages_and_send` sends and leaves. -/
structure Sent where
  replies : List Bytes
  server : Server
  buf : Bytes
  deriving DecidableEq, Repr

/-- The loop of `get_messages_and_send`. -/
def getMessagesAndSend : Nat → Server → Bytes → Outcome Sent
  | 0, _, _ => .diverges
  | fuel + 1, server, buf => do
      let total ← totalLen buf
      match total with
      | none => return ⟨[], server, buf⟩
      | some n =>
          if buf.length < n then return ⟨[], server, buf⟩
          else
            match answer server (buf.take n) with
            | (none, server') => return ⟨[], server', buf⟩
            | (some reply, server') =>
                let rest ← getMessagesAndSend fuel server' (buf.drop n)
                return { rest with replies := reply :: rest.replies }

end ChordDht.Tcp
