/-
The poll loop of `zmq_worker.c`.

In each turn every socket that is open and has a message receives it, and one reply is sent;
a `rip` closes the socket behind its reply.  The library copies a message as far as the
buffer has room, and returns the length of all of it; the worker takes that for the number of
bytes that were copied, and writes its zero byte there.
-/
import ChordDht.Lib.Slots
import ChordDht.Lib.Trace
import ChordDht.WordCount.Limits

namespace ChordDht.WordCount

open Outcome Slots

/-! ### The loop -/

/-- `zmq_recv`: it copies as much of a message as there is room for, and returns the length of
the message. -/
structure ZmqRecv where
  recv : Bytes → Nat → Bytes → Bytes × Nat
  copies : ∀ buffer capacity msg,
    (recv buffer capacity msg).1 = msg.take capacity ++ buffer.drop (msg.take capacity).length
  result : ∀ buffer capacity msg, (recv buffer capacity msg).2 = msg.length

/-- What the worker finds when it handles a message: the bytes that were in its buffer, whether
`hm_create` gives it a map and `hm_put_inc` its nodes, and what `malloc` gives it for the reply. -/
structure Memory where
  buffer : Bytes
  size : buffer.length = recvBufferSize
  create : Bool
  node : Nat → Bool
  malloc : Malloc

/-- What a socket has for the worker in one turn. -/
inductive Polled where
  | idle
  | fails
  | message (msg : Bytes) (memory : Memory)

/-- `reps`, which is `NULL` where a socket is closed, `active`, and what was sent on which
socket. -/
structure Sockets where
  reps : List Bool
  active : ℤ
  sent : List (Nat × Bytes)
  deriving DecidableEq, Repr

/-- Before the loop: the sockets that could be bound. -/
def Sockets.start (bound : List Bool) : Sockets := ⟨bound, bound.count true, []⟩

/-- `buffer[r] = '\0'`. -/
def terminate (buffer : Bytes) (r : Nat) : Outcome Bytes :=
  if r < buffer.length then .returns (buffer.set r 0) else .faults

/-- A string is sent with its zero, and for `NULL` just a zero. -/
def Reply.ofPointer (reply : Option Bytes) : Reply :=
  match reply with
  | none => ⟨[0], false⟩
  | some text => .ofText text

def mapReplyIn (memory : Memory) (payload : Bytes) (msgLen : Nat) : Option Bytes :=
  if memory.create then
    allocated memory.malloc msgLen
      (wcToMapFormat (wcTokenizeAndCountIn memory.node (hmCreate 1024) payload) msgLen)
  else none

def reduceReplyIn (memory : Memory) (payload : Bytes) (msgLen : Nat) : Option Bytes :=
  if memory.create then
    allocated memory.malloc msgLen (wcToReduceFormat (wcFromMapFormatIn memory.node payload) msgLen)
  else none

/-- The reply to a message of at least three bytes, by its type. -/
def answerIn (memory : Memory) (buffer payload : Bytes) (msgLen : Nat) (newProtocol : Bool) : Reply :=
  if strncmp buffer (ascii "map") 3 then .ofPointer (mapReplyIn memory payload msgLen)
  else if strncmp buffer (ascii "red") 3 then .ofPointer (reduceReplyIn memory payload msgLen)
  else if strncmp buffer (ascii "rip") 3 then ⟨if newProtocol then [0] else ascii "rip" ++ [0], true⟩
  else .ofText []

def dispatchIn (memory : Memory) (buffer : Bytes) (r : Nat) : Reply :=
  if r < 3 then .ofText []
  else if isNewProtocol buffer r then
    answerIn memory buffer (buffer.drop headerLen) (parseMsgLen (buffer.drop 3)) true
  else answerIn memory buffer (buffer.drop 3) maxMsgLen false

/-- `zmq_send`, and `zmq_close` behind the reply to a `rip`. -/
def Sockets.reply (s : Sockets) (i : Nat) (reply : Reply) : Sockets :=
  if reply.closes then ⟨s.reps.set i false, s.active - 1, s.sent ++ [(i, reply.bytes)]⟩
  else { s with sent := s.sent ++ [(i, reply.bytes)] }

/-- The body of the `for` loop, for the socket `i`. -/
def serve (zmq : ZmqRecv) (s : Sockets) (i : Nat) (polled : Polled) : Outcome Sockets :=
  if s.reps.getD i false then
    match polled with
    | .idle => .returns s
    | .fails => .returns s
    | .message msg memory => do
        let received := zmq.recv memory.buffer (recvBufferSize - 1) msg
        let buffer ← terminate received.1 received.2
        return s.reply i (dispatchIn memory buffer received.2)
  else .returns s

/-- The `for` loop from the socket `i` on. -/
def serveAll (zmq : ZmqRecv) : Nat → Sockets → List Polled → Outcome Sockets
  | _, s, [] => .returns s
  | i, s, polled :: more => do
      let s ← serve zmq s i polled
      serveAll zmq (i + 1) s more

/-- The `while` loop, over what each `zmq_poll` says. -/
def pollLoop (zmq : ZmqRecv) : Sockets → List (List Polled) → Outcome Sockets
  | s, [] => .returns s
  | s, polled :: more =>
      if 0 < s.active then do
        let s ← serveAll zmq 0 s polled
        pollLoop zmq s more
      else .returns s

/-! ### What is due to a message -/

inductive Kind where
  | map
  | red
  | rip
  | unknown
  deriving DecidableEq, Repr

/-- The type of a message: its first three bytes. -/
def kind (msg : Bytes) : Kind :=
  if msg.take 3 = ascii "map" then .map
  else if msg.take 3 = ascii "red" then .red
  else if msg.take 3 = ascii "rip" then .rip
  else .unknown

/-- The limit for the reply: the number behind the type, if there is one and it is not zero. -/
def limit (msg : Bytes) : Nat :=
  match announced (msg.drop 3) with
  | some n => if n = 0 then maxMsgLen else n
  | none => maxMsgLen

/-- What is behind the type, and behind the number if there is one. -/
def payload (msg : Bytes) : Bytes :=
  if (announced (msg.drop 3)).isSome then msg.drop headerLen else msg.drop 3

/-- The text of the reply; without memory it is empty. -/
def answerText (memory : Memory) (msg : Bytes) : Bytes :=
  match kind msg with
  | .map => (mapReplyIn memory (payload msg) (limit msg)).getD []
  | .red => (reduceReplyIn memory (payload msg) (limit msg)).getD []
  | .rip => if (announced (msg.drop 3)).isSome then [] else ascii "rip"
  | .unknown => []

/-- The message is answered as it should be: with one reply, which is the text due to it and a
zero byte and no longer than the limit, and the socket is closed if it was a `rip`. -/
structure Answers (memory : Memory) (msg : Bytes) (i : Nat) (s s' : Sockets) : Prop where
  one : s'.sent = s.sent ++ [(i, answerText memory msg ++ [0])]
  text : (0 : UInt8) ∉ answerText memory msg
  room : (answerText memory msg ++ [0]).length ≤ limit msg
  closes : s'.reps = if kind msg = .rip then s.reps.set i false else s.reps

/-- As many sockets are open as `active` says. -/
def Balanced (s : Sockets) : Prop := s.active = s.reps.count true

/-- One turn of the `for` loop is as it should be: a message on an open socket is answered, and
else nothing happens. -/
def Answered (zmq : ZmqRecv) (s : Sockets) (turn : Nat × Polled) : Prop :=
  ∃ s', serve zmq s turn.1 turn.2 = .returns s' ∧ Balanced s' ∧
    match turn.2 with
    | .message msg memory =>
        if s.reps.getD turn.1 false then Answers memory msg turn.1 s s' else s' = s
    | _ => s' = s

/-- A message that is received is shorter than the buffer. -/
def Short (s : Sockets) (turn : Nat × Polled) : Prop :=
  s.reps.getD turn.1 false = true → ∀ msg memory, turn.2 = .message msg memory → msg.length < recvBufferSize

/-- A turn as a step. -/
def turnStep (zmq : ZmqRecv) (s : Sockets) (turn : Nat × Polled) : Option Sockets :=
  match serve zmq s turn.1 turn.2 with
  | .returns s' => some s'
  | _ => none

def turnsFrom : Nat → List Polled → List (Nat × Polled)
  | _, [] => []
  | i, polled :: more => (i, polled) :: turnsFrom (i + 1) more

/-- All turns of the `for` loop, one after the other. -/
def turns (rounds : List (List Polled)) : List (Nat × Polled) := rounds.flatMap (turnsFrom 0)

/-! ### What is in the buffer -/

section Buffer

variable (zmq : ZmqRecv) (memory : Memory) {msg : Bytes}

theorem received_length : (zmq.recv memory.buffer (recvBufferSize - 1) msg).1.length = recvBufferSize := by
  have hsize := memory.size
  have hmax : recvBufferSize = 2048 := rfl
  rw [zmq.copies, List.length_append, List.length_drop, List.length_take]
  omega

/-- A message that is shorter than the buffer is there whole, with the zero byte behind it. -/
theorem terminate_short (h : msg.length < recvBufferSize) :
    ∃ rest, terminate (zmq.recv memory.buffer (recvBufferSize - 1) msg).1 msg.length
      = .returns (msg ++ 0 :: rest) := by
  have hsize := memory.size
  have htake : msg.take (recvBufferSize - 1) = msg := List.take_of_length_le (by omega)
  have hdrop : 0 < (memory.buffer.drop msg.length).length := by
    rw [List.length_drop]
    omega
  obtain ⟨b, rest, hrest⟩ := List.exists_cons_of_ne_nil (List.length_pos_iff.mp hdrop)
  refine ⟨rest, ?_⟩
  rw [terminate, if_pos (by rw [received_length]; exact h), zmq.copies, htake, hrest, set_length_append]

/-- **Behind a longer one the zero byte is written behind the buffer.** -/
theorem terminate_long (h : recvBufferSize ≤ msg.length) :
    terminate (zmq.recv memory.buffer (recvBufferSize - 1) msg).1 msg.length = .faults :=
  if_neg (by rw [received_length]; omega)

end Buffer

/-! ### What is replied -/

theorem announced_short {text : Bytes} (h : text.length < 3) : announced text = none := by
  cases hnew : announced text with
  | none => rfl
  | some n =>
      obtain ⟨-, a, b, c, rest, rfl, -⟩ := announced_le hnew
      exact absurd h (by simp)

/-- The worker takes the newer form from the three bytes behind the type. -/
theorem isNewProtocol_eq (msg rest : Bytes) :
    isNewProtocol (msg ++ 0 :: rest) msg.length = (announced (msg.drop 3)).isSome := by
  have hheader : headerLen = 6 := rfl
  by_cases hlen : 6 ≤ msg.length
  · obtain ⟨front, back, rfl, hfront⟩ : ∃ front back, msg = front ++ back ∧ front.length = 6 :=
      ⟨msg.take 6, msg.drop 6, (List.take_append_drop ..).symm, by rw [List.length_take]; omega⟩
    obtain ⟨x, y, z, a, b, c, rfl⟩ : ∃ x y z a b c, front = [x, y, z, a, b, c] := by
      rcases front with _ | ⟨x, _ | ⟨y, _ | ⟨z, _ | ⟨a, _ | ⟨b, _ | ⟨c, _ | ⟨d, front⟩⟩⟩⟩⟩⟩⟩ <;> simp at hfront
      exact ⟨x, y, z, a, b, c, rfl⟩
    show (decide (headerLen ≤ _) && isDigit a && isDigit b && isDigit c) = (announced (a :: b :: c :: back)).isSome
    rw [decide_eq_true (by rw [hheader]; exact hlen), Bool.true_and, announced]
    cases isDigit a && isDigit b && isDigit c with
    | true => rfl
    | false => rfl
  · rw [announced_short (by rw [List.length_drop]; omega), isNewProtocol,
      decide_eq_false (by rw [hheader]; exact hlen)]
    rfl

theorem ofPointer_eq (reply : Option Bytes) : Reply.ofPointer reply = .ofText (reply.getD []) := by
  cases reply with
  | none => rfl
  | some text => rfl

theorem mapReplyIn_front (memory : Memory) (text rest : Bytes) (n : Nat) :
    mapReplyIn memory (text ++ 0 :: rest) n = mapReplyIn memory text n := by
  rw [mapReplyIn, mapReplyIn, wcTokenizeAndCountIn, wcTokenizeAndCountIn, cstr_front]

theorem reduceReplyIn_front (memory : Memory) (text rest : Bytes) (n : Nat) :
    reduceReplyIn memory (text ++ 0 :: rest) n = reduceReplyIn memory text n := by
  rw [reduceReplyIn, reduceReplyIn, wcFromMapFormatIn, wcFromMapFormatIn, cstr_front]

/-- The type is compared with the first three bytes of the message. -/
theorem strncmp_kind {msg other : Bytes} (hlen : 3 ≤ msg.length) (hother : other.length = 3)
    (hzero : (0 : UInt8) ∉ other) (rest : Bytes) :
    strncmp (msg ++ 0 :: rest) other 3 = true ↔ msg.take 3 = other := by
  have h := @strncmp_length (msg ++ 0 :: rest) other hzero
  rwa [hother, List.take_append_of_le_length hlen] at h

/-- **The worker replies by the type.** -/
theorem answerIn_eq (memory : Memory) {msg : Bytes} (hlen : 3 ≤ msg.length) (rest text : Bytes) (n : Nat)
    (newProtocol : Bool) : answerIn memory (msg ++ 0 :: rest) (text ++ 0 :: rest) n newProtocol =
      match kind msg with
      | .map => .ofText ((mapReplyIn memory text n).getD [])
      | .red => .ofText ((reduceReplyIn memory text n).getD [])
      | .rip => ⟨if newProtocol then [0] else ascii "rip" ++ [0], true⟩
      | .unknown => .ofText [] := by
  simp only [answerIn, kind, strncmp_kind hlen (show (ascii "map").length = 3 from rfl) (by decide) rest,
    strncmp_kind hlen (show (ascii "red").length = 3 from rfl) (by decide) rest,
    strncmp_kind hlen (show (ascii "rip").length = 3 from rfl) (by decide) rest, mapReplyIn_front,
    reduceReplyIn_front, ofPointer_eq]
  by_cases hmap : msg.take 3 = ascii "map"
  · rw [if_pos hmap, if_pos hmap]
  · rw [if_neg hmap, if_neg hmap]
    by_cases hred : msg.take 3 = ascii "red"
    · rw [if_pos hred, if_pos hred]
    · rw [if_neg hred, if_neg hred]
      by_cases hrip : msg.take 3 = ascii "rip"
      · rw [if_pos hrip, if_pos hrip]
      · rw [if_neg hrip, if_neg hrip]

/-- **The reply is the one due to the message.** -/
theorem dispatchIn_eq (memory : Memory) (msg rest : Bytes) :
    dispatchIn memory (msg ++ 0 :: rest) msg.length
      = ⟨answerText memory msg ++ [0], decide (kind msg = .rip)⟩ := by
  have hheader : headerLen = 6 := rfl
  rw [dispatchIn]
  by_cases hlen : msg.length < 3
  · have hkind : kind msg = .unknown := by
      have hne : ∀ {type : Bytes}, type.length = 3 → ¬ msg.take 3 = type := by
        intro type htype hc
        have hcut := congrArg List.length hc
        rw [List.length_take, htype] at hcut
        omega
      rw [kind, if_neg (hne rfl), if_neg (hne rfl), if_neg (hne rfl)]
    rw [if_pos hlen, answerText, hkind]
    rfl
  · rw [if_neg hlen, isNewProtocol_eq]
    have hlong : 3 ≤ msg.length := Nat.le_of_not_lt hlen
    have hbehind : (msg ++ 0 :: rest).drop 3 = msg.drop 3 ++ 0 :: rest := List.drop_append_of_le_length hlong
    cases hnew : announced (msg.drop 3) with
    | none =>
        rw [if_neg (by decide), hbehind, answerIn_eq memory hlong]
        simp only [answerText, limit, payload, hnew, Option.isSome_none, Bool.false_eq_true, if_false]
        cases kind msg with
        | map => rfl
        | red => rfl
        | rip => rfl
        | unknown => rfl
    | some n =>
        have hsix : 6 ≤ msg.length := by
          obtain ⟨-, a, b, c, more, htext, -⟩ := announced_le hnew
          have hdrop := congrArg List.length htext
          rw [List.length_drop, List.length_cons, List.length_cons, List.length_cons] at hdrop
          omega
        have hpayload : (msg ++ 0 :: rest).drop headerLen = msg.drop headerLen ++ 0 :: rest :=
          List.drop_append_of_le_length (by rw [hheader]; exact hsix)
        rw [if_pos (by rfl), hbehind, hpayload, parseMsgLen_announced hnew, answerIn_eq memory hlong]
        simp only [answerText, limit, payload, hnew, Option.isSome_some, if_true]
        cases kind msg with
        | map => rfl
        | red => rfl
        | rip => rfl
        | unknown => rfl

/-! ### With memory for everything -/

def Memory.plenty : Memory :=
  ⟨List.replicate recvBufferSize 0, List.length_replicate, true, fun _ => true, .plenty⟩

theorem parseMsgLen_le (p : Bytes) : parseMsgLen p ≤ maxMsgLen := by
  rw [parseMsgLen]
  split
  · show (if _ ∨ _ then _ else _) ≤ _
    split
    · exact Nat.le_refl _
    · omega
  · exact Nat.le_refl _

theorem allocated_plenty {n : Nat} (hn : n ≤ maxMsgLen) (text : Bytes) : allocated .plenty n text = some text := by
  have hmax : maxMsgLen = 1500 := rfl
  refine if_pos (decide_eq_true ?_)
  split
  · omega
  · omega

theorem mapReplyIn_plenty (payload : Bytes) {n : Nat} (hn : n ≤ maxMsgLen) :
    mapReplyIn .plenty payload n = some (mapReply payload n) := by
  rw [mapReply, ← wcTokenizeAndCountIn_true]
  exact allocated_plenty hn _

theorem reduceReplyIn_plenty (payload : Bytes) {n : Nat} (hn : n ≤ maxMsgLen) :
    reduceReplyIn .plenty payload n = some (reduceReply payload n) := by
  rw [reduceReply, ← wcFromMapFormatIn_true]
  exact allocated_plenty hn _

theorem answerIn_plenty (buffer payload : Bytes) {n : Nat} (hn : n ≤ maxMsgLen) (newProtocol : Bool) :
    answerIn .plenty buffer payload n newProtocol = answer buffer payload n newProtocol := by
  rw [answerIn, answer, mapReplyIn_plenty payload hn, reduceReplyIn_plenty payload hn]
  rfl

/-- **With memory a message is handled as ever.** -/
theorem handle_eq {msg : Bytes} (h : msg.length < recvBufferSize) :
    handle msg = .returns ⟨answerText .plenty msg ++ [0], decide (kind msg = .rip)⟩ := by
  have hdispatch : ∀ buffer r, dispatchIn .plenty buffer r = dispatch buffer r := by
    intro buffer r
    rw [dispatchIn, dispatch, answerLegacy, answerIn_plenty _ _ (parseMsgLen_le _),
      answerIn_plenty _ _ (Nat.le_refl _)]
  rw [handle, receive, if_neg (Nat.not_le_of_lt h), returns_bind, ← hdispatch, dispatchIn_eq, pure_eq]

/-! ### What is sent -/

theorem limit_bounds (msg : Bytes) : 0 < limit msg ∧ limit msg ≤ maxMsgLen := by
  have hmax : maxMsgLen = 1500 := rfl
  rw [limit]
  cases hnew : announced (msg.drop 3) with
  | none => exact ⟨Nat.succ_pos _, Nat.le_refl _⟩
  | some n =>
      have hle := (announced_le hnew).1
      show 0 < (if n = 0 then maxMsgLen else n) ∧ (if n = 0 then maxMsgLen else n) ≤ maxMsgLen
      split
      · omega
      · omega

theorem payload_length (msg : Bytes) : (cstr (payload msg)).length ≤ msg.length := by
  refine (cstr_length_le _).trans ?_
  rw [payload]
  split
  · rw [List.length_drop]
    exact Nat.sub_le ..
  · rw [List.length_drop]
    exact Nat.sub_le ..

/-- A text that is sent if there is memory for it, and else nothing. -/
theorem sendable_allocated {maxLen : Nat} {text : Bytes} (hpos : 0 < maxLen) (h : Sendable maxLen text)
    (malloc : Malloc) : Sendable maxLen ((allocated malloc maxLen text).getD []) := by
  rw [allocated]
  cases malloc.gives (if maxLen ≤ 1 then 1 else maxLen) with
  | true => exact h
  | false => exact sendable_nil hpos

/-- **The text fits the limit**, with its zero, and has none in it. -/
theorem answerText_sendable (memory : Memory) {msg : Bytes} (h : msg.length < recvBufferSize) :
    Sendable (limit msg) (answerText memory msg) := by
  obtain ⟨hpos, hmax⟩ := limit_bounds msg
  have hpayload := payload_length msg
  rw [answerText]
  cases kind msg with
  | map =>
      show Sendable _ (Option.getD (if memory.create then _ else _) [])
      split
      · refine sendable_allocated hpos ?_ memory.malloc
        exact (filled_tokenize memory.node (payload msg)).sendable_map (by omega) hpos hmax
      · exact sendable_nil hpos
  | red =>
      show Sendable _ (Option.getD (if memory.create then _ else _) [])
      split
      · refine sendable_allocated hpos ?_ memory.malloc
        exact (filled_fromMapFormat memory.node (payload msg)).sendable_reduce (by omega) hpos hmax
      · exact sendable_nil hpos
  | rip =>
      show Sendable _ (if (announced (msg.drop 3)).isSome then [] else ascii "rip")
      cases hnew : announced (msg.drop 3) with
      | none => exact ⟨by decide, by rw [limit, hnew]; decide⟩
      | some n => exact sendable_nil hpos
  | unknown => exact sendable_nil hpos

/-! ### One turn -/

section Turn

variable (zmq : ZmqRecv) {s : Sockets} {i : Nat}

/-- A socket that is closed is passed over. -/
theorem serve_closed (h : s.reps.getD i false = false) (polled : Polled) : serve zmq s i polled = .returns s :=
  if_neg (by rw [h]; exact Bool.false_ne_true)

/-- **A shorter message gets its reply.** -/
theorem serve_short (hopen : s.reps.getD i false = true) {msg : Bytes} (memory : Memory)
    (h : msg.length < recvBufferSize) : serve zmq s i (.message msg memory)
      = .returns (s.reply i ⟨answerText memory msg ++ [0], decide (kind msg = .rip)⟩) := by
  obtain ⟨rest, hbuffer⟩ := terminate_short zmq memory h
  rw [serve, if_pos hopen]
  simp only [zmq.result, hbuffer, returns_bind, dispatchIn_eq, pure_eq]

/-- **A longer one is the end of the worker.** -/
theorem serve_long (hopen : s.reps.getD i false = true) {msg : Bytes} (memory : Memory)
    (h : recvBufferSize ≤ msg.length) : serve zmq s i (.message msg memory) = .faults := by
  rw [serve, if_pos hopen]
  simp only [zmq.result, terminate_long zmq memory h, faults_bind]

/-- A turn comes to its end exactly when the message in it is short. -/
theorem serve_returns_iff (turn : Nat × Polled) :
    (∃ s', serve zmq s turn.1 turn.2 = .returns s') ↔ Short s turn := by
  obtain ⟨i, polled⟩ := turn
  cases hopen : s.reps.getD i false with
  | false =>
      refine iff_of_true ⟨s, serve_closed zmq hopen polled⟩ ?_
      intro hclosed
      rw [hopen] at hclosed
      exact absurd hclosed Bool.false_ne_true
  | true =>
      cases polled with
      | idle => exact iff_of_true ⟨s, if_pos hopen⟩ fun _ _ _ hc => Polled.noConfusion hc
      | fails => exact iff_of_true ⟨s, if_pos hopen⟩ fun _ _ _ hc => Polled.noConfusion hc
      | message msg memory =>
          constructor
          · rintro ⟨s', hserve⟩ - msg' memory' heq
            obtain ⟨rfl, -⟩ := Polled.message.inj heq
            by_contra hlong
            rw [serve_long zmq hopen memory (Nat.le_of_not_lt hlong)] at hserve
            cases hserve
          · intro hshort
            exact ⟨_, serve_short zmq hopen memory (hshort hopen msg memory rfl)⟩

/-- A reply leaves `active` the number of open sockets. -/
theorem reply_balanced (h : Balanced s) (hopen : s.reps.getD i false = true) (reply : Reply) :
    Balanced (s.reply i reply) := by
  obtain ⟨reps, active, sent⟩ := s
  rw [Sockets.reply]
  split
  · have hslot : reps[i]? = some true := by
      rw [List.getD_eq_getElem?_getD] at hopen
      cases hrep : reps[i]? with
      | none => rw [hrep] at hopen; exact absurd hopen Bool.false_ne_true
      | some b => rw [hrep, Option.getD_some] at hopen; rw [hopen]
    obtain ⟨before, after, rfl, hlen⟩ := between_of_getElem? hslot
    show active - 1 = (((before ++ true :: after).set i false).count true : ℤ)
    rw [Balanced] at h
    simp only [List.count_append, List.count_cons_self] at h
    rw [← hlen, set_between, List.count_append, List.count_cons_of_ne (by decide)]
    push_cast at h ⊢
    omega
  · exact h

theorem turnStep_eq_some {s' : Sockets} {turn : Nat × Polled} :
    turnStep zmq s turn = some s' ↔ serve zmq s turn.1 turn.2 = .returns s' := by
  rw [turnStep]
  cases serve zmq s turn.1 turn.2 <;> simp

/-- What a turn that comes to its end has done. -/
theorem serve_cases {polled : Polled} {s' : Sockets} (h : serve zmq s i polled = .returns s') :
    s' = s ∨ s.reps.getD i false = true ∧ ∃ reply, s' = s.reply i reply := by
  cases hopen : s.reps.getD i false with
  | false =>
      rw [serve_closed zmq hopen polled, returns.injEq] at h
      exact Or.inl h.symm
  | true =>
      cases polled with
      | idle =>
          rw [serve, if_pos hopen, returns.injEq] at h
          exact Or.inl h.symm
      | fails =>
          rw [serve, if_pos hopen, returns.injEq] at h
          exact Or.inl h.symm
      | message msg memory =>
          rw [serve, if_pos hopen, bind_eq_returns] at h
          obtain ⟨buffer, -, hreply⟩ := h
          exact Or.inr ⟨rfl, _, (returns.inj hreply).symm⟩

theorem turnStep_balanced (turn : Nat × Polled) (s' : Sockets) (hs : Balanced s)
    (h : turnStep zmq s turn = some s') : Balanced s' := by
  rcases serve_cases zmq ((turnStep_eq_some zmq).mp h) with rfl | ⟨hopen, reply, rfl⟩
  · exact hs
  · exact reply_balanced hs hopen reply

/-- **A turn is as it should be exactly when the message in it is short.** -/
theorem answered_iff (turn : Nat × Polled) (hs : Balanced s) : Answered zmq s turn ↔ Short s turn := by
  constructor
  · rintro ⟨s', hserve, -⟩
    exact (serve_returns_iff zmq turn).mp ⟨s', hserve⟩
  · intro hshort
    obtain ⟨s', hserve⟩ := (serve_returns_iff zmq turn).mpr hshort
    refine ⟨s', hserve, turnStep_balanced zmq turn s' hs ((turnStep_eq_some zmq).mpr hserve), ?_⟩
    obtain ⟨i, polled⟩ := turn
    cases hopen : s.reps.getD i false with
    | false =>
        rw [serve_closed zmq hopen polled, returns.injEq] at hserve
        cases polled with
        | idle => exact hserve.symm
        | fails => exact hserve.symm
        | message msg memory => exact hserve.symm
    | true =>
        cases polled with
        | idle => exact (returns.inj ((if_pos hopen).symm.trans hserve)).symm
        | fails => exact (returns.inj ((if_pos hopen).symm.trans hserve)).symm
        | message msg memory =>
            show Answers memory msg i s s'
            have hlen := hshort hopen msg memory rfl
            have htext := answerText_sendable memory hlen
            rw [serve_short zmq hopen memory hlen, returns.injEq] at hserve
            subst hserve
            refine ⟨?_, htext.zero, ?_, ?_⟩
            · rw [Sockets.reply]
              split
              · rfl
              · rfl
            · rw [List.length_append]
              exact htext.room
            · rw [Sockets.reply]
              by_cases hrip : kind msg = .rip
              · rw [decide_eq_true hrip, if_pos rfl, if_pos hrip]
              · rw [decide_eq_false hrip, if_neg Bool.false_ne_true, if_neg hrip]

end Turn

/-! ### The whole loop -/

section Loop

variable (zmq : ZmqRecv)

/-- The `for` loop is its turns. -/
theorem serveAll_eq_returns (polled : List Polled) : ∀ {i : Nat} {s s' : Sockets},
    serveAll zmq i s polled = .returns s' ↔ Trace.run (turnStep zmq) s (turnsFrom i polled) = some s' := by
  induction polled with
  | nil =>
      intro i s s'
      rw [serveAll, turnsFrom, Trace.run, returns.injEq, Option.some.injEq]
  | cons polled more ih =>
      intro i s s'
      rw [serveAll, turnsFrom, bind_eq_returns, Trace.run_cons_eq_some]
      simp only [turnStep_eq_some, ih]

/-- Once all sockets are closed nothing happens. -/
theorem short_closed {s : Sockets} (h : ∀ i, s.reps.getD i false = false) (turns : List (Nat × Polled)) :
    Trace.Along (turnStep zmq) Short s turns := by
  induction turns with
  | nil => trivial
  | cons turn turns ih =>
      refine ⟨?_, ?_⟩
      · intro hopen
        rw [h] at hopen
        exact absurd hopen Bool.false_ne_true
      · intro s' hs'
        rw [turnStep_eq_some, serve_closed zmq (h turn.1), returns.injEq] at hs'
        rwa [← hs']

/-- A run of the loop comes to its end exactly when every message it receives is short. -/
theorem pollLoop_returns_iff (rounds : List (List Polled)) : ∀ {s : Sockets}, Balanced s →
    ((∃ s', pollLoop zmq s rounds = .returns s') ↔ Trace.Along (turnStep zmq) Short s (turns rounds)) := by
  have hpossible : ∀ s turn, (∃ s', turnStep zmq s turn = some s') ↔ Short s turn := by
    intro s turn
    simp only [turnStep_eq_some, serve_returns_iff]
  induction rounds with
  | nil => intro s _; exact iff_of_true ⟨s, rfl⟩ trivial
  | cons polled more ih =>
      intro s hs
      have hturns : turns (polled :: more) = turnsFrom 0 polled ++ turns more := List.flatMap_cons
      rw [hturns]
      by_cases hactive : 0 < s.active
      · rw [Trace.along_append, ← Trace.run_exists_iff hpossible]
        have hkeep : ∀ {t}, Trace.run (turnStep zmq) s (turnsFrom 0 polled) = some t → Balanced t := by
          intro t hrun
          exact Trace.run_keep (fun u turn u' hu => turnStep_balanced zmq turn u' hu) _ hs hrun
        simp only [pollLoop, if_pos hactive, bind_eq_returns, serveAll_eq_returns]
        constructor
        · rintro ⟨s', t, hrun, hrest⟩
          refine ⟨⟨t, hrun⟩, ?_⟩
          intro t' hrun'
          rw [hrun, Option.some.injEq] at hrun'
          subst hrun'
          exact (ih (hkeep hrun)).mp ⟨s', hrest⟩
        · rintro ⟨⟨t, hrun⟩, hall⟩
          obtain ⟨s', hrest⟩ := (ih (hkeep hrun)).mpr (hall t hrun)
          exact ⟨s', t, hrun, hrest⟩
      · refine iff_of_true ⟨s, if_neg hactive⟩ (short_closed zmq ?_ _)
        -- as many sockets are open as `active` says, which is none
        have hnone : s.reps.count true = 0 := by
          rw [Balanced] at hs
          omega
        intro i
        rw [List.getD_eq_getElem?_getD]
        cases hrep : s.reps[i]? with
        | none => rfl
        | some b =>
            have hmem := List.mem_of_getElem? hrep
            cases b with
            | false => rfl
            | true => exact absurd hmem (List.count_eq_zero.mp hnone)

theorem start_balanced (bound : List Bool) : Balanced (.start bound) := rfl

/-- **The worker answers every message it has room for.**  Whatever the sockets and whatever comes
to them: the loop comes to its end, with one reply to each message, which fits its limit, with a
socket closed behind the reply to a `rip` and never else, and with as many open sockets as
`active` says, exactly when every message that is received is shorter than the buffer. -/
theorem worker_answers_iff (bound : List Bool) (rounds : List (List Polled)) :
    (∃ s, pollLoop zmq (.start bound) rounds = .returns s) ∧
        Trace.Along (turnStep zmq) (Answered zmq) (.start bound) (turns rounds) ↔
      Trace.Along (turnStep zmq) Short (.start bound) (turns rounds) := by
  have hkeep : ∀ s turn s', Balanced s → Short s turn → turnStep zmq s turn = some s' → Balanced s' :=
    fun s turn s' hs _ hstep => turnStep_balanced zmq turn s' hs hstep
  have hiff : ∀ s turn, Balanced s → (Answered zmq s turn ↔ Short s turn) :=
    fun s turn hs => answered_iff zmq turn hs
  have hanswered := Trace.along_congr hiff hkeep (turns rounds) (start_balanced bound)
  rw [hanswered, pollLoop_returns_iff zmq rounds (start_balanced bound), and_self]

end Loop

/-- A `zmq_recv` that leaves the rest of the buffer as it was. -/
def ZmqRecv.truncating : ZmqRecv :=
  ⟨fun buffer capacity msg => (msg.take capacity ++ buffer.drop (msg.take capacity).length, msg.length),
    fun _ _ _ => rfl, fun _ _ _ => rfl⟩

/-- A map request with its own limit, and then a `rip`. -/
theorem worker_answers_two :
    (∃ s, pollLoop .truncating (.start [true])
        [[.message (ascii "map005a b") .plenty], [.message (ascii "rip") .plenty]] = .returns s) ∧
      Trace.Along (turnStep .truncating) (Answered .truncating) (.start [true])
        (turns [[.message (ascii "map005a b") .plenty], [.message (ascii "rip") .plenty]]) := by
  refine (worker_answers_iff .truncating [true] _).mpr ⟨?_, fun _ _ => ⟨?_, fun _ _ => trivial⟩⟩
  · intro _ msg memory hmsg
    obtain ⟨rfl, -⟩ := Polled.message.inj hmsg
    decide
  · intro _ msg memory hmsg
    obtain ⟨rfl, -⟩ := Polled.message.inj hmsg
    decide

/-! ### A message that is too long -/

/-- One byte more than there is room for: a map request for a text of 2045 letters. -/
def tooLong : Bytes := ascii "map" ++ List.replicate 2045 97

/-- **No message of 2048 bytes is answered.** -/
theorem worker_overrun :
    pollLoop .truncating (.start [true]) [[.message tooLong .plenty]] = .faults ∧
      ¬ Trace.Along (turnStep .truncating) (Answered .truncating) (.start [true])
        (turns [[.message tooLong .plenty]]) := by
  have hlong : recvBufferSize ≤ tooLong.length := by
    rw [tooLong, List.length_append, List.length_replicate]
    exact Nat.le_refl 2048
  have hserve := @serve_long .truncating (.start [true]) 0 rfl tooLong .plenty hlong
  constructor
  · rw [pollLoop, if_pos (by decide), serveAll, hserve]
    rfl
  · rintro ⟨⟨s', hreturns, -⟩, -⟩
    have hboth := hserve.symm.trans hreturns
    cases hboth

end ChordDht.WordCount
