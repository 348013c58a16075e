/-
The connection of a client, and how TCP cuts what it sends.

`serve` is the receive loop of `webserver.c` over a stream, where the network decides
how much of it each `recv` hands over.  The messages of the stream do not depend on
that: `framer` finds them from the front, as the code does, and decides on what it has
seen.  So `serve_splits` can say what the replies are without a word about `recv`.
-/
import ChordDht.Lib.Framing
import ChordDht.Tcp.MessageHandler

namespace ChordDht.Tcp

open Outcome

/-- `sizeof(buff)`. -/
def buffSize : Nat := 8192

/-- What was sent over a connection, the globals afterwards, and at its end the bytes in
the buffer and those that were not received. -/
structure Served where
  replies : List Bytes
  server : Server
  buf : Bytes
  unread : Bytes
  deriving DecidableEq, Repr

/-- The receive loop.  There is at least one byte in what `recv` returns, and at most
what has been sent and what there is room for; how many it is, `cut` decides.  The loop
ends when `recv` returns nothing: the client is done, or there is no room. -/
def serve (cut : Nat → Nat) : Nat → Nat → Server → Bytes → Bytes → Outcome Served
  | 0, _, _, _, _ => .diverges
  | fuel + 1, i, server, buf, stream => do
      let bytes := min (max 1 (cut i)) (min (buffSize - buf.length) stream.length)
      if bytes = 0 then return ⟨[], server, buf, stream⟩
      else
        let sent ← getMessagesAndSend (buf.length + bytes + 1) server (buf ++ stream.take bytes)
        let served ← serve cut fuel (i + 1) sent.server sent.buf (stream.drop bytes)
        return { served with replies := sent.replies ++ served.replies }

/-- A connection over which the client sends this stream. -/
def serveConnection (cut : Nat → Nat) (server : Server) (stream : Bytes) : Outcome Served :=
  serve cut (stream.length + 1) 0 server [] stream

/-! ### Messages -/

theorem totalLen_found {buf : Bytes} {headerEnd : Nat} (h : findCrlfcrlf buf = some headerEnd) :
    totalLen buf =
      let total := headerEnd + 4 + contentLength (buf.take (headerEnd + 4))
      if 2 ^ 31 ≤ total then .faults else .returns (some total) := by
  have hle := search_le h
  have hlen : (crlf ++ crlf).length = 4 := rfl
  unfold totalLen
  rw [if_neg (by omega), h]

theorem totalLen_not_found {buf : Bytes} (h : findCrlfcrlf buf = none) :
    totalLen buf = .returns none := by
  unfold totalLen
  rw [h]
  split <;> rfl

/-- When the length of the message at the front is known. -/
theorem totalLen_eq_some {buf : Bytes} {n : Nat} :
    totalLen buf = .returns (some n) ↔ ∃ headerEnd, findCrlfcrlf buf = some headerEnd ∧
      n = headerEnd + 4 + contentLength (buf.take (headerEnd + 4)) ∧ n < 2 ^ 31 := by
  constructor
  · intro h
    cases hfind : findCrlfcrlf buf with
    | none =>
        rw [totalLen_not_found hfind] at h
        exact nomatch h
    | some headerEnd =>
        refine ⟨headerEnd, rfl, ?_⟩
        rw [totalLen_found hfind] at h
        simp only at h
        split at h
        · exact nomatch h
        · rw [Outcome.returns.injEq, Option.some.injEq] at h
          omega
  · intro ⟨headerEnd, hfind, hn, hlt⟩
    rw [totalLen_found hfind, ← hn]
    exact if_neg (by omega)

/-- The length of a message is settled with its headers. -/
theorem totalLen_append {buf : Bytes} (h : totalLen buf ≠ .returns none) (more : Bytes) :
    totalLen (buf ++ more) = totalLen buf := by
  cases hfind : findCrlfcrlf buf with
  | none => exact absurd (totalLen_not_found hfind) h
  | some headerEnd =>
      have hle := search_le hfind
      have hlen : (crlf ++ crlf).length = 4 := rfl
      have hmore : findCrlfcrlf (buf ++ more) = some headerEnd := search_append hfind more
      rw [totalLen_found hfind, totalLen_found hmore, List.take_append_of_le_length (by omega)]

/-- It can be read off the message alone. -/
theorem totalLen_take {buf : Bytes} {n : Nat} (h : totalLen buf = .returns (some n)) {k : Nat}
    (hk : n ≤ k) : totalLen (buf.take k) = .returns (some n) := by
  obtain ⟨headerEnd, hfind, hn, hlt⟩ := totalLen_eq_some.mp h
  have hlen : (crlf ++ crlf).length = 4 := rfl
  have hearly : findCrlfcrlf (buf.take k) = some headerEnd := search_take hfind (by omega)
  refine totalLen_eq_some.mpr ⟨headerEnd, hearly, ?_, hlt⟩
  rw [List.take_take, Nat.min_eq_left (by omega), hn]

theorem totalLen_pos {buf : Bytes} {n : Nat} (h : totalLen buf = .returns (some n)) : 0 < n := by
  obtain ⟨headerEnd, -, hn, -⟩ := totalLen_eq_some.mp h
  omega

theorem totalLen_ends (buf : Bytes) : totalLen buf ≠ .diverges ∧ totalLen buf ≠ .exits := by
  cases hfind : findCrlfcrlf buf with
  | none =>
      rw [totalLen_not_found hfind]
      exact ⟨nofun, nofun⟩
  | some headerEnd =>
      rw [totalLen_found hfind]
      simp only
      split
      · exact ⟨nofun, nofun⟩
      · exact ⟨nofun, nofun⟩

/-- The length of a complete message at the front of the stream, if the buffer can hold it. -/
def nextMessage (stream : Bytes) : Option Nat :=
  match totalLen stream with
  | .returns (some n) => if n ≤ stream.length ∧ n ≤ buffSize then some n else none
  | _ => none

theorem nextMessage_eq_some {stream : Bytes} {n : Nat} :
    nextMessage stream = some n ↔
      totalLen stream = .returns (some n) ∧ n ≤ stream.length ∧ n ≤ buffSize := by
  unfold nextMessage
  split
  · rename_i k h
    rw [h]
    simp only [Option.ite_none_right_eq_some, Option.some.injEq, Outcome.returns.injEq]
    constructor
    · rintro ⟨hk, rfl⟩
      exact ⟨rfl, hk⟩
    · rintro ⟨rfl, hk⟩
      exact ⟨hk, rfl⟩
  · rename_i h
    constructor
    · intro hc
      exact nomatch hc
    · intro ⟨hc, _⟩
      exact absurd hc (h n)

/-- **The code finds messages on what it has seen.** -/
def framer : Framer UInt8 where
  next := nextMessage
  pos h := totalLen_pos (nextMessage_eq_some.mp h).1
  le h := (nextMessage_eq_some.mp h).2.1
  stable := by
    intro s n h more
    obtain ⟨htotal, hle, hfits⟩ := nextMessage_eq_some.mp h
    have hne : totalLen s ≠ .returns none := by
      rw [htotal]
      exact fun hc => nomatch hc
    refine nextMessage_eq_some.mpr ⟨?_, ?_, hfits⟩
    · rw [totalLen_append hne, htotal]
    · rw [List.length_append]
      omega
  early := by
    intro s n h k hk
    obtain ⟨htotal, hle, hfits⟩ := nextMessage_eq_some.mp h
    refine nextMessage_eq_some.mpr ⟨totalLen_take htotal hk, ?_, hfits⟩
    rw [List.length_take]
    omega

/-! ### Lengths that are numbers -/

/-- At every message of the stream whose headers are complete, the length of the headers
and the content length add up to an `int`. -/
def Representable (stream : Bytes) : Prop :=
  ∀ (messages : List Bytes) (rest : Bytes), stream = messages.flatten ++ rest →
    (∀ m ∈ messages, totalLen m = .returns (some m.length)) → totalLen rest ≠ .faults

theorem Representable.front {stream more : Bytes} (h : Representable (stream ++ more)) :
    Representable stream := by
  intro messages rest hstream hmessages hfault
  refine h messages (rest ++ more) (by rw [hstream, List.append_assoc]) hmessages ?_
  rw [totalLen_append (by rw [hfault]; exact fun hc => nomatch hc), hfault]

theorem Representable.behind {messages : List Bytes} {stream : Bytes}
    (h : Representable (messages.flatten ++ stream))
    (hmessages : ∀ m ∈ messages, totalLen m = .returns (some m.length)) : Representable stream := by
  intro more rest hstream hmore
  refine h (messages ++ more) rest ?_ ?_
  · rw [hstream, List.flatten_append, List.append_assoc]
  · intro m hm
    rcases List.mem_append.mp hm with hm | hm
    · exact hmessages m hm
    · exact hmore m hm

theorem representable_of_last {rest : Bytes} (hfault : totalLen rest ≠ .faults)
    (hpart : ∀ n, totalLen rest = .returns (some n) → rest.length < n) : Representable rest := by
  intro messages rest' hstream hmessages
  cases messages with
  | nil =>
      have hrest : rest = rest' := hstream
      rwa [← hrest]
  | cons m ms =>
      have hm := hmessages m (List.mem_cons_self ..)
      have hne : totalLen m ≠ .returns none := by
        rw [hm]
        exact nofun
      have htotal := totalLen_append hne (ms.flatten ++ rest')
      rw [← List.append_assoc, ← List.flatten_cons, ← hstream, hm] at htotal
      have hlt := hpart _ htotal
      rw [hstream, List.flatten_cons, List.length_append, List.length_append] at hlt
      omega

theorem representable_cons {m stream : Bytes} (hm : totalLen m = .returns (some m.length))
    (h : Representable stream) : Representable (m ++ stream) := by
  intro messages rest hstream hmessages
  have hne : ∀ {q : Bytes}, totalLen q = .returns (some q.length) → totalLen q ≠ .returns none := by
    intro q hq
    rw [hq]
    exact nofun
  have htotal := (totalLen_append (hne hm) stream).trans hm
  cases messages with
  | nil =>
      have hrest : m ++ stream = rest := hstream
      rw [← hrest, htotal]
      exact nofun
  | cons m' ms =>
      have hm' := hmessages m' (List.mem_cons_self ..)
      have htotal' := (totalLen_append (hne hm') (ms.flatten ++ rest)).trans hm'
      rw [List.flatten_cons, List.append_assoc] at hstream
      rw [← hstream, htotal, Outcome.returns.injEq, Option.some.injEq] at htotal'
      obtain ⟨-, htail⟩ := List.append_inj hstream htotal'
      exact h ms rest htail fun q hq => hmessages q (List.mem_cons_of_mem _ hq)

theorem isMessage_totalLen {m : Bytes} (h : framer.IsMessage m) :
    totalLen m = .returns (some m.length) := (nextMessage_eq_some.mp h).1

/-- Where the stream does not begin with a message that fits, a buffer with part of it is
left alone. -/
theorem idle {rest : Bytes} (hnext : framer.next rest = none) (hfault : totalLen rest ≠ .faults)
    (hfits : rest.length ≤ buffSize) :
    totalLen rest = .returns none ∨ ∃ n, totalLen rest = .returns (some n) ∧ rest.length < n := by
  cases htotal : totalLen rest with
  | diverges => exact absurd htotal (totalLen_ends rest).1
  | exits => exact absurd htotal (totalLen_ends rest).2
  | faults => exact absurd htotal hfault
  | returns total =>
      cases total with
      | none => exact Or.inl rfl
      | some n =>
          refine Or.inr ⟨n, rfl, ?_⟩
          by_contra hle
          have hsome : nextMessage rest = some n := nextMessage_eq_some.mpr ⟨htotal, by omega, by omega⟩
          have hnone : nextMessage rest = none := hnext
          rw [hsome] at hnone
          exact nomatch hnone

/-! ### Replies -/

theorem cstr_body_length (server : Server) : (cstr server.body).length < bodySize :=
  Nat.lt_of_le_of_lt (cstr_length_le _) server.fits

theorem respBody_length (server : Server) : (respBody server).length < bodySize := by
  have hbody := cstr_body_length server
  unfold respBody
  split
  · exact hbody
  · split
    · decide
    · split
      · decide
      · split <;> decide

/-- There is room for every reply. -/
theorem replyOk_room (server : Server) : ¬ 9000 ≤ (replyOk (respBody server)).length := by
  have hbody := respBody_length server
  have hsize : bodySize = 8192 := rfl
  have hdigits : (decimal (respBody server).length).length ≤ 4 :=
    decimal_length_le (by omega) (by omega)
  have hprefix : replyOkPrefix.length = 33 := by decide
  have hcrlf : crlf.length = 2 := rfl
  simp only [replyOk, List.length_append, hprefix, hcrlf]
  omega

theorem reply_ok (server : Server) : reply server 200 = some (replyOk (respBody server)) :=
  if_neg (replyOk_room server)

theorem reply_some (server : Server) (code : Nat) : ∃ r, reply server code = some r := by
  unfold reply
  simp only [replyOk_room server, if_false]
  repeat' split
  all_goals exact ⟨_, rfl⟩

theorem answer_some (server : Server) (message : Bytes) : ∃ r, (answer server message).1 = some r :=
  reply_some _ _

/-- One message after the other: the reply to each of them, and the globals at the end. -/
def answerAll : Server → List Bytes → List Bytes × Server
  | server, [] => ([], server)
  | server, message :: messages =>
      let answered := answer server message
      let more := answerAll answered.2 messages
      (answered.1.getD [] :: more.1, more.2)

theorem answerAll_length : ∀ (messages : List Bytes) (server : Server),
    (answerAll server messages).1.length = messages.length := by
  intro messages
  induction messages with
  | nil => intro server; rfl
  | cons m ms ih => intro server; exact congrArg (· + 1) (ih _)

theorem answerAll_append : ∀ (messages more : List Bytes) (server : Server),
    answerAll server (messages ++ more) =
      ((answerAll server messages).1 ++ (answerAll (answerAll server messages).2 more).1,
        (answerAll (answerAll server messages).2 more).2) := by
  intro messages more
  induction messages with
  | nil => intro server; rfl
  | cons m ms ih =>
      intro server
      simp only [List.cons_append, answerAll, ih]

/-! ### One call, and all of them -/

/-- **A call of `get_messages_and_send`** answers the messages that are in the buffer, and
keeps the rest. -/
theorem getMessagesAndSend_splits : ∀ (messages : List Bytes) {server : Server} {buf rest : Bytes}
    {fuel : Nat}, framer.Splits buf messages rest → Representable buf → buf.length ≤ buffSize →
      buf.length < fuel →
        getMessagesAndSend fuel server buf
          = .returns ⟨(answerAll server messages).1, (answerAll server messages).2, rest⟩ := by
  intro messages
  induction messages with
  | nil =>
      intro server buf rest fuel hs hrep hfits hfuel
      obtain ⟨fuel, rfl⟩ : ∃ f, fuel = f + 1 := ⟨fuel - 1, by omega⟩
      have hbuf : buf = rest := hs.eq
      subst hbuf
      have hfault : totalLen buf ≠ .faults := hrep [] buf rfl (fun _ hm => absurd hm List.not_mem_nil)
      rw [getMessagesAndSend]
      rcases idle hs.last hfault hfits with htotal | ⟨n, htotal, hlt⟩
      · rw [htotal]
        rfl
      · rw [htotal, returns_bind]
        simp only [hlt, if_true]
        rfl
  | cons m ms ih =>
      intro server buf rest fuel hs hrep hfits hfuel
      obtain ⟨fuel, rfl⟩ : ∃ f, fuel = f + 1 := ⟨fuel - 1, by omega⟩
      have hm : framer.IsMessage m := hs.whole m (List.mem_cons_self ..)
      have hbuf : buf = m ++ (ms.flatten ++ rest) := by
        rw [hs.eq, List.flatten_cons, List.append_assoc]
      have hnext : nextMessage buf = some m.length := by
        rw [hbuf]
        exact Framer.next_message hm _
      obtain ⟨htotal, hle, -⟩ := nextMessage_eq_some.mp hnext
      have hpos := totalLen_pos htotal
      have hrest : framer.Splits (ms.flatten ++ rest) ms rest :=
        ⟨rfl, fun q hq => hs.whole q (List.mem_cons_of_mem _ hq), hs.last⟩
      have hrep' : Representable (ms.flatten ++ rest) := by
        refine @Representable.behind [m] _ ?_ ?_
        · simpa [hbuf] using hrep
        · intro q hq
          rw [List.mem_singleton.mp hq]
          exact isMessage_totalLen hm
      have htake : buf.take m.length = m := by rw [hbuf, List.take_left]
      have hdrop : buf.drop m.length = ms.flatten ++ rest := by rw [hbuf, List.drop_left]
      have hlen : buf.length = m.length + (ms.flatten ++ rest).length := by
        rw [hbuf, List.length_append]
      obtain ⟨r, hr⟩ := answer_some server m
      have hanswer : answer server m = (some r, (answer server m).2) := Prod.ext hr rfl
      have hgo : getMessagesAndSend fuel (answer server m).2 (ms.flatten ++ rest) = _ :=
        ih hrest hrep' (by omega) (by omega)
      rw [getMessagesAndSend, htotal, returns_bind]
      simp only [if_neg (Nat.not_lt.mpr hle), htake, hdrop]
      rw [hanswer]
      simp only [hgo, returns_bind, answerAll, hr]
      rfl

/-- **The receive loop** answers the messages of the stream. -/
theorem serve_splits (cut : Nat → Nat) : ∀ (fuel i : Nat) {server : Server}
    {buf stream rest : Bytes} {messages : List Bytes}, framer.Splits (buf ++ stream) messages rest →
      framer.next buf = none → Representable (buf ++ stream) → buf.length ≤ buffSize →
      stream.length < fuel →
        serve cut fuel i server buf stream = .returns ⟨(answerAll server messages).1,
          (answerAll server messages).2, rest.take buffSize, rest.drop buffSize⟩ := by
  intro fuel
  induction fuel with
  | zero => intro _ _ _ _ _ _ _ _ _ _ hfuel; exact absurd hfuel (Nat.not_lt_zero _)
  | succ fuel ih =>
      intro i server buf stream rest messages hs hnone hrep hfits hfuel
      rw [serve]
      by_cases hend : min (max 1 (cut i)) (min (buffSize - buf.length) stream.length) = 0
      · rw [if_pos hend, pure_eq]
        have hcase : stream = [] ∨ buf.length = buffSize := by
          by_cases hstream : stream = []
          · exact Or.inl hstream
          · have hlen := List.length_pos_iff.mpr hstream
            omega
        have hidle : framer.next (buf ++ stream) = none := by
          rcases hcase with hstream | hfull
          · rw [hstream, List.append_nil]
            exact hnone
          · cases hnext : framer.next (buf ++ stream) with
            | none => rfl
            | some n =>
                -- the message would be one of the buffer
                have hn : n ≤ buffSize := (nextMessage_eq_some.mp hnext).2.2
                have hearly := framer.early hnext (k := buf.length) (by omega)
                rw [List.take_left, hnone] at hearly
                exact nomatch hearly
        obtain ⟨hmessages, hrest⟩ := hs.unique (Framer.Splits.nil hidle)
        rw [hmessages, hrest]
        rcases hcase with hstream | hfull
        · rw [hstream, List.append_nil, List.take_of_length_le hfits, List.drop_of_length_le hfits]
          rfl
        · rw [List.take_left' hfull, List.drop_left' hfull]
          rfl
      · generalize hbytes : min (max 1 (cut i)) (min (buffSize - buf.length) stream.length) = bytes
          at hend ⊢
        have hroom : (buf ++ stream.take bytes).length ≤ buffSize := by
          rw [List.length_append, List.length_take]
          omega
        have hjoin : buf ++ stream = buf ++ stream.take bytes ++ stream.drop bytes := by
          rw [List.append_assoc, List.take_append_drop]
        rw [hjoin] at hs hrep
        obtain ⟨ms, kept, hms⟩ := @Framer.splits_exists _ framer (buf ++ stream.take bytes)
        obtain ⟨more, rest', hmore⟩ := @Framer.splits_exists _ framer (kept ++ stream.drop bytes)
        obtain ⟨hmessages, hrest⟩ := hs.unique (hms.append hmore)
        have hkept : Representable (kept ++ stream.drop bytes) := by
          refine @Representable.behind ms _ ?_ fun m hm => isMessage_totalLen (hms.whole m hm)
          rw [← List.append_assoc, ← hms.eq]
          exact hrep
        have hkeptLen : kept.length ≤ buffSize := by
          rw [hms.eq, List.length_append] at hroom
          omega
        have hfuel' : (buf ++ stream.take bytes).length < buf.length + bytes + 1 := by
          rw [List.length_append, List.length_take]
          omega
        have hpass : getMessagesAndSend (buf.length + bytes + 1) server (buf ++ stream.take bytes) = _ :=
          getMessagesAndSend_splits ms hms hrep.front hroom hfuel'
        rw [if_neg hend, hpass, returns_bind]
        simp only
        rw [ih (i + 1) hmore hms.last hkept hkeptLen (by rw [List.length_drop]; omega), returns_bind,
          hmessages, hrest, answerAll_append]
        rfl

/-! ### The connection -/

/-- **However TCP cuts the stream**, the messages at its front that are complete and fit
the buffer are answered, each once and in order, and the globals are what they leave.
What does not begin with such a message ends the connection when it fills the buffer;
otherwise the client does. -/
theorem replies_of_messages (server : Server) (stream : Bytes) (h : Representable stream) :
    ∃ messages rest, framer.Splits stream messages rest ∧
      (answerAll server messages).1.length = messages.length ∧
      ∀ cut, serveConnection cut server stream = .returns ⟨(answerAll server messages).1,
        (answerAll server messages).2, rest.take buffSize, rest.drop buffSize⟩ := by
  obtain ⟨messages, rest, hs⟩ := @Framer.splits_exists _ framer stream
  refine ⟨messages, rest, hs, answerAll_length messages server, ?_⟩
  intro cut
  have hempty : framer.next ([] : Bytes) = none := by decide
  exact serve_splits cut (stream.length + 1) 0 hs hempty h (Nat.zero_le _) (Nat.lt_succ_self _)

/-- The globals when the server starts. -/
def initServer : Server := ⟨[], [], [], by decide⟩

def crlfLine (s : String) : Bytes := ascii s ++ crlf

/-- A message with a body, and part of another one. -/
def putText : Bytes := crlfLine "PUT /dynamic/a HTTP/1.1" ++ crlfLine "Content-Length: 3" ++ crlf ++ ascii "abc"

def partText : Bytes := crlfLine "GET /dynamic/a HTTP/1.1"

theorem replies_of_put : ∃ messages rest, framer.Splits (putText ++ partText) messages rest ∧
    (answerAll initServer messages).1.length = messages.length ∧
    ∀ cut, serveConnection cut initServer (putText ++ partText)
      = .returns ⟨(answerAll initServer messages).1, (answerAll initServer messages).2,
        rest.take buffSize, rest.drop buffSize⟩ := by
  have hput : totalLen putText = .returns (some putText.length) := by decide +kernel
  have hpart : totalLen partText = .returns none := by decide +kernel
  refine replies_of_messages initServer _ (representable_cons hput (representable_of_last ?_ ?_))
  · rw [hpart]
    exact nofun
  · rw [hpart]
    exact nofun

end ChordDht.Tcp
