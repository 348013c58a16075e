/-
The arithmetic of the receive buffer.

`get_messages_and_send` finds its way in `buff` with `int`s, one of which comes from the
client.  Here the call works on the array: a sum that is not an `int` has no defined
result, and neither has an access outside the array.  What the call on a list of bytes
says is then a theorem: as long as the sums are `int`s, `simulates` gives the replies and
the remaining bytes of `getMessagesAndSend`, and in every iteration the lengths are in range.

The one sum that can fail is that of the headers' length and the content length, which is
compared with `buf_len` only after it was formed.
-/
import ChordDht.Tcp.Segments

namespace ChordDht.Tcp

open Outcome

/-- The value of an expression of type `int`. -/
def intValue (v : Int) : Outcome Int := if -2 ^ 31 ≤ v ∧ v < 2 ^ 31 then .returns v else .faults

/-- `char buff[8192]` and `int buf_len`. -/
structure Buffer where
  buff : Bytes
  bufLen : Int
  size : buff.length = buffSize

namespace Buffer

/-- The first `n` bytes of the array. -/
def front (b : Buffer) (n : Int) : Outcome Bytes :=
  if 0 ≤ n ∧ n ≤ buffSize then .returns (b.buff.take n.toNat) else .faults

/-- `memmove(buf, buf + src, n)`. -/
def memmove (b : Buffer) (src n : Int) : Outcome Buffer :=
  if h : 0 ≤ src ∧ 0 ≤ n ∧ src + n ≤ buffSize then
    .returns {
      buff := (b.buff.drop src.toNat).take n.toNat ++ b.buff.drop n.toNat
      bufLen := b.bufLen
      size := by
        have hsize := b.size
        rw [List.length_append, List.length_take, List.length_drop, List.length_drop]
        omega }
  else .faults

/-- `total_len`, as soon as the headers are complete. -/
def totalLen (b : Buffer) : Outcome (Option Int) := do
  if b.bufLen < 4 then return none
  else
    match findCrlfcrlf (← b.front b.bufLen) with
    | none => return none
    | some headerEnd =>
        let headerLen ← intValue (headerEnd + 4)
        let total ← intValue (headerLen + contentLength (← b.front headerLen))
        return some total

/-- Remove the message at the front. -/
def remove (b : Buffer) (totalLen : Int) : Outcome Buffer := do
  let remaining ← intValue (b.bufLen - totalLen)
  let moved ← if 0 < remaining then b.memmove totalLen remaining else .returns b
  return { moved with bufLen := remaining }

/-- The bytes that have been received and not been removed. -/
def valid (b : Buffer) : Bytes := b.buff.take b.bufLen.toNat

def InBounds (b : Buffer) : Prop := 0 ≤ b.bufLen ∧ b.bufLen ≤ buffSize

end Buffer

/-- An iteration that processes a message: the length it computes, the bytes that are passed
to `get_code`, and the buffer before and after it. -/
structure Iteration where
  before : Buffer
  totalLen : Int
  message : Bytes
  after : Buffer

/-- What a call of `get_messages_and_send` does and leaves. -/
structure Looped where
  iterations : List Iteration
  replies : List Bytes
  server : Server
  buffer : Buffer

/-- The loop of `get_messages_and_send`, on the array. -/
def Buffer.getMessagesAndSend : Nat → Server → Buffer → Outcome Looped
  | 0, _, _ => .diverges
  | fuel + 1, server, b => do
      match ← b.totalLen with
      | none => return ⟨[], [], server, b⟩
      | some totalLen =>
          if b.bufLen < totalLen then return ⟨[], [], server, b⟩
          else
            let message ← b.front totalLen
            match answer server message with
            | (none, server') => return ⟨[], [], server', b⟩
            | (some reply, server') =>
                let after ← b.remove totalLen
                let rest ← after.getMessagesAndSend fuel server'
                return { rest with
                  iterations := ⟨b, totalLen, message, after⟩ :: rest.iterations
                  replies := reply :: rest.replies }

/-- The lengths of an iteration are in range, and just its message is removed. -/
structure Iteration.InRange (it : Iteration) : Prop where
  sum : ∃ headerEnd, findCrlfcrlf it.before.valid = some headerEnd ∧
    it.totalLen = headerEnd + 4 + contentLength (it.before.valid.take (headerEnd + 4))
  total : 4 ≤ it.totalLen ∧ it.totalLen ≤ it.before.bufLen
  message : it.message = it.before.valid.take it.totalLen.toNat ∧ it.message.length = it.totalLen
  left : it.after.bufLen = it.before.bufLen - it.totalLen
  after : it.after.InBounds
  kept : it.after.valid = it.before.valid.drop it.totalLen.toNat

/-! ### One iteration -/

theorem intValue_of_lt {v : Int} (h : 0 ≤ v) (hlt : v < 2 ^ 31) : intValue v = .returns v :=
  if_pos ⟨by omega, hlt⟩

theorem intValue_of_ge {v : Int} (h : 2 ^ 31 ≤ v) : intValue v = .faults :=
  if_neg (by omega)

namespace Buffer

variable {b : Buffer}

theorem valid_length (hb : b.InBounds) : (b.valid.length : Int) = b.bufLen := by
  have hsize := b.size
  obtain ⟨hpos, hle⟩ := hb
  rw [valid, List.length_take]
  omega

theorem front_valid (hb : b.InBounds) {n : Int} (hpos : 0 ≤ n) (hn : n ≤ b.bufLen) :
    b.front n = .returns (b.valid.take n.toNat) := by
  obtain ⟨-, hle⟩ := hb
  rw [front, if_pos ⟨hpos, by omega⟩, valid, List.take_take, Nat.min_eq_left (by omega)]

/-- The length of a message whose headers are complete is one sum. -/
theorem totalLen_found (hb : b.InBounds) {headerEnd : Nat} (hfind : findCrlfcrlf b.valid = some headerEnd) :
    b.totalLen = (do
      let total ← intValue ((headerEnd : Int) + 4 + contentLength (b.valid.take (headerEnd + 4)))
      return some total) := by
  have hlen := b.valid_length hb
  have hend := search_le hfind
  have hle : b.bufLen ≤ buffSize := hb.2
  have hsize : buffSize = 8192 := rfl
  have hfour : (crlf ++ crlf).length = 4 := rfl
  have hvalid : b.front b.bufLen = .returns b.valid := by
    rw [b.front_valid hb hb.1 (le_refl _), List.take_of_length_le (by omega)]
  have hheader : intValue ((headerEnd : Int) + 4) = .returns ((headerEnd : Int) + 4) :=
    intValue_of_lt (by omega) (by omega)
  have htake : b.front ((headerEnd : Int) + 4) = .returns (b.valid.take (headerEnd + 4)) :=
    b.front_valid hb (by omega) (by omega)
  rw [totalLen, if_neg (by omega), hvalid, returns_bind, hfind]
  show (intValue ((headerEnd : Int) + 4) >>= fun headerLen => _) = _
  rw [hheader, returns_bind, htake, returns_bind]

theorem totalLen_not_found (hb : b.InBounds) (hfind : findCrlfcrlf b.valid = none) :
    b.totalLen = .returns none := by
  have hlen := b.valid_length hb
  have hvalid : b.front b.bufLen = .returns b.valid := by
    rw [b.front_valid hb hb.1 (le_refl _), List.take_of_length_le (by omega)]
  rw [totalLen]
  split
  · rfl
  · rw [hvalid, returns_bind, hfind]
    rfl

/-- **The length is computed as on the list of bytes.** -/
theorem totalLen_valid (hb : b.InBounds) :
    Rel (fun (v : Option Int) (n : Option Nat) => v = n.map Nat.cast) b.totalLen (Tcp.totalLen b.valid) := by
  cases hfind : findCrlfcrlf b.valid with
  | none =>
      rw [b.totalLen_not_found hb hfind, Tcp.totalLen_not_found hfind]
      exact .returns rfl
  | some headerEnd =>
      rw [b.totalLen_found hb hfind, Tcp.totalLen_found hfind]
      generalize contentLength (b.valid.take (headerEnd + 4)) = content
      by_cases hbig : 2 ^ 31 ≤ headerEnd + 4 + content
      · have hvalue : intValue ((headerEnd : Int) + 4 + content) = .faults := intValue_of_ge (by omega)
        rw [hvalue]
        simp only [if_pos hbig]
        exact .faults
      · have hvalue : intValue ((headerEnd : Int) + 4 + content) = .returns _ :=
          intValue_of_lt (by omega) (by omega)
        rw [hvalue]
        simp only [if_neg hbig]
        exact .returns rfl

/-- **A message that is there can be removed**, and the bytes after it stay. -/
theorem remove_valid (hb : b.InBounds) {n : Nat} (hn : (n : Int) ≤ b.bufLen) :
    ∃ after, b.remove n = .returns after ∧ after.bufLen = b.bufLen - n ∧
      after.valid = b.valid.drop n := by
  have hlen := b.valid_length hb
  have hle : b.bufLen ≤ buffSize := hb.2
  have hsize : buffSize = 8192 := rfl
  have hvalue : intValue (b.bufLen - n) = .returns (b.bufLen - n) :=
    intValue_of_lt (by omega) (by omega)
  unfold remove
  rw [hvalue, returns_bind]
  by_cases hrest : 0 < b.bufLen - n
  · have hroom : 0 ≤ (n : Int) ∧ 0 ≤ b.bufLen - n ∧ n + (b.bufLen - n) ≤ buffSize := by omega
    rw [if_pos hrest, memmove, dif_pos hroom, returns_bind]
    refine ⟨_, rfl, rfl, ?_⟩
    have hcut : ((b.buff.drop n).take (b.bufLen - n).toNat).length = (b.bufLen - n).toNat := by
      have hbuff := b.size
      rw [List.length_take, List.length_drop]
      omega
    have hsub : (b.bufLen - n).toNat = b.bufLen.toNat - n := by omega
    show ((b.buff.drop n).take (b.bufLen - n).toNat ++ b.buff.drop (b.bufLen - n).toNat).take
      (b.bufLen - n).toNat = (b.buff.take b.bufLen.toNat).drop n
    rw [List.take_left' hcut, List.drop_take, hsub]
  · rw [if_neg hrest, returns_bind]
    refine ⟨_, rfl, rfl, ?_⟩
    show b.buff.take (b.bufLen - n).toNat = b.valid.drop n
    rw [List.drop_eq_nil_of_le (by omega), Int.toNat_of_nonpos (by omega), List.take_zero]

end Buffer

/-- The iteration that removes the `n` bytes of a message. -/
theorem iteration_inRange {b after : Buffer} (hb : b.InBounds) {n : Nat}
    (htotal : totalLen b.valid = .returns (some n)) (hn : (n : Int) ≤ b.bufLen)
    (hlen : after.bufLen = b.bufLen - n) (hvalid : after.valid = b.valid.drop n) :
    Iteration.InRange ⟨b, n, b.valid.take n, after⟩ := by
  have hlength := b.valid_length hb
  obtain ⟨headerEnd, hfind, hsum, -⟩ := totalLen_eq_some.mp htotal
  have htake : (b.valid.take n).length = n := by
    rw [List.length_take]
    omega
  refine ⟨⟨headerEnd, hfind, ?_⟩, ⟨?_, hn⟩, ⟨rfl, congrArg Nat.cast htake⟩, hlen, ?_, hvalid⟩
  · show (n : Int) = _
    rw [hsum]
    push_cast
    rfl
  · show 4 ≤ (n : Int)
    omega
  · have hle : b.bufLen ≤ buffSize := hb.2
    show 0 ≤ after.bufLen ∧ after.bufLen ≤ buffSize
    omega

/-! ### All of them -/

/-- The call on the array and the call on its valid bytes do the same, and the former stays
in range. -/
structure Simulates (looped : Looped) (sent : Sent) : Prop where
  replies : looped.replies = sent.replies
  server : looped.server = sent.server
  buf : looped.buffer.valid = sent.buf
  inRange : ∀ it ∈ looped.iterations, it.InRange
  inBounds : looped.buffer.InBounds

/-- **The call on the array does what the call on the list of bytes does.** -/
theorem simulates : ∀ (fuel : Nat) {server : Server} {b : Buffer}, b.InBounds →
    Rel Simulates (b.getMessagesAndSend fuel server) (getMessagesAndSend fuel server b.valid) := by
  intro fuel
  induction fuel with
  | zero => intro server b _; exact .diverges
  | succ fuel ih =>
      intro server b hb
      have hlength := b.valid_length hb
      have hrel := b.totalLen_valid hb
      rw [Buffer.getMessagesAndSend, getMessagesAndSend]
      cases htotal : totalLen b.valid with
      | diverges => exact absurd htotal (totalLen_ends b.valid).1
      | exits => exact absurd htotal (totalLen_ends b.valid).2
      | faults =>
          rw [htotal] at hrel
          rw [hrel.faults_right]
          exact .faults
      | returns total =>
          rw [htotal] at hrel
          obtain ⟨v, hv, rfl⟩ := hrel.returns_right
          rw [hv, returns_bind, returns_bind]
          cases total with
          | none => exact .returns ⟨rfl, rfl, rfl, fun _ h => absurd h List.not_mem_nil, hb⟩
          | some n =>
              simp only [Option.map_some]
              by_cases hpart : b.valid.length < n
              · rw [if_pos hpart, if_pos (by omega)]
                exact .returns ⟨rfl, rfl, rfl, fun _ h => absurd h List.not_mem_nil, hb⟩
              · obtain ⟨after, hremove, hafter, hkept⟩ := b.remove_valid hb (n := n) (by omega)
                have hinRange := iteration_inRange hb htotal (by omega) hafter hkept
                rw [if_neg hpart, if_neg (by omega), b.front_valid hb (by omega) (by omega), returns_bind,
                  Int.toNat_natCast]
                cases hanswer : answer server (b.valid.take n) with
                | mk reply server' =>
                    cases reply with
                    | none => exact .returns ⟨rfl, rfl, rfl, fun _ h => absurd h List.not_mem_nil, hb⟩
                    | some reply =>
                        simp only [hremove, returns_bind, ← hkept]
                        refine (ih hinRange.after).bind ?_
                        intro looped sent h
                        refine .returns ⟨congrArg _ h.replies, h.server, h.buf, ?_, h.inBounds⟩
                        intro it hit
                        rcases List.mem_cons.mp hit with rfl | hit
                        · exact hinRange
                        · exact h.inRange it hit

/-- A call that returns met no sum that is not an `int`. -/
theorem representable_of_returns : ∀ (fuel : Nat) {server : Server} {buf : Bytes} {sent : Sent},
    getMessagesAndSend fuel server buf = .returns sent → Representable buf := by
  intro fuel
  induction fuel with
  | zero =>
      intro server buf sent h
      cases h
  | succ fuel ih =>
      intro server buf sent h
      rw [getMessagesAndSend] at h
      obtain ⟨total, htotal, h⟩ := bind_eq_returns.mp h
      have hfault : totalLen buf ≠ .faults := by
        rw [htotal]
        intro hc
        cases hc
      cases total with
      | none =>
          refine representable_of_last hfault ?_
          intro n hn
          rw [htotal] at hn
          cases hn
      | some n =>
          simp only at h
          by_cases hpart : buf.length < n
          · refine representable_of_last hfault ?_
            intro n' hn'
            rw [htotal, Outcome.returns.injEq, Option.some.injEq] at hn'
            rwa [← hn']
          · rw [if_neg hpart] at h
            obtain ⟨r, hr⟩ := answer_some server (buf.take n)
            have hanswer : answer server (buf.take n) = (some r, (answer server (buf.take n)).2) :=
              Prod.ext hr rfl
            rw [hanswer] at h
            obtain ⟨rest, hrest, -⟩ := bind_eq_returns.mp h
            have hn : (buf.take n).length = n := by
              rw [List.length_take]
              omega
            have hmessage : totalLen (buf.take n) = .returns (some (buf.take n).length) := by
              rw [hn]
              exact totalLen_take htotal (Nat.le_refl n)
            rw [← List.take_append_drop n buf]
            exact representable_cons hmessage (ih hrest)

/-- **The call returns exactly if no sum of lengths in it leaves the range of `int`.** -/
theorem returns_iff_representable (server : Server) {buf : Bytes} (hfits : buf.length ≤ buffSize) :
    (∃ sent, getMessagesAndSend (buf.length + 1) server buf = .returns sent) ↔ Representable buf := by
  constructor
  · rintro ⟨sent, h⟩
    exact representable_of_returns _ h
  · intro hrep
    obtain ⟨messages, rest, hs⟩ := @Framer.splits_exists _ framer buf
    exact ⟨_, getMessagesAndSend_splits messages hs hrep hfits (Nat.lt_succ_self _)⟩

/-- Behind messages that are as long as their headers say, the length of complete headers and
the content length add up to an `int`. -/
def SumsFit (bytes : Bytes) : Prop :=
  ∀ (messages : List Bytes) (rest : Bytes) (headerEnd : Nat), bytes = messages.flatten ++ rest →
    (∀ m ∈ messages, ∃ k, findCrlfcrlf m = some k ∧ m.length = k + 4 + contentLength (m.take (k + 4))) →
      findCrlfcrlf rest = some headerEnd →
        headerEnd + 4 + contentLength (rest.take (headerEnd + 4)) < 2 ^ 31

theorem totalLen_faults_iff {buf : Bytes} : totalLen buf = .faults ↔
    ∃ headerEnd, findCrlfcrlf buf = some headerEnd ∧
      2 ^ 31 ≤ headerEnd + 4 + contentLength (buf.take (headerEnd + 4)) := by
  cases hfind : findCrlfcrlf buf with
  | none => simp [totalLen_not_found hfind]
  | some headerEnd => simp [totalLen_found hfind]

theorem representable_iff {bytes : Bytes} (hfits : bytes.length ≤ buffSize) :
    Representable bytes ↔ SumsFit bytes := by
  have hsize : buffSize = 8192 := rfl
  have hmessage : ∀ (messages : List Bytes) (rest : Bytes), bytes = messages.flatten ++ rest →
      ∀ m ∈ messages, totalLen m = .returns (some m.length) ↔
        ∃ k, findCrlfcrlf m = some k ∧ m.length = k + 4 + contentLength (m.take (k + 4)) := by
    intro messages rest heq m hm
    have hle : m.length ≤ bytes.length := by
      have hflat := (List.sublist_flatten_of_mem hm).length_le
      rw [heq, List.length_append]
      omega
    have hint : m.length < 2 ^ 31 := by omega
    rw [totalLen_eq_some]
    simp only [hint, and_true]
  have hrest : ∀ rest : Bytes, totalLen rest ≠ .faults ↔ ∀ headerEnd, findCrlfcrlf rest = some headerEnd →
      headerEnd + 4 + contentLength (rest.take (headerEnd + 4)) < 2 ^ 31 := by
    intro rest
    rw [Ne, totalLen_faults_iff]
    push Not
    rfl
  constructor
  · intro h messages rest headerEnd heq hmessages
    exact (hrest rest).mp (h messages rest heq fun m hm => (hmessage messages rest heq m hm).mpr
      (hmessages m hm)) headerEnd
  · intro h messages rest heq hmessages
    refine (hrest rest).mpr ?_
    intro headerEnd
    exact h messages rest headerEnd heq fun m hm => (hmessage messages rest heq m hm).mp (hmessages m hm)

/-- **The arithmetic of a call stays in range, and the call ends, exactly if at every message
it comes to the length of the headers and the content length add up to an `int`.** -/
theorem arithmetic_in_range_iff (server : Server) {b : Buffer} (hb : b.InBounds) :
    (∃ looped, b.getMessagesAndSend (b.bufLen.toNat + 1) server = .returns looped ∧
      ∀ it ∈ looped.iterations, it.InRange) ↔ SumsFit b.valid := by
  have hlength := b.valid_length hb
  have hfits : b.valid.length ≤ buffSize := by
    have hle : b.bufLen ≤ buffSize := hb.2
    omega
  have hfuel : b.bufLen.toNat = b.valid.length := by omega
  have hrel := @simulates (b.valid.length + 1) server b hb
  rw [hfuel, ← representable_iff hfits, ← returns_iff_representable server hfits]
  constructor
  · rintro ⟨looped, h, -⟩
    rw [h] at hrel
    obtain ⟨sent, hsent, -⟩ := hrel.returns_left
    exact ⟨sent, hsent⟩
  · rintro ⟨sent, h⟩
    rw [h] at hrel
    obtain ⟨looped, hlooped, hsim⟩ := hrel.returns_right
    exact ⟨looped, hlooped, hsim.inRange⟩

/-! ### A length near the end of the range -/

/-- The receive buffer after a first `recv`. -/
def Buffer.holding (text : Bytes) (h : text.length ≤ buffSize) : Buffer where
  buff := text ++ List.replicate (buffSize - text.length) 0
  bufLen := text.length
  size := by
    rw [List.length_append, List.length_replicate]
    omega

theorem Buffer.holding_inBounds {text : Bytes} (h : text.length ≤ buffSize) :
    (Buffer.holding text h).InBounds :=
  ⟨Int.natCast_nonneg _, Int.ofNat_le.mpr h⟩

theorem Buffer.holding_valid {text : Bytes} (h : text.length ≤ buffSize) :
    (Buffer.holding text h).valid = text :=
  List.take_left

def hugeText : Bytes := crlfLine "PUT /dynamic/a HTTP/1.1" ++ crlfLine "Content-Length: 2147483647" ++ crlf

/-- The sum of the lengths is no `int`. -/
theorem huge_length_overflows : ∃ b : Buffer, b.InBounds ∧ b.valid = hugeText ∧
    ¬ ∃ fuel looped, b.getMessagesAndSend fuel initServer = .returns looped := by
  have hfits : hugeText.length ≤ buffSize := by decide +kernel
  refine ⟨Buffer.holding hugeText hfits, Buffer.holding_inBounds hfits, Buffer.holding_valid hfits, ?_⟩
  rintro ⟨fuel, looped, h⟩
  have hfault : totalLen hugeText = .faults := by decide +kernel
  have hrel := @simulates fuel initServer _ (Buffer.holding_inBounds hfits)
  rw [h, Buffer.holding_valid hfits] at hrel
  obtain ⟨sent, hsent, -⟩ := hrel.returns_left
  exact representable_of_returns fuel hsent [] hugeText rfl (fun _ hm => absurd hm List.not_mem_nil) hfault

theorem arithmetic_in_range_iff_put :
    ∃ b : Buffer, b.valid = putText ++ partText ∧
      ((∃ looped, b.getMessagesAndSend (b.bufLen.toNat + 1) initServer = .returns looped ∧
        ∀ it ∈ looped.iterations, it.InRange) ↔ SumsFit b.valid) := by
  have hfits : (putText ++ partText).length ≤ buffSize := by decide +kernel
  exact ⟨Buffer.holding _ hfits, Buffer.holding_valid hfits,
    arithmetic_in_range_iff initServer (Buffer.holding_inBounds hfits)⟩

end ChordDht.Tcp
