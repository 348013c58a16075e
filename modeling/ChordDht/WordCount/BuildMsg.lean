/-
`build_msg` in `zmq_distributor.c`, against the worker's header parser.

`build_msg` writes the newer form of a message: a type of three bytes, the length limit in
three digits, the payload and a zero byte.  Encoder and decoder are in different programs, and
they do not agree on every limit.  Three digits have no room for the thousands, so a limit
from 1000 on loses them, `MAX_MSG_LEN` itself and every limit that is replaced by it among
these; and the payload is given one byte where there is room for the zero only.

`detect_buildMsg` says what the worker reads from any such message, `round_trips_iff` when
that is what was written.
-/
import ChordDht.WordCount.Poll

namespace ChordDht.WordCount

/-- The length limit that `build_msg` goes by. -/
def effective (msgLen : ℤ) : Nat := if msgLen ≤ 0 ∨ (maxMsgLen : ℤ) < msgLen then maxMsgLen else msgLen.toNat

/-- The C string at the payload pointer; there is none at a null pointer. -/
def payloadText (payload : Option Bytes) : Bytes :=
  match payload with
  | some mem => cstr mem
  | none => []

/-- `'0' + k`. -/
def digit (k : Nat) : UInt8 := UInt8.ofNat (48 + k)

/-- The bytes that `build_msg` writes to `out`; their number is what it returns. -/
def buildMsg (type : List.Vector UInt8 3) (msgLen : ℤ) (payload : Option Bytes) : Bytes :=
  let msgLen := effective msgLen
  let digits := [digit (msgLen / 100 % 10), digit (msgLen / 10 % 10), digit (msgLen % 10)]
  let room : ℤ := (msgLen : ℤ) - (headerLen : ℤ) - 1
  let maxPayload := if room < 1 then 1 else room.toNat
  type.toList ++ digits ++ (payloadText payload).take maxPayload ++ [0]

/-- What the worker takes from a message of the newer form. -/
structure Detected where
  type : Bytes
  msgLen : Nat
  payload : Bytes
  deriving DecidableEq, Repr

/-- The protocol detection of the worker; `none` is a message in another form. -/
def detect (buffer : Bytes) (r : Nat) : Option Detected :=
  if r < 3 then none
  else if isNewProtocol buffer r then
    some ⟨buffer.take 3, parseMsgLen (buffer.drop 3), cstr (buffer.drop headerLen)⟩
  else none

/-! ### What is detected decides the answer -/

/-- **The answer depends on what is detected only.** -/
theorem dispatch_detected {buffer : Bytes} {r : Nat} {d : Detected} (h : detect buffer r = some d) :
    dispatch buffer r = answer d.type d.payload d.msgLen true := by
  unfold detect at h
  by_cases hshort : r < 3
  · rw [if_pos hshort] at h
    cases h
  rw [if_neg hshort] at h
  by_cases hnew : isNewProtocol buffer r = true
  · rw [if_pos hnew, Option.some.injEq] at h
    rw [dispatch, if_neg hshort, if_pos hnew, ← h]
    simp only [answer, strncmp_take, mapReply, reduceReply, wcTokenizeAndCount, wcFromMapFormat, cstr_cstr]
  · rw [if_neg hnew] at h
    cases h

/-! ### What the worker detects -/

theorem zero_notMem_payloadText (payload : Option Bytes) : (0 : UInt8) ∉ payloadText payload := by
  cases payload with
  | none => exact List.not_mem_nil
  | some mem => exact zero_notMem_cstr mem

theorem digit_digit {k : Nat} (hk : k < 10) : isDigit (digit k) = true ∧ (digit k).toNat - 48 = k := by
  have htoNat : (digit k).toNat = 48 + k := toNat_digit hk
  refine ⟨?_, by omega⟩
  rw [isDigit, Bool.and_eq_true, decide_eq_true_eq, decide_eq_true_eq, UInt8.le_iff_toNat_le, UInt8.le_iff_toNat_le,
    htoNat]
  exact ⟨Nat.le_add_right 48 k, by show 48 + k ≤ 57; omega⟩

theorem effective_eq_self {msgLen : ℤ} (h : 0 < msgLen ∧ msgLen < 1000) : (effective msgLen : ℤ) = msgLen := by
  have hmax : maxMsgLen = 1500 := rfl
  rw [effective, if_neg (by omega)]
  omega

theorem effective_bounds (msgLen : ℤ) : 1 ≤ effective msgLen ∧ effective msgLen ≤ 1500 := by
  have hmax : maxMsgLen = 1500 := rfl
  unfold effective
  split_ifs <;> omega

theorem effective_lt_iff {msgLen : ℤ} : effective msgLen < 1000 ↔ 0 < msgLen ∧ msgLen < 1000 := by
  have hmax : maxMsgLen = 1500 := rfl
  unfold effective
  split_ifs <;> omega

/-- What is read is what was written only where there are no thousands. -/
theorem effective_lt_of_read {msgLen : ℤ}
    (h : (if effective msgLen % 1000 = 0 then maxMsgLen else effective msgLen % 1000) = effective msgLen) :
    effective msgLen < 1000 := by
  have hmax : maxMsgLen = 1500 := rfl
  have hbounds := effective_bounds msgLen
  split_ifs at h <;> omega

/-- The digits are read back modulo 1000. -/
theorem announced_digits (n : Nat) (text : Bytes) :
    announced (digit (n / 100 % 10) :: digit (n / 10 % 10) :: digit (n % 10) :: text) = some (n % 1000) := by
  obtain ⟨hhundreds, hvalue2⟩ := @digit_digit (n / 100 % 10) (Nat.mod_lt _ (by omega))
  obtain ⟨htens, hvalue1⟩ := @digit_digit (n / 10 % 10) (Nat.mod_lt _ (by omega))
  obtain ⟨hones, hvalue0⟩ := @digit_digit (n % 10) (Nat.mod_lt _ (by omega))
  rw [announced, hhundreds, htens, hones, hvalue2, hvalue1, hvalue0]
  simp only [Bool.and_self, if_true, Option.some.injEq]
  omega

/-- The payload is cut to what has room behind the header and in front of the zero, but never to
less than one byte. -/
def maxPayload (msgLen : Nat) : Nat := max 1 (msgLen - 7)

theorem buildMsg_eq (type : List.Vector UInt8 3) (msgLen : ℤ) (payload : Option Bytes) :
    buildMsg type msgLen payload = type.toList ++ (digit (effective msgLen / 100 % 10)
      :: digit (effective msgLen / 10 % 10) :: digit (effective msgLen % 10)
      :: ((payloadText payload).take (maxPayload (effective msgLen)) ++ [0])) := by
  have hroom : (if (effective msgLen : ℤ) - (headerLen : ℤ) - 1 < 1 then 1
      else ((effective msgLen : ℤ) - (headerLen : ℤ) - 1).toNat) = maxPayload (effective msgLen) := by
    have hheader : headerLen = 6 := rfl
    unfold maxPayload
    split_ifs <;> omega
  simp only [buildMsg, hroom, List.append_assoc, List.cons_append, List.nil_append]

theorem buildMsg_length (type : List.Vector UInt8 3) (msgLen : ℤ) (payload : Option Bytes) :
    (buildMsg type msgLen payload).length
      = 7 + min (maxPayload (effective msgLen)) (payloadText payload).length := by
  rw [buildMsg_eq]
  simp only [List.length_append, List.Vector.toList_length, List.length_cons, List.length_take, List.length_nil]
  omega

/-- **What the worker reads**: the type, the limit modulo 1000 or `MAX_MSG_LEN` for none, and
the payload that was written. -/
theorem detect_buildMsg (type : List.Vector UInt8 3) (msgLen : ℤ) (payload : Option Bytes) (rest : Bytes) :
    detect (buildMsg type msgLen payload ++ 0 :: rest) (buildMsg type msgLen payload).length
      = some ⟨type.toList, if effective msgLen % 1000 = 0 then maxMsgLen else effective msgLen % 1000,
          (payloadText payload).take (maxPayload (effective msgLen))⟩ := by
  have hlong : ¬ (buildMsg type msgLen payload).length < 3 := by
    rw [buildMsg_length]
    omega
  have htype : type.toList.length = 3 := type.toList_length
  have hzero : (0 : UInt8) ∉ (payloadText payload).take (maxPayload (effective msgLen)) :=
    fun hmem => zero_notMem_payloadText payload (List.mem_of_mem_take hmem)
  rw [detect, if_neg hlong, isNewProtocol_eq, buildMsg_eq, List.drop_left' htype, announced_digits,
    Option.isSome_some, if_pos rfl, List.append_assoc, List.take_left' htype, List.drop_left' htype,
    parseMsgLen_announced (announced_digits ..)]
  have hpayload : ∀ (a b c : UInt8) (text : Bytes), (type.toList ++ a :: b :: c :: text).drop headerLen = text := by
    intro a b c text
    show (type.toList ++ a :: b :: c :: text).drop (3 + 3) = text
    rw [← List.drop_drop, List.drop_left' htype]
    rfl
  simp only [List.cons_append, hpayload, List.append_assoc, cstr_append_zero hzero]

/-- It has room in `out`, and in the buffer of the worker. -/
theorem buildMsg_length_le (type : List.Vector UInt8 3) (msgLen : ℤ) (payload : Option Bytes) :
    (buildMsg type msgLen payload).length ≤ maxMsgLen := by
  have hmax : maxMsgLen = 1500 := rfl
  have hbounds := effective_bounds msgLen
  rw [buildMsg_length, maxPayload]
  omega

/-- **The worker's answer** to any such message. -/
theorem handle_buildMsg (type : List.Vector UInt8 3) (msgLen : ℤ) (payload : Option Bytes) :
    handle (buildMsg type msgLen payload) = .returns (answer type.toList
      ((payloadText payload).take (maxPayload (effective msgLen)))
      (if effective msgLen % 1000 = 0 then maxMsgLen else effective msgLen % 1000) true) := by
  have hmax : maxMsgLen = 1500 := rfl
  have hsize : recvBufferSize = 2048 := rfl
  have hlength := buildMsg_length_le type msgLen payload
  rw [handle, receive, if_neg (by omega), Outcome.returns_bind, dispatch_detected (detect_buildMsg type msgLen payload [])]
  rfl

/-! ### The round trip -/

/-- The longest part from the front that has room in so many bytes, between the header and the zero. -/
structure LongestPayload (msgLen : Nat) (text p : Bytes) : Prop where
  front : p <+: text
  fits : p = [] ∨ headerLen + p.length + 1 ≤ msgLen
  longest : ∀ q, q <+: text → headerLen + q.length + 1 ≤ msgLen → q.length ≤ p.length

theorem longestPayload_take (msgLen : Nat) (text : Bytes) : LongestPayload msgLen text (text.take (msgLen - 7)) where
  front := List.take_prefix ..
  fits := by
    have hheader : headerLen = 6 := rfl
    by_cases hroom : 7 < msgLen
    · refine Or.inr ?_
      rw [List.length_take]
      omega
    · refine Or.inl ?_
      rw [Nat.sub_eq_zero_of_le (by omega), List.take_zero]
  longest := by
    intro q hq hfits
    have hheader : headerLen = 6 := rfl
    have hlength := hq.length_le
    rw [List.length_take]
    omega

/-- There is only one. -/
theorem LongestPayload.length_eq {msgLen : Nat} {text p q : Bytes} (hp : LongestPayload msgLen text p)
    (hq : LongestPayload msgLen text q) : p.length = q.length := by
  have hle : ∀ {p q : Bytes}, LongestPayload msgLen text p → LongestPayload msgLen text q → p.length ≤ q.length := by
    intro p q hp hq
    rcases hp.fits with hnil | hfits
    · rw [hnil]
      exact Nat.zero_le _
    · exact hq.longest p hp.front hfits
  exact Nat.le_antisymm (hle hp hq) (hle hq hp)

/-- The message keeps to the limit, and the worker reads from it, whatever stands behind it in
the buffer, the type, the limit, and as much of the payload as has room. -/
structure RoundTrips (type : List.Vector UInt8 3) (msgLen : ℤ) (payload : Option Bytes) : Prop where
  short : headerLen + 1 ≤ effective msgLen → (buildMsg type msgLen payload).length ≤ effective msgLen
  read : ∀ rest, ∃ p, LongestPayload (effective msgLen) (payloadText payload) p ∧
    detect (buildMsg type msgLen payload ++ 0 :: rest) (buildMsg type msgLen payload).length
      = some ⟨type.toList, effective msgLen, p⟩

/-- **When encoder and decoder agree**: exactly for limits from 1 to 999 that leave room for a
byte of payload, if there is any. -/
theorem round_trips_iff (type : List.Vector UInt8 3) (msgLen : ℤ) (payload : Option Bytes) :
    RoundTrips type msgLen payload ↔
      (0 < msgLen ∧ msgLen < 1000) ∧ (8 ≤ msgLen ∨ payloadText payload = []) := by
  have hheader : headerLen = 6 := rfl
  constructor
  · rintro ⟨-, hread⟩
    obtain ⟨p, hp, hdetect⟩ := hread []
    rw [detect_buildMsg, Option.some.injEq, Detected.mk.injEq] at hdetect
    obtain ⟨-, hlimit, rfl⟩ := hdetect
    have hrange : 0 < msgLen ∧ msgLen < 1000 := effective_lt_iff.mp (effective_lt_of_read hlimit)
    have hself := effective_eq_self hrange
    have hlength := hp.length_eq (longestPayload_take (effective msgLen) (payloadText payload))
    rw [List.length_take, List.length_take, maxPayload] at hlength
    refine ⟨hrange, ?_⟩
    rw [← List.length_eq_zero_iff]
    omega
  · rintro ⟨hrange, hroom⟩
    have hself := effective_eq_self hrange
    have htake : (payloadText payload).take (maxPayload (effective msgLen))
        = (payloadText payload).take (effective msgLen - 7) := by
      rcases hroom with hroom | hnil
      · rw [maxPayload, Nat.max_eq_right (by omega)]
      · rw [hnil, List.take_nil, List.take_nil]
    refine ⟨?_, ?_⟩
    · intro hfits
      have hlength := congrArg List.length htake
      rw [List.length_take, List.length_take] at hlength
      rw [buildMsg_length]
      omega
    · intro rest
      refine ⟨_, longestPayload_take _ _, ?_⟩
      rw [detect_buildMsg, htake, Nat.mod_eq_of_lt (by omega), if_neg (by omega)]

def mapType : List.Vector UInt8 3 := ⟨ascii "map", rfl⟩

def oneByte : Option Bytes := some (ascii "a" ++ [0])

/-- `MAX_MSG_LEN` is read as 500, and a limit that the header and the zero fill up is exceeded. -/
theorem thousands_lost : ¬ RoundTrips mapType 0 oneByte ∧ ¬ RoundTrips mapType 7 oneByte := by
  constructor
  · rintro ⟨-, hread⟩
    obtain ⟨p, -, hdetect⟩ := hread []
    rw [detect_buildMsg, Option.some.injEq, Detected.mk.injEq] at hdetect
    exact absurd hdetect.2.1 (by decide)
  · rintro ⟨hshort, -⟩
    exact absurd (hshort (by decide)) (by decide)

end ChordDht.WordCount
