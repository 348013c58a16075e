/-
Messages between the distributor and a worker.

A message is the type, as much of the text as there is room for, and a zero.  The worker
finds the text behind the type, with its zero, and answers by the type; in the newer form
it takes the first three bytes of the text for a limit.
-/
import ChordDht.WordCount.Distributor

namespace ChordDht.WordCount

open Outcome

/-- What has room in a message behind the type. -/
def sent (text : Bytes) : Bytes := text.take 1496

theorem sent_length (text : Bytes) : (sent text).length ≤ 1496 := List.length_take_le ..

theorem sent_eq_self {text : Bytes} (h : text.length ≤ 1496) : sent text = text := List.take_of_length_le h

theorem zero_notMem_sent {text : Bytes} (h : (0 : UInt8) ∉ text) : (0 : UInt8) ∉ sent text :=
  fun hmem => h (List.mem_of_mem_take hmem)

/-- **What is sent**: the type, the text and the zero. -/
theorem frame_eq {type : String} (htype : (ascii type).length = 3) {text : Bytes}
    (hzero : (0 : UInt8) ∉ text) : frame type text = ascii type ++ (sent text ++ [0]) := by
  have hroom : maxMsgLen - 1 = (ascii type).length + 1496 := by rw [htype]; rfl
  rw [frame, cstr_eq_self hzero, hroom, List.take_length_add_append, List.append_assoc]
  rfl

theorem frame_length {type : String} (htype : (ascii type).length = 3) {text : Bytes}
    (hzero : (0 : UInt8) ∉ text) : (frame type text).length = (sent text).length + 4 := by
  rw [frame_eq htype hzero, List.length_append, List.length_append, htype, List.length_singleton]
  omega

/-- The worker has room for it. -/
theorem receive_frame {type : String} (htype : (ascii type).length = 3) {text : Bytes}
    (hzero : (0 : UInt8) ∉ text) :
    receive recvBufferSize (frame type text) = .returns (ascii type ++ (sent text ++ [0, 0])) := by
  have hlen := sent_length text
  have hsize : recvBufferSize = 2048 := rfl
  have hroom : ¬ recvBufferSize ≤ (frame type text).length := by
    rw [frame_length htype hzero]
    omega
  rw [receive, if_neg hroom, frame_eq htype hzero, List.append_assoc, List.append_assoc]
  rfl

/-- The type is compared with the first three bytes. -/
theorem strncmp_type {type other : Bytes} (htype : type.length = 3) (hother : other.length = 3)
    (hzero : (0 : UInt8) ∉ other) (mem : Bytes) : strncmp (type ++ mem) other 3 = true ↔ type = other := by
  have h := @strncmp_length (type ++ mem) other hzero
  rwa [hother, List.take_left' htype] at h

theorem answer_map (mem payload : Bytes) (msgLen : Nat) (newProtocol : Bool) :
    answer (ascii "map" ++ mem) payload msgLen newProtocol = .ofText (mapReply payload msgLen) :=
  if_pos ((strncmp_type rfl rfl (by decide) mem).mpr rfl)

theorem answer_red (mem payload : Bytes) (msgLen : Nat) (newProtocol : Bool) :
    answer (ascii "red" ++ mem) payload msgLen newProtocol = .ofText (reduceReply payload msgLen) := by
  have hmap : ¬ strncmp (ascii "red" ++ mem) (ascii "map") 3 = true := by
    rw [strncmp_type rfl rfl (by decide)]
    decide
  rw [answer, if_neg hmap]
  exact if_pos ((strncmp_type rfl rfl (by decide) mem).mpr rfl)

/-! ### The legacy branch -/

theorem handleLegacy_frame {type : String} (htype : (ascii type).length = 3) {text : Bytes}
    (hzero : (0 : UInt8) ∉ text) :
    handleLegacy (frame type text) =
      .returns (answer (ascii type ++ (sent text ++ [0, 0])) (sent text ++ [0, 0]) maxMsgLen false) := by
  have hlen : ¬ (frame type text).length < 3 := by
    rw [frame_length htype hzero]
    omega
  rw [handleLegacy, receive_frame htype hzero]
  show Outcome.returns _ = _
  rw [if_neg hlen, answerLegacy, List.drop_left' htype]

/-- **A map request in the legacy branch.** -/
theorem handleLegacy_map {text : Bytes} (hzero : (0 : UInt8) ∉ text) :
    handleLegacy (frame "map" text) = .returns (.ofText (mapReply (sent text ++ [0, 0]) maxMsgLen)) := by
  rw [handleLegacy_frame rfl hzero, answer_map]

/-- **A reduce request in the legacy branch.** -/
theorem handleLegacy_red {text : Bytes} (hzero : (0 : UInt8) ∉ text) :
    handleLegacy (frame "red" text) = .returns (.ofText (reduceReply (sent text ++ [0, 0]) maxMsgLen)) := by
  rw [handleLegacy_frame rfl hzero, answer_red]

/-! ### Both branches -/

/-- The limit that a message of the newer form would give, if the text looks like one. -/
def announced (text : Bytes) : Option Nat :=
  match text with
  | a :: b :: c :: _ =>
      if isDigit a && isDigit b && isDigit c then
        some ((a.toNat - 48) * 100 + (b.toNat - 48) * 10 + (c.toNat - 48))
      else none
  | _ => none

theorem announced_sent (text : Bytes) : announced (sent text) = announced text := by
  match text with
  | [] => rfl
  | [_] => rfl
  | [_, _] => rfl
  | _ :: _ :: _ :: _ => rfl

theorem announced_le {text : Bytes} {n : Nat} (h : announced text = some n) :
    n ≤ 999 ∧ ∃ a b c rest, text = a :: b :: c :: rest ∧ isDigit a = true ∧ isDigit b = true ∧
      isDigit c = true ∧ n = (a.toNat - 48) * 100 + (b.toNat - 48) * 10 + (c.toNat - 48) := by
  match text with
  | a :: b :: c :: rest =>
      rw [announced] at h
      by_cases hdigits : (isDigit a && isDigit b && isDigit c) = true
      · rw [if_pos hdigits, Option.some.injEq] at h
        simp only [Bool.and_eq_true] at hdigits
        obtain ⟨⟨ha, hb⟩, hc⟩ := hdigits
        have ha' := isDigit_bounds ha
        have hb' := isDigit_bounds hb
        have hc' := isDigit_bounds hc
        exact ⟨by omega, a, b, c, rest, rfl, ha, hb, hc, h.symm⟩
      · rw [if_neg hdigits] at h
        cases h

/-- **The worker takes the newer form** from the text. -/
theorem isNewProtocol_frame {type : Bytes} (htype : type.length = 3) (text : Bytes) :
    isNewProtocol (type ++ (text ++ [0, 0])) (text.length + 4) = (announced text).isSome := by
  obtain ⟨x, y, z, rfl⟩ := List.length_eq_three.mp htype
  have hzero : isDigit 0 = false := rfl
  match text with
  | [] => simp [isNewProtocol, announced, headerLen]
  | [a] => simp [isNewProtocol, announced, hzero]
  | [a, b] => simp [isNewProtocol, announced, hzero]
  | a :: b :: c :: rest =>
      have hlong : decide (headerLen ≤ (a :: b :: c :: rest).length + 4) = true := by
        have hheader : headerLen = 6 := rfl
        simp only [List.length_cons, decide_eq_true_eq]
        omega
      show (decide (headerLen ≤ _) && isDigit a && isDigit b && isDigit c) = _
      rw [hlong, Bool.true_and, announced]
      cases hdigits : isDigit a && isDigit b && isDigit c with
      | true => rfl
      | false => rfl

/-- The limit of a message of the newer form: what the digits say, if it is not zero. -/
theorem parseMsgLen_announced {text : Bytes} {n : Nat} (h : announced text = some n) (mem : Bytes) :
    parseMsgLen (text ++ mem) = if n = 0 then maxMsgLen else n := by
  obtain ⟨hle, a, b, c, rest, rfl, ha, hb, hc, hn⟩ := announced_le h
  have hmax : maxMsgLen = 1500 := rfl
  simp only [parseMsgLen, List.cons_append, List.getD_cons_zero, List.getD_cons_succ, ha, hb, hc,
    Bool.and_self, if_true, ← hn]
  by_cases hnone : n = 0
  · rw [if_pos (Or.inl hnone), if_pos hnone]
  · rw [if_neg hnone, if_neg (by omega)]

/-- **A map request in the newer form**: the digits are the limit, what follows is counted. -/
theorem handle_map_announced {text : Bytes} (hzero : (0 : UInt8) ∉ text) {n : Nat}
    (h : announced text = some n) :
    handle (frame "map" text) =
      .returns (.ofText (mapReply ((sent text).drop 3 ++ [0, 0]) (if n = 0 then maxMsgLen else n))) := by
  have hsent := announced_sent text
  rw [h] at hsent
  have hnew : isNewProtocol (ascii "map" ++ (sent text ++ [0, 0])) ((sent text).length + 4) = true := by
    rw [isNewProtocol_frame rfl, hsent]
    rfl
  have hpayload : (ascii "map" ++ (sent text ++ [0, 0])).drop headerLen = (sent text).drop 3 ++ [0, 0] := by
    obtain ⟨-, a, b, c, rest, htext, -⟩ := announced_le hsent
    rw [htext]
    rfl
  rw [handle, receive_frame rfl hzero, frame_length rfl hzero]
  show Outcome.returns _ = _
  rw [dispatch, if_neg (by omega), if_pos hnew, hpayload, List.drop_left' (by rfl),
    parseMsgLen_announced hsent, answer_map]

/-- **Any other map request** is taken for the legacy form. -/
theorem handle_map_plain {text : Bytes} (hzero : (0 : UInt8) ∉ text) (h : announced text = none) :
    handle (frame "map" text) = handleLegacy (frame "map" text) := by
  have hplain : ¬ isNewProtocol (ascii "map" ++ (sent text ++ [0, 0])) ((sent text).length + 4) = true := by
    rw [isNewProtocol_frame rfl, announced_sent, h]
    exact Bool.false_ne_true
  have hlong : ¬ (sent text).length + 4 < 3 := by omega
  rw [handle, handleLegacy, receive_frame rfl hzero, frame_length rfl hzero]
  show Outcome.returns _ = Outcome.returns _
  rw [dispatch, if_neg hlong, if_neg hplain, if_neg hlong]

end ChordDht.WordCount
