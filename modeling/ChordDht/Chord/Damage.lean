/-
Which bytes do damage.

The requests at the front of the buffer are served one after the other, and each of them may do
damage to the memory of the node: one with a header line too many, which is written behind the
end of a table, and one that the node does not withstand.  `Harmed` says this of the bytes that
were received and of the node; `processWindow_faults_iff` says that the pass over the buffer
goes wrong exactly there.
-/
import ChordDht.Chord.Replies
import ChordDht.Chord.Sections

namespace ChordDht.Chord

open Outcome

/-- A whole request at the front of the bytes, with no more headers than fit; of what stands behind
its head, the first `n` bytes are its payload. -/
structure Front (text : Bytes) (r : RequestText) (payload : Bytes) (n : Nat) : Prop where
  text_eq : text = r.head ++ payload
  plain : r.Plain
  count : r.headers.length ≤ httpMaxHeaders
  said : SaidLength r.headers (crlf ++ payload) n
  there : n ≤ payload.length

/-- The request as it is read, with `room` zero bytes behind what was received. -/
def RequestText.reading (r : RequestText) (payload : Bytes) (room n : Nat) : Request :=
  ⟨some (cstr r.method), some (cstr r.uri), r.headers.map Header.strings, received payload room, n⟩

/-- A request at the front of the bytes does damage, or one behind requests that are answered and
leave the connection open. -/
inductive Harmed (room : Nat) : Node → Bytes → Prop
  | tooMany {node : Node} {text : Bytes} (hmany : OneTooMany text) : Harmed room node text
  | here {node : Node} {text payload : Bytes} {r : RequestText} {n : Nat} (hfront : Front text r payload n)
      (hdamage : ¬ node.withstands (r.reading payload room n)) : Harmed room node text
  | later {node : Node} {text payload : Bytes} {r : RequestText} {n : Nat} {answer : Answer}
      (hfront : Front text r payload n) (hanswer : node.answer (r.reading payload room n) = .returns answer)
      (hopen : closesAfter (r.reading payload room n) = false)
      (hlater : Harmed room answer.node (payload.drop n)) : Harmed room node text

/-! ### The request in front -/

variable {text payload : Bytes} {r : RequestText} {n room : Nat}

theorem Front.parse (h : Front text r payload n) (room : Nat) :
    parseRequest (received text room) text.length emptyRequest
      = .returns ⟨r.head.length + n, r.inPlace (received payload room), r.reading payload room n⟩ := by
  have hlength : lengthUsed r.headers (crlf ++ received payload room) = n :=
    saidLength_iff.mp ((saidLength_received ..).mpr h.said)
  have hwhole : Whole text room r payload :=
    ⟨h.text_eq, h.plain, h.count, by rw [hlength]; exact_mod_cast h.there⟩
  rw [hwhole.parse, hlength]
  rfl

theorem Front.pos (r : RequestText) (n : Nat) : (0 : Int) < r.head.length + n := by
  have hhead := r.head_length
  omega

/-- What is parsed stands in front. -/
theorem front_of_parse {parse : Parse} (h : parseRequest (received text room) text.length emptyRequest
    = .returns parse) (hpos : 0 < parse.ret) :
    ∃ r payload n, Front text r payload n ∧ parse.request = r.reading payload room n ∧
      parse.ret = r.head.length + n := by
  rcases parseRequest_cases h with ⟨hret, -⟩ | ⟨hret, -, -⟩ | ⟨r, payload, hwhole⟩
  · omega
  · omega
  · obtain ⟨n, hlength⟩ := Int.eq_ofNat_of_zero_le (lengthUsed_nonneg r.headers (crlf ++ received payload room))
    have hthere := hwhole.there
    have hfront : Front text r payload n :=
      ⟨hwhole.text_eq, hwhole.plain, hwhole.count,
        (saidLength_received r.headers payload room n).mp (saidLength_iff.mpr hlength), by omega⟩
    refine ⟨r, payload, n, hfront, ?_⟩
    rw [hfront.parse, Outcome.returns.injEq] at h
    rw [← h]
    exact ⟨rfl, rfl⟩

/-- Behind the request stands what was received behind it. -/
theorem Front.drop (h : Front text r payload n) (room : Nat) :
    (r.inPlace (received payload room)).drop (r.head.length + n) = received (payload.drop n) room := by
  rw [← List.drop_drop, r.inPlace_drop, received, List.drop_append_of_le_length h.there, received]

theorem Front.length (h : Front text r payload n) :
    text.length = r.head.length + n + (payload.drop n).length := by
  have hthere := h.there
  rw [h.text_eq, List.length_append, List.length_drop]
  omega

/-- A request that can be serialised stands in front of its own bytes. -/
theorem RequestText.Serialisable.front (h : r.Serialisable) : Front r.wire r r.payload r.payload.length :=
  ⟨rfl, h.plain, h.count, saidLength_iff.mpr (h.lengthUsed_eq _), Nat.le_refl _⟩

/-! ### The pass over the buffer -/

/-- The pass goes on behind a request that is answered. -/
theorem processWindow_front (h : Front text r payload n) {node : Node} {answer : Answer}
    (hanswer : node.answer (r.reading payload room n) = .returns answer)
    (hopen : closesAfter (r.reading payload room n) = false) (fuel start : Nat) :
    processWindow (fuel + 1) node (received text room) start text.length = (do
      let rest ← processWindow fuel answer.node (received (payload.drop n) room) (start + (r.head.length + n))
        (payload.drop n).length
      return { rest with packets := ⟨r.head.length + n, r.inPlace (received payload room),
        r.reading payload room n, answer⟩ :: rest.packets }) := by
  have hpos := Front.pos r n
  have hret : ((r.head.length : Int) + n).toNat = r.head.length + n := by omega
  have hrest : text.length - (r.head.length + n) = (payload.drop n).length := by
    rw [h.length, Nat.add_sub_cancel_left]
  rw [processWindow, processPacket_parsed (h.parse room) hpos, hanswer]
  simp only [returns_bind, pure_eq, hopen, Bool.false_eq_true, if_false, hpos, if_true, hret, h.drop, hrest]

/-- The pass over a request with nothing behind it. -/
theorem processWindow_one (h : Front text r payload payload.length) {node : Node} {answer : Answer}
    (hanswer : node.answer (r.reading payload room payload.length) = .returns answer)
    (hopen : closesAfter (r.reading payload room payload.length) = false) (fuel start : Nat) :
    ∃ w, processWindow (fuel + 2) node (received text room) start text.length = .returns w ∧ w.ret = 0 ∧
      w.node = answer.node ∧ w.start = start + text.length := by
  have hlength := h.length
  rw [processWindow_front h hanswer hopen, processWindow]
  rw [List.drop_length] at hlength ⊢
  have hnone : processPacket answer.node (received [] room) 0
      = .returns ⟨0, received [] room, emptyRequest, ⟨answer.node, [], []⟩⟩ := by
    rw [processPacket, ← List.length_nil, parseRequest_waiting List.not_mem_nil room]
    rfl
  rw [List.length_nil, hnone]
  refine ⟨_, rfl, rfl, rfl, ?_⟩
  show start + (r.head.length + payload.length) = start + text.length
  rw [hlength, List.length_nil, Nat.add_zero]

/-- **Where damage is done the pass goes wrong.** -/
theorem Harmed.faults {node : Node} (h : Harmed room node text) :
    node.resources.heap.badFree = false → ∀ {fuel : Nat} (start : Nat), text.length < fuel →
      processWindow fuel node (received text room) start text.length = .faults := by
  induction h with
  | tooMany hmany =>
      intro _ fuel start hfuel
      obtain ⟨fuel, rfl⟩ := Nat.exists_eq_add_one_of_ne_zero (Nat.ne_of_gt (Nat.zero_lt_of_lt hfuel))
      rw [processWindow, processPacket, parseRequest_faults_iff.mpr hmany]
      rfl
  | @here node text payload r n hfront hdamage =>
      intro hfree fuel start hfuel
      obtain ⟨fuel, rfl⟩ := Nat.exists_eq_add_one_of_ne_zero (Nat.ne_of_gt (Nat.zero_lt_of_lt hfuel))
      have hdown : node.answer (r.reading payload room n) = .faults := by
        rcases @answer_up node (r.reading payload room n) hfree with ⟨-, hup⟩ | ⟨hdown, -⟩
        · exact absurd hup hdamage
        · exact hdown
      rw [processWindow, processPacket_faults (hfront.parse room) (Front.pos r n) hdown]
      rfl
  | @later node text payload r n answer hfront hanswer hopen _ ih =>
      intro hfree fuel start hfuel
      obtain ⟨fuel, rfl⟩ := Nat.exists_eq_add_one_of_ne_zero (Nat.ne_of_gt (Nat.zero_lt_of_lt hfuel))
      have hfree' : answer.node.resources.heap.badFree = false := by
        rcases @answer_up node (r.reading payload room n) hfree with ⟨⟨answer', hanswer', hfree'⟩, -⟩ | ⟨hdown, -⟩
        · rw [hanswer, Outcome.returns.injEq] at hanswer'
          rw [hanswer']
          exact hfree'
        · rw [hanswer] at hdown
          cases hdown
      have hlen := hfront.length
      have hhead := r.head_length
      rw [processWindow_front hfront hanswer hopen, map_eq_faults]
      exact ih hfree' _ (by omega)

/-- **Where the pass goes wrong damage is done.** -/
theorem harmed_of_faults : ∀ (fuel : Nat) {node : Node} {text : Bytes} {start : Nat},
    node.resources.heap.badFree = false →
    processWindow fuel node (received text room) start text.length = .faults → Harmed room node text := by
  intro fuel
  induction fuel with
  | zero =>
      intro node text start _ h
      cases h
  | succ fuel ih =>
      intro node text start hfree h
      cases hparse : parseRequest (received text room) text.length emptyRequest with
      | diverges =>
          rw [processWindow, processPacket, hparse] at h
          cases h
      | exits =>
          rw [processWindow, processPacket, hparse] at h
          cases h
      | faults => exact .tooMany (parseRequest_faults_iff.mp hparse)
      | returns parse =>
          by_cases hpos : 0 < parse.ret
          · obtain ⟨r, payload, n, hfront, -, -⟩ := front_of_parse hparse hpos
            rcases @answer_up node (r.reading payload room n) hfree with
              ⟨⟨answer, hanswer, hfree'⟩, -⟩ | ⟨-, hdamage⟩
            · cases hcloses : closesAfter (r.reading payload room n) with
              | true =>
                  rw [processWindow, processPacket_parsed (hfront.parse room) (Front.pos r n), hanswer] at h
                  simp only [returns_bind, pure_eq, hcloses, if_true] at h
                  rw [if_neg (by decide)] at h
                  cases h
              | false =>
                  rw [processWindow_front hfront hanswer hcloses, map_eq_faults] at h
                  exact .later hfront hanswer hcloses (ih hfree' h)
            · exact .here hfront hdamage
          · rw [processWindow, processPacket, hparse, returns_bind, if_neg hpos] at h
            split at h
            · simp only [returns_bind, pure_eq] at h
              rw [if_neg (by decide)] at h
              cases h
            · simp only [returns_bind, pure_eq] at h
              rw [if_neg hpos] at h
              cases h

/-- **The pass over the buffer** goes wrong exactly if damage is done. -/
theorem processWindow_faults_iff {node : Node} (hfree : node.resources.heap.badFree = false) {fuel : Nat}
    (hfuel : text.length < fuel) (start : Nat) :
    processWindow fuel node (received text room) start text.length = .faults ↔ Harmed room node text :=
  ⟨harmed_of_faults fuel hfree, fun h => h.faults hfree start hfuel⟩

end ChordDht.Chord
