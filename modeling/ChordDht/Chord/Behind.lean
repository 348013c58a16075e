/-
What the bytes behind a payload can change.

A payload is handed to `set` as a pointer into the connection buffer, and overwriting a
value copies from there up to the next zero byte, which the client need not have sent
within the payload.  Where the copy stays inside the new block it has not come to what
stands behind, and where it does not the process has gone wrong; so `answer_behind` can
say that a request is answered alike whatever stands behind its payload.
-/
import ChordDht.Chord.Replies
import ChordDht.Chord.Wire

namespace ChordDht.Chord

/-- A string that ends within the payload is the same with more behind it. -/
theorem cstr_behind {p : Bytes} (hzero : (0 : UInt8) ∈ p) (rest : Bytes) : cstr (p ++ rest) = cstr p := by
  obtain ⟨front, back, rfl, hfront⟩ := List.eq_append_cons_of_mem hzero
  rw [List.append_assoc, List.cons_append]
  exact (cstr_front front _).trans (cstr_front front _).symm

/-- The string ends within the payload exactly if there is a zero byte in it. -/
theorem cstr_ends_iff (p rest : Bytes) : (cstr (p ++ rest)).length < p.length ↔ (0 : UInt8) ∈ p := by
  constructor
  · intro h
    by_contra hzero
    have hleft : cstr (p ++ rest) = p ++ cstr rest := by
      unfold cstr
      rw [List.takeWhile_append_of_pos]
      intro b hb
      have hne : b ≠ 0 := fun hc => hzero (hc ▸ hb)
      simpa using hne
    rw [hleft, List.length_append] at h
    omega
  · intro hzero
    rw [cstr_behind hzero]
    obtain ⟨front, back, rfl, hfront⟩ := List.eq_append_cons_of_mem hzero
    have hle : (cstr front).length ≤ front.length := (List.takeWhile_prefix _).length_le
    rw [cstr_front, List.length_append, List.length_cons]
    omega

theorem setContained_behind {key p : Bytes} {tuples : List Tuple} (rest : Bytes) :
    SetContained key (p ++ rest) p.length tuples ↔
      ValueOwned key tuples ∧ (find key tuples ≠ none → (0 : UInt8) ∈ p) := by
  unfold SetContained
  rw [cstr_ends_iff]

/-- `set` with a payload that stays inside its block does not look behind it. -/
theorem set_behind {key p : Bytes} {table : Table} (h : SetContained key p p.length table.tuples) (rest : Bytes) :
    set key (p ++ rest) p.length table = set key p p.length table := by
  unfold set
  cases hf : find key table.tuples with
  | some i =>
      have hends := h.2 (by rw [hf]; exact Option.some_ne_none i)
      have hzero := (cstr_ends_iff p []).mp (by rwa [List.append_nil])
      simp only [overwrite, Heap.strcpy, cstr_behind hzero]
  | none =>
      have htake : (p ++ rest).take p.length = p.take p.length := by rw [List.take_left, List.take_length]
      simp only [create, Heap.memcpy, htake]

/-- **Serving a request** does not depend on what stands behind its payload. -/
theorem sendReply_behind (r : ClientRequest) (rest : Bytes) (table : Table) :
    sendReply (r.parsed rest) table = sendReply (r.parsed []) table := by
  by_cases hput : (r.parsed []).isPut
  · obtain ⟨existed, after, hset⟩ : ∃ existed after,
        set r.uri (r.payload ++ rest) r.payload.length table = (existed, after) := ⟨_, _, rfl⟩
    obtain ⟨existed', after', hset'⟩ : ∃ existed after,
        set r.uri (r.payload ++ []) r.payload.length table = (existed, after) := ⟨_, _, rfl⟩
    have hsound := @set_damaged_iff r.uri (r.payload ++ rest) r.payload.length table
    have hsound' := @set_damaged_iff r.uri (r.payload ++ []) r.payload.length table
    rw [hset, setContained_behind] at hsound
    rw [hset', setContained_behind] at hsound'
    have hput' : (r.parsed rest).isPut := hput
    rw [sendReply_put table hput' hset, sendReply_put table hput hset']
    cases hdamaged : table.heap.damaged after.heap with
    | false =>
        have hcontained : SetContained r.uri r.payload r.payload.length table.tuples := by
          have h := @setContained_behind r.uri r.payload table.tuples []
          rw [List.append_nil] at h
          exact h.mpr (hsound.mp hdamaged).2
        rw [set_behind hcontained] at hset hset'
        obtain ⟨rfl, rfl⟩ := Prod.mk.inj (hset.symm.trans hset')
        rw [hdamaged]
    | true =>
        have hdamaged' : table.heap.damaged after'.heap = true := by
          rw [← Bool.not_eq_false]
          intro hc
          rw [hsound.mpr (hsound'.mp hc)] at hdamaged
          exact Bool.noConfusion hdamaged
        rw [hdamaged']
        rfl
  · unfold sendReply
    have hne : (r.parsed []).method.getD [] ≠ ascii "PUT" := hput
    have hne' : (r.parsed rest).method.getD [] ≠ ascii "PUT" := hput
    simp only [if_neg hne, if_neg hne']
    rfl

/-- **Requests are answered alike** whatever stands behind their payloads. -/
theorem answer_behind (node : Node) (r : ClientRequest) (rest : Bytes) :
    node.answer (r.parsed rest) = node.answer (r.parsed []) := by
  unfold Node.answer
  rw [sendReply_behind]
  rfl

/-- There is one reply. -/
theorem answer_one {node : Node} {request : Request} {answer : Answer}
    (h : node.answer request = .returns answer) : ∃ reply, answer.replies = [reply] := by
  unfold Node.answer at h
  simp only at h
  split at h
  · obtain ⟨⟨reply, table⟩, -, h⟩ := Outcome.bind_eq_returns.mp h
    rw [Outcome.pure_eq, Outcome.returns.injEq] at h
    rw [← h]
    exact ⟨reply, rfl⟩
  · rw [Outcome.returns.injEq] at h
    rw [← h]
    unfold Node.delegate
    split
    · exact ⟨_, rfl⟩
    · split
      · exact ⟨_, rfl⟩
      · split
        · exact ⟨_, rfl⟩
        · exact ⟨_, rfl⟩

end ChordDht.Chord
