/-
The table of a file when workers run out of memory.

Every exchange with a worker may find its own `Memory`: no map, no node for some words, no
buffer for the reply.  A worker that falls short says less, and says it in whole tokens, so the
distributor goes on with what it gets.  `shortage_table`: whatever fails, and whatever is in
the file, the program comes to its end without an overrun, and what it prints is a table in
order in which no word of the file has more than its number.
-/
import ChordDht.WordCount.EndToEnd
import ChordDht.WordCount.Payloads
import ChordDht.WordCount.Poll

namespace ChordDht.WordCount

open Outcome

/-! ### A map that falls short -/

/-- Two maps filled with tallies, of which the first has nothing more often. -/
structure Under (hm' hm : HashMap) : Prop where
  short : ∃ ts, Holds hm' ts
  full : ∃ ts, Holds hm ts
  le : ∀ k, tally hm'.entries k ≤ tally hm.entries k

theorem under_create (n : Nat) : Under (hmCreate n) (hmCreate n) :=
  ⟨⟨[], holds_create n⟩, ⟨[], holds_create n⟩, fun _ => Int.le_refl _⟩

theorem Holds.tally_put {hm : HashMap} {ts : List (Bytes × ℤ)} (h : Holds hm ts) (key : Bytes) {delta : ℤ}
    (hdelta : 0 < delta) (k : Bytes) : ChordDht.tally (hmPutInc hm key delta).entries k
      = ChordDht.tally hm.entries k + if lower key = k then delta else 0 := by
  rw [(h.put key hdelta).tally, h.tally, tally_append, tally_cons, tally_nil, add_zero]

/-- **A word that is put, or left out,** in one map, and put in the other. -/
theorem Under.put {hm' hm : HashMap} (h : Under hm' hm) (node : Bool) (key : Bytes) {delta : ℤ}
    (hdelta : 0 < delta) : Under (hmPutIncIn node hm' key delta) (hmPutInc hm key delta) := by
  obtain ⟨⟨ts, hshort⟩, ⟨us, hfull⟩, htally⟩ := h
  rcases hmPutIncIn_cases node hm' key delta with hput | hleft
  · rw [hput]
    refine ⟨⟨_, hshort.put key hdelta⟩, ⟨_, hfull.put key hdelta⟩, ?_⟩
    intro k
    have hk := htally k
    rw [hshort.tally_put key hdelta, hfull.tally_put key hdelta]
    omega
  · rw [hleft]
    refine ⟨⟨ts, hshort⟩, ⟨_, hfull.put key hdelta⟩, ?_⟩
    intro k
    have hk := htally k
    rw [hfull.tally_put key hdelta]
    split
    · omega
    · omega

/-- A text that is counted in both: the word buffers are the same all along. -/
theorem Under.tokenized (node : Nat → Bool) (text : Bytes) : ∀ {i : Nat} {hm' hm : HashMap} {word : Bytes},
    Under hm' hm → Under (tokenizeFrom node i (hm', word) text) (tokenizeEnd (text.foldl tokenizeStep (hm, word))) := by
  induction text with
  | nil =>
      intro i hm' hm word h
      rw [tokenizeFrom, List.foldl_nil, tokenizeEndIn, tokenizeEnd]
      by_cases hword : 0 < word.length
      · rw [if_pos hword, if_pos hword]
        exact h.put (node i) word Int.one_pos
      · rwa [if_neg hword, if_neg hword]
  | cons c text ih =>
      intro i hm' hm word h
      rw [tokenizeFrom, List.foldl_cons, tokenizeStepIn, tokenizeStep]
      by_cases hc : isAlpha c = true
      · rw [if_pos hc, if_pos hc]
        exact ih h
      · rw [if_neg hc, if_neg hc]
        by_cases hword : 0 < word.length
        · rw [if_pos hword, if_pos hword]
          exact ih (h.put (node i) word Int.one_pos)
        · rw [if_neg hword, if_neg hword]
          exact ih h

theorem under_tokenize (node : Nat → Bool) (text : Bytes) :
    Under (wcTokenizeAndCountIn node (hmCreate 1024) text) (wcTokenizeAndCount (hmCreate 1024) text) :=
  (under_create 1024).tokenized node (cstr text)

/-- The pair that was read is put in both. -/
theorem Under.finalize {hm' : HashMap} {p : Parser} (h : Under hm' p.hm) (node : Bool) :
    Under (Parser.finalizeIn node { p with hm := hm' }) p.finalize := by
  rw [Parser.finalizeIn, Parser.finalize]
  by_cases hput : 0 < p.word.length ∧ 0 < p.count
  · rw [if_pos hput, if_pos hput]
    exact h.put node p.word hput.2
  · rwa [if_neg hput, if_neg hput]

/-- One character of a payload: state, word and count stay the same in both. -/
theorem Under.step {hm' : HashMap} {p : Parser} (h : Under hm' p.hm) (node : Bool) (c : UInt8) :
    ∃ hm'', parseStepIn node { p with hm := hm' } c = { parseStep p c with hm := hm'' } ∧
      Under hm'' (parseStep p c).hm := by
  have hput := h.finalize node
  cases hstate : p.state with
  | start =>
      simp only [parseStepIn, parseStep, hstate]
      split
      · exact ⟨hm', rfl, h⟩
      · exact ⟨hm', by rw [← hstate], h⟩
  | inWord =>
      simp only [parseStepIn, parseStep, hstate]
      split
      · exact ⟨hm', rfl, h⟩
      · split
        · exact ⟨hm', rfl, h⟩
        · exact ⟨hm', rfl, h⟩
  | inOnes =>
      simp only [parseStepIn, parseStep, hstate]
      split
      · exact ⟨hm', rfl, h⟩
      · split
        · exact ⟨_, rfl, hput⟩
        · exact ⟨_, rfl, hput⟩

theorem Under.parsed (node : Nat → Bool) (payload : Bytes) : ∀ {i : Nat} {hm' : HashMap} {p : Parser},
    Under hm' p.hm → Under (parseFrom node i { p with hm := hm' } payload) (parseEnd (payload.foldl parseStep p)) := by
  induction payload with
  | nil =>
      intro i hm' p h
      rw [parseFrom, List.foldl_nil, parseEndIn, parseEnd]
      by_cases hones : p.state = .inOnes
      · rw [if_pos hones, if_pos hones]
        exact h.finalize (node i)
      · rwa [if_neg hones, if_neg hones]
  | cons c payload ih =>
      intro i hm' p h
      obtain ⟨hm'', hstep, hunder⟩ := h.step (node i) c
      rw [parseFrom, List.foldl_cons, hstep]
      exact ih hunder

theorem under_fromMapFormat (node : Nat → Bool) (payload : Bytes) :
    Under (wcFromMapFormatIn node payload) (wcFromMapFormat payload) :=
  @Under.parsed node (cstr payload) 0 (hmCreate 1024) ⟨.start, [], 0, hmCreate 1024⟩ (under_create 1024)

/-! ### Fewer entries -/

theorem tally_nonneg {ts : List (Bytes × ℤ)} (hpos : ∀ t ∈ ts, 0 < t.2) (k : Bytes) : 0 ≤ tally ts k := by
  refine List.sum_nonneg ?_
  intro n hn
  obtain ⟨t, ht, rfl⟩ := List.mem_map.mp hn
  exact Int.le_of_lt (hpos t (List.mem_of_mem_filter ht))

/-- The first entries have no more of anything. -/
theorem tally_front {ts us : List (Bytes × ℤ)} (hfront : us <+: ts) (hpos : ∀ t ∈ ts, 0 < t.2) (k : Bytes) :
    tally us k ≤ tally ts k := by
  obtain ⟨more, rfl⟩ := hfront
  have hmore := tally_nonneg (fun t ht => hpos t (List.mem_append_right _ ht)) k
  rw [tally_append]
  omega

/-- Each entry of the map that falls short is one of the other, with no more of it. -/
theorem Under.entry {hm' hm : HashMap} (h : Under hm' hm) {w : Bytes} {n : ℤ} (hmem : (w, n) ∈ hm'.entries) :
    ∃ m, (w, m) ∈ hm.entries ∧ n ≤ m := by
  obtain ⟨⟨ts, hshort⟩, ⟨us, hfull⟩, htally⟩ := h
  have hn := hshort.summary.tally_of_mem hmem
  have hpos := hshort.summary.pos _ hmem
  have hle := htally w
  refine ⟨tally hm.entries w, ?_, by omega⟩
  exact hfull.summary.mem_iff.mpr ⟨rfl, by simp only at hpos; omega⟩

theorem flatMap_front {entry : Bytes × ℤ → Bytes} {ts us : List (Bytes × ℤ)} (hfront : us <+: ts) :
    (us.flatMap entry).length ≤ (ts.flatMap entry).length := by
  obtain ⟨more, rfl⟩ := hfront
  rw [List.flatMap_append, List.length_append]
  omega

/-! ### What is replied -/

/-- Without memory for a map, or for the reply, there is no text. -/
theorem getD_allocated (create : Bool) (malloc : Malloc) (n : Nat) (text : Bytes) :
    (if create then allocated malloc n text else none).getD [] = [] ∨
      (if create then allocated malloc n text else none).getD [] = text := by
  cases create with
  | false => exact Or.inl rfl
  | true =>
      rw [if_pos rfl, allocated]
      cases malloc.gives (if n ≤ 1 then 1 else n) with
      | false => exact Or.inl rfl
      | true => exact Or.inr rfl

/-- **The reply to a map request** is tokens of the text, no word more often than in it. -/
theorem mapReplyIn_tokens (memory : Memory) {text : Bytes} (hlen : (cstr text).length ≤ 1496) (n : Nat) :
    ∃ ts : List (Bytes × ℤ), (∀ t ∈ ts, Token t ∧ (mapEntry t).length ≤ payloadMax) ∧
      (mapReplyIn memory text n).getD [] = ts.flatMap mapEntry ∧
      (ts.flatMap mapEntry).length ≤ (cstr text).length + 1 ∧
      ∀ w, tally ts w ≤ (cutWords (cstr text)).count w := by
  rw [mapReplyIn]
  rcases getD_allocated memory.create memory.malloc n _ with hnone | hreply
  · exact ⟨[], fun t ht => absurd ht List.not_mem_nil, hnone, Nat.zero_le _, fun w => Int.natCast_nonneg _⟩
  · have hunder := under_tokenize memory.node text
    have hfilled := filled_tokenize memory.node text
    have hholds := (holds_create 1024).tokenize text
    rw [List.nil_append] at hholds
    rw [hreply]
    generalize wcTokenizeAndCountIn memory.node (hmCreate 1024) text = hm at hunder hfilled
    have hentries := hfilled.entries
    have hcounts := map_length fun t ht => Int.le_of_lt (hentries t ht).1.pos
    have hweight := hfilled.weight
    have hcut := weight_cut (cstr text)
    have hchunk : chunkMaxSize = 1497 := rfl
    have hfront : fitPrefix mapEntry n 0 hm.entries <+: hm.entries := fitPrefix_prefix hm.entries 0
    refine ⟨fitPrefix mapEntry n 0 hm.entries, ?_, ?_, ?_, ?_⟩
    · rintro ⟨w, m⟩ ht
      have hmem := hfront.subset ht
      obtain ⟨m', hmem', hle⟩ := hunder.entry hmem
      -- the entry of the map that has all words fits a payload
      have hroom := entry_room (tokens_cut (cstr text)) (by omega) hholds _ hmem'
      refine ⟨(hentries _ hmem).1, Nat.le_trans ?_ hroom⟩
      simp only [mapEntry, List.length_append, List.length_replicate]
      omega
    · refine toMapFormat_fitPrefix (fun t ht => (hentries t ht).1.pos) (Or.inr (Nat.le_refl _)) ?_
      exact entry_sizes (by push_cast at hweight; omega)
    · have hle := @flatMap_front mapEntry _ _ hfront
      push_cast at hweight
      omega
    · intro w
      have hless := tally_front hfront (fun t ht => (hentries t ht).1.pos) w
      have hle := hunder.le w
      rw [hholds.tally, ones, tally_ones] at hle
      exact Int.le_trans hless hle

/-- **The reply to a reduce request** is tokens, with no more of a word than there was. -/
theorem reduceReplyIn_tokens (memory : Memory) {ts : List (Bytes × ℤ)} (hts : ∀ t ∈ ts, Token t)
    (hroom : (ts.flatMap mapEntry).length ≤ payloadMax) (n : Nat) :
    ∃ rs : List (Bytes × ℤ), (∀ r ∈ rs, Token r) ∧
      (reduceReplyIn memory (ts.flatMap mapEntry) n).getD [] = rs.flatMap reduceEntry ∧
      (rs.flatMap reduceEntry).length ≤ payloadMax ∧ ∀ w, tally rs w ≤ tally ts w := by
  rw [reduceReplyIn]
  rcases getD_allocated memory.create memory.malloc n _ with hnone | hreply
  · exact ⟨[], fun t ht => absurd ht List.not_mem_nil, hnone, Nat.zero_le _,
      tally_nonneg fun t ht => (hts t ht).pos⟩
  · have hunder := under_fromMapFormat memory.node (ts.flatMap mapEntry)
    have hfilled := filled_fromMapFormat memory.node (ts.flatMap mapEntry)
    have hholds := holds_tokens hts
    rw [fromMapFormat_tokens hts] at hunder
    rw [cstr_eq_self (zero_notMem_map hts)] at hfilled
    rw [hreply]
    generalize wcFromMapFormatIn memory.node (ts.flatMap mapEntry) = hm at hunder hfilled
    have hentries := hfilled.entries
    have hcounts := map_length fun t ht => Int.le_of_lt (hentries t ht).1.pos
    have hweight := hfilled.weight
    have hshorter := reduce_length_le fun t ht => (hentries t ht).1
    have hpayload : payloadMax = 1493 := rfl
    have hdigits : ∀ t ∈ hm.entries, (decimalInt t.2).length < 32 := by
      intro t ht
      obtain ⟨htoken, hentry⟩ := hentries t ht
      exact decimalInt_short htoken.pos (by omega)
    have hfront : fitPrefix reduceEntry n 0 hm.entries <+: hm.entries := fitPrefix_prefix hm.entries 0
    refine ⟨fitPrefix reduceEntry n 0 hm.entries, fun r hr => (hentries r (hfront.subset hr)).1, ?_, ?_, ?_⟩
    · refine toReduceFormat_fitPrefix (fun t ht => reduceEntry_pos (hentries t ht).1) hdigits
        (Or.inr (Nat.le_refl _)) ?_
      exact entry_sizes (by omega)
    · have hle := @flatMap_front reduceEntry _ _ hfront
      omega
    · intro w
      have hless := tally_front hfront (fun t ht => (hentries t ht).1.pos) w
      have hle := hunder.le w
      rw [hholds.tally] at hle
      exact Int.le_trans hless hle

/-! ### One exchange -/

/-- What a worker does with a message it received: as in `serve`. -/
def handleIn (zmq : ZmqRecv) (memory : Memory) (msg : Bytes) : Outcome Reply := do
  let received := zmq.recv memory.buffer (recvBufferSize - 1) msg
  let buffer ← terminate received.1 received.2
  return dispatchIn memory buffer received.2

theorem handleIn_eq (zmq : ZmqRecv) (memory : Memory) {msg : Bytes} (h : msg.length < recvBufferSize) :
    handleIn zmq memory msg = .returns ⟨answerText memory msg ++ [0], decide (kind msg = .rip)⟩ := by
  obtain ⟨rest, hbuffer⟩ := terminate_short zmq memory h
  simp only [handleIn, zmq.result, hbuffer, returns_bind, dispatchIn_eq, pure_eq]

/-- The text of a reply that has room where the distributor receives it. -/
theorem request_answer (zmq : ZmqRecv) (memory : Memory) {msg : Bytes} (h : msg.length < recvBufferSize)
    (hroom : (answerText memory msg).length + 1 < maxMsgLen) :
    request (handleIn zmq memory) msg = .returns (answerText memory msg) := by
  have hfits : ¬ maxMsgLen ≤ (answerText memory msg ++ [0]).length := by
    rw [List.length_append, List.length_singleton]
    omega
  rw [request, handleIn_eq zmq memory h, returns_bind, receive, if_neg hfits, returns_bind, pure_eq, List.append_assoc,
    List.singleton_append, cstr_append_zero (answerText_sendable memory h).zero]

/-- The zero behind a text is no digit. -/
theorem announced_zero (text : Bytes) : announced (text ++ [0]) = announced text := by
  have hzero : isDigit 0 = false := rfl
  match text with
  | [] => rfl
  | [a] => rfl
  | [a, b] => simp [announced, hzero]
  | _ :: _ :: _ :: _ => rfl

/-- The words that a worker finds in a chunk are the words of what was sent of it. -/
theorem payload_map {text : Bytes} (hzero : (0 : UInt8) ∉ text) :
    (cstr (payload (ascii "map" ++ (text ++ [0])))).length ≤ text.length ∧
      cutWords (cstr (payload (ascii "map" ++ (text ++ [0])))) = cutWords text := by
  have hbehind : (ascii "map" ++ (text ++ [0])).drop 3 = text ++ [0] := List.drop_left' rfl
  rw [payload, hbehind, announced_zero]
  cases hnew : announced text with
  | none =>
      rw [if_neg (by decide), cstr_append_zero hzero]
      exact ⟨Nat.le_refl _, rfl⟩
  | some n =>
      obtain ⟨-, a, b, c, rest, rfl, -⟩ := announced_le hnew
      have hrest : (0 : UInt8) ∉ rest := fun hmem => hzero (by simp [hmem])
      have hdrop : (ascii "map" ++ (a :: b :: c :: rest ++ [0])).drop headerLen = rest ++ [0] := rfl
      rw [if_pos (by rfl), hdrop, cstr_append_zero hrest]
      refine ⟨by simp only [List.length_cons]; omega, ?_⟩
      rw [cutWords, cutWords, ← runs_announced hnew]
      rfl

/-- A text that ends early begins with the same runs. -/
theorem runs_cstr (text : Bytes) : runs isAlpha (cstr text) <+: runs isAlpha text := by
  by_cases hzero : (0 : UInt8) ∈ text
  · obtain ⟨front, rest, rfl, hfront⟩ := List.eq_append_cons_of_mem hzero
    rw [cstr_append_zero hfront, runs_append_cons front rest (by rfl)]
    exact List.prefix_append _ _
  · rw [cstr_eq_self hzero]

/-- What is sent of a chunk has the runs it has up to its first zero byte. -/
theorem runs_sent_cstr {chunk : Bytes} (h : Chunk chunk) :
    runs isAlpha (sent (cstr chunk)) = runs isAlpha (cstr chunk) := by
  have hlen := h.length
  have hmax : chunkMaxSize = 1497 := rfl
  by_cases hroom : (cstr chunk).length ≤ 1496
  · rw [sent_eq_self hroom]
  · have hfront : cstr chunk <+: chunk := List.takeWhile_prefix _
    have hle := hfront.length_le
    rw [hfront.eq_of_length (by omega), runs_sent h]

/-- **One map exchange** brings tokens; from a chunk of whole words, none more often than in it. -/
theorem request_map_in (zmq : ZmqRecv) (memory : Memory) (chunk : Bytes) :
    ∃ ts : List (Bytes × ℤ), (∀ t ∈ ts, Token t ∧ (mapEntry t).length ≤ payloadMax) ∧
      request (handleIn zmq memory) (mapFrame chunk) = .returns (ts.flatMap mapEntry) ∧
      (Chunk chunk → ∀ w, tally ts w ≤ (words chunk).count w) := by
  have hzero := zero_notMem_sent (zero_notMem_cstr chunk)
  have hsent := sent_length (cstr chunk)
  have hruns := @runs_sent_cstr chunk
  have hframe : mapFrame chunk = ascii "map" ++ (sent (cstr chunk) ++ [0]) := by
    rw [mapFrame, ← frame_cstr, frame_eq rfl (zero_notMem_cstr chunk)]
  rw [hframe]
  generalize sent (cstr chunk) = text at hzero hsent hruns
  obtain ⟨hpayload, hwords⟩ := payload_map hzero
  have hkind : kind (ascii "map" ++ (text ++ [0])) = .map := by
    have htake : (ascii "map" ++ (text ++ [0])).take 3 = ascii "map" := List.take_left' rfl
    rw [kind, htake]
    rfl
  obtain ⟨ts, hts, hreply, hle, htally⟩ := mapReplyIn_tokens memory (Nat.le_trans hpayload hsent)
    (limit (ascii "map" ++ (text ++ [0])))
  have hanswer : answerText memory (ascii "map" ++ (text ++ [0])) = ts.flatMap mapEntry := by
    rw [answerText, hkind]
    exact hreply
  have hshort : (ascii "map" ++ (text ++ [0])).length < recvBufferSize := by
    have hsize : recvBufferSize = 2048 := rfl
    have hmap : (ascii "map").length = 3 := rfl
    rw [List.length_append, List.length_append, List.length_singleton, hmap]
    omega
  have hmax : maxMsgLen = 1500 := rfl
  refine ⟨ts, hts, ?_, ?_⟩
  · rw [← hanswer]
    exact request_answer zmq memory hshort (by rw [hanswer]; omega)
  · intro h w
    have hbegins := runs_cstr chunk
    have hcut : cutWords text = words (cstr chunk) := by
      have hshorter : ShortRuns text := by
        intro r hr
        rw [hruns h] at hr
        exact h.short r (hbegins.subset hr)
      rw [cutWords_eq hshorter, words, hruns h, words]
    have hcount : (words (cstr chunk)).count w ≤ (words chunk).count w :=
      ((hbegins.sublist).map lower).count_le w
    have hw := htally w
    rw [hwords, hcut] at hw
    omega

/-- **One reduce exchange** brings tokens, with no more of a word than was sent. -/
theorem request_reduce_in (zmq : ZmqRecv) (memory : Memory) {ts : List (Bytes × ℤ)} (hts : ∀ t ∈ ts, Token t)
    (hroom : (ts.flatMap mapEntry).length ≤ payloadMax) :
    ∃ rs : List (Bytes × ℤ), (∀ r ∈ rs, Token r) ∧
      request (handleIn zmq memory) (frame "red" (ts.flatMap mapEntry)) = .returns (rs.flatMap reduceEntry) ∧
      ∀ w, tally rs w ≤ tally ts w := by
  have hzero := zero_notMem_map hts
  have hpayload : payloadMax = 1493 := rfl
  have hframe : frame "red" (ts.flatMap mapEntry) = ascii "red" ++ (ts.flatMap mapEntry ++ [0]) := by
    rw [frame_eq rfl hzero, sent_eq_self (by omega)]
  have hbehind : (ascii "red" ++ (ts.flatMap mapEntry ++ [0])).drop 3 = ts.flatMap mapEntry ++ [0] :=
    List.drop_left' rfl
  have hplain : announced (ts.flatMap mapEntry) = none := by
    cases hnew : announced (ts.flatMap mapEntry) with
    | none => rfl
    | some n =>
        -- a letter comes first, which is no digit
        obtain ⟨-, a, b, c, rest, htext, ha, -⟩ := announced_le hnew
        have hletter := map_head? hts a (by rw [htext]; rfl)
        rw [not_isAlpha_of_isDigit ha] at hletter
        exact absurd hletter Bool.false_ne_true
  have hkind : kind (ascii "red" ++ (ts.flatMap mapEntry ++ [0])) = .red := by
    have htake : (ascii "red" ++ (ts.flatMap mapEntry ++ [0])).take 3 = ascii "red" := List.take_left' rfl
    rw [kind, htake]
    rfl
  have hsays : payload (ascii "red" ++ (ts.flatMap mapEntry ++ [0])) = ts.flatMap mapEntry ++ [0] := by
    rw [payload, hbehind, announced_zero, hplain]
    rfl
  obtain ⟨rs, hrs, hreply, hle, htally⟩ := reduceReplyIn_tokens memory hts hroom
    (limit (ascii "red" ++ (ts.flatMap mapEntry ++ [0])))
  have hanswer : answerText memory (ascii "red" ++ (ts.flatMap mapEntry ++ [0])) = rs.flatMap reduceEntry := by
    rw [answerText, hkind, hsays]
    show (reduceReplyIn memory (ts.flatMap mapEntry ++ 0 :: []) _).getD [] = _
    rw [reduceReplyIn_front]
    exact hreply
  have hshort : (ascii "red" ++ (ts.flatMap mapEntry ++ [0])).length < recvBufferSize := by
    have hsize : recvBufferSize = 2048 := rfl
    have hred : (ascii "red").length = 3 := rfl
    rw [List.length_append, List.length_append, List.length_singleton, hred]
    omega
  have hmax : maxMsgLen = 1500 := rfl
  refine ⟨rs, hrs, ?_, htally⟩
  rw [hframe, ← hanswer]
  exact request_answer zmq memory hshort (by rw [hanswer]; omega)

/-! ### The whole program -/

/-- The distributor, when each exchange has a worker of its own: modulo zero the number of the next
one is never turned back. -/
def distributeIn (exchange : Nat → Bytes → Outcome Reply) (file : Bytes) : Outcome Bytes := do
  let mapResults ← mapPhase exchange 0 0 (chunks file)
  let reduceResults ← reducePhase exchange 0 (mapResults.length + 1) (chunks file).length mapResults
  return combineAndPrint reduceResults

section Program

variable (zmq : ZmqRecv) (memory : Nat → Memory)

/-- **The map phase**, whatever each exchange finds. -/
theorem mapPhase_in (cs : List Bytes) : ∀ k, ∃ ts : List (Bytes × ℤ),
    (∀ t ∈ ts, Token t ∧ (mapEntry t).length ≤ payloadMax) ∧
      mapPhase (fun k => handleIn zmq (memory k)) 0 k cs = .returns (ts.flatMap mapEntry) ∧
      ((∀ c ∈ cs, Chunk c) → ∀ w, tally ts w ≤ (cs.flatMap words).count w) := by
  induction cs with
  | nil => exact fun k => ⟨[], fun t ht => absurd ht List.not_mem_nil, rfl, fun _ w => Int.le_refl _⟩
  | cons c cs ih =>
      intro k
      obtain ⟨ts, hts, hreply, htally⟩ := request_map_in zmq (memory k) c
      obtain ⟨us, hus, hrest, htally'⟩ := ih (k + 1)
      refine ⟨ts ++ us, ?_, ?_, ?_⟩
      · intro t ht
        rcases List.mem_append.mp ht with ht | ht
        · exact hts t ht
        · exact hus t ht
      · rw [mapPhase, hreply, returns_bind, Nat.mod_zero, hrest, returns_bind, List.flatMap_append]
        rfl
      · intro hcs w
        have hw := htally (hcs c (List.mem_cons_self ..)) w
        have hw' := htally' (fun d hd => hcs d (List.mem_cons_of_mem _ hd)) w
        rw [tally_append, List.flatMap_cons, List.count_append, Nat.cast_add]
        omega

/-- **The reduce requests**, whatever each exchange finds. -/
theorem reduceAll_in {groups : List (List (Bytes × ℤ))} (hts : ∀ t ∈ groups.flatten, Token t)
    (hroom : ∀ g ∈ groups, (g.flatMap mapEntry).length ≤ payloadMax) : ∀ k, ∃ rs : List (Bytes × ℤ),
    (∀ r ∈ rs, Token r) ∧ reduceAll (fun k => handleIn zmq (memory k)) 0 k (groups.map fun g => g.flatMap mapEntry)
        = .returns (rs.flatMap reduceEntry) ∧ ∀ w, tally rs w ≤ tally groups.flatten w := by
  induction groups with
  | nil => exact fun k => ⟨[], fun r hr => absurd hr List.not_mem_nil, rfl, fun w => Int.le_refl _⟩
  | cons g groups ih =>
      intro k
      rw [List.flatten_cons] at hts
      obtain ⟨rs, hrs, hreply, htally⟩ := request_reduce_in zmq (memory k)
        (fun t ht => hts t (List.mem_append_left _ ht)) (hroom g (List.mem_cons_self ..))
      obtain ⟨qs, hqs, hrest, htally'⟩ := ih (fun t ht => hts t (List.mem_append_right _ ht))
        (fun g' hg' => hroom g' (List.mem_cons_of_mem _ hg')) (k + 1)
      refine ⟨rs ++ qs, ?_, ?_, ?_⟩
      · intro r hr
        rcases List.mem_append.mp hr with hr | hr
        · exact hrs r hr
        · exact hqs r hr
      · rw [List.map_cons, reduceAll, hreply, returns_bind, Nat.mod_zero, hrest, returns_bind, List.flatMap_append]
        rfl
      · intro w
        have hw := htally w
        have hw' := htally' w
        rw [tally_append, List.flatten_cons, tally_append]
        omega

/-- What is printed for some tokens. -/
theorem combine_sound {rs : List (Bytes × ℤ)} (hrs : ∀ r ∈ rs, Token r) :
    combineAndPrint (rs.flatMap reduceEntry) = [] ∨ ∃ rows : List Entry,
      combineAndPrint (rs.flatMap reduceEntry) = ascii "word,frequency\n" ++ rows.flatMap row ∧
        rows.Pairwise Before ∧ ∀ w n, Entry.mk w n ∈ rows ↔ tally rs w = n ∧ 0 < n := by
  by_cases hne : rs = []
  · subst hne
    exact Or.inl rfl
  · exact Or.inr (combine_tokens hrs hne (zero_notMem_reduce hrs))

/-! ### Enough memory -/

/-- Nothing that is asked for is refused. -/
structure Memory.Suffices (memory : Memory) : Prop where
  create : memory.create = true
  node : ∀ i, memory.node i = true
  malloc : ∀ n ≤ maxMsgLen, memory.malloc.gives n = true

theorem Memory.Suffices.allocated {memory : Memory} (h : memory.Suffices) {n : Nat} (hn : n ≤ maxMsgLen)
    (text : Bytes) : allocated memory.malloc n text = allocated .plenty n text := by
  have hmax : maxMsgLen = 1500 := rfl
  rw [allocated_plenty hn]
  refine if_pos (h.malloc _ ?_)
  split
  · omega
  · exact hn

/-- **Then every answer is the answer with plenty of memory.** -/
theorem Memory.Suffices.answerText {memory : Memory} (h : memory.Suffices) (msg : Bytes) :
    answerText memory msg = WordCount.answerText .plenty msg := by
  have hlimit := (limit_bounds msg).2
  have hnode : memory.node = Memory.plenty.node := funext h.node
  have hcreate : memory.create = Memory.plenty.create := h.create
  rw [WordCount.answerText, WordCount.answerText]
  cases kind msg with
  | map => simp only [mapReplyIn, hnode, hcreate, h.allocated hlimit, Memory.plenty]
  | red => simp only [reduceReplyIn, hnode, hcreate, h.allocated hlimit, Memory.plenty]
  | rip => rfl
  | unknown => rfl

theorem frame_length_le (type : String) (text : Bytes) : (frame type text).length ≤ maxMsgLen := by
  have hmax : maxMsgLen = 1500 := rfl
  rw [frame, List.length_append, List.length_take, List.length_singleton]
  omega

theorem request_suffices {memory : Memory} (h : memory.Suffices) (type : String) (text : Bytes) :
    request (handleIn zmq memory) (frame type text) = request handle (frame type text) := by
  have hlen := frame_length_le type text
  have hmax : maxMsgLen = 1500 := rfl
  have hsize : recvBufferSize = 2048 := rfl
  have hshort : (frame type text).length < recvBufferSize := by omega
  rw [request, request, handleIn_eq zmq memory hshort, handle_eq hshort, h.answerText]

theorem mapPhase_suffices (h : ∀ k, (memory k).Suffices) (workerCount : Nat) (cs : List Bytes) : ∀ k workerIdx,
    mapPhase (fun k => handleIn zmq (memory k)) 0 k cs = mapPhase (fun _ => handle) workerCount workerIdx cs := by
  induction cs with
  | nil => intro k workerIdx; rfl
  | cons c cs ih =>
      intro k workerIdx
      rw [mapPhase, mapPhase, mapFrame, request_suffices zmq (h k), ih _ ((workerIdx + 1) % workerCount)]

theorem reducePhase_suffices (h : ∀ k, (memory k).Suffices) (workerCount turns : Nat) : ∀ k workerIdx data,
    reducePhase (fun k => handleIn zmq (memory k)) 0 turns k data
      = reducePhase (fun _ => handle) workerCount turns workerIdx data := by
  induction turns with
  | zero => intro k workerIdx data; rfl
  | succ turns ih =>
      intro k workerIdx data
      rw [reducePhase, reducePhase, request_suffices zmq (h k), ih _ ((workerIdx + 1) % workerCount)]

/-- **The program comes to its end** with tokens, and with no more of a word than the file has. -/
theorem distributeIn_tokens (file : Bytes) : ∃ rs : List (Bytes × ℤ), (∀ r ∈ rs, Token r) ∧
    distributeIn (fun k => handleIn zmq (memory k)) file = .returns (combineAndPrint (rs.flatMap reduceEntry)) ∧
    (ShortRuns file → ∀ w, tally rs w ≤ (words file).count w) := by
  obtain ⟨ts, hts, hmap, htally⟩ := mapPhase_in zmq memory (chunks file) 0
  have htokens : ∀ t ∈ ts, Token t := fun t ht => (hts t ht).1
  obtain ⟨groups, rfl, hgroups, hpayloads⟩ := payloads_tokens htokens fun t ht => (hts t ht).2
  obtain ⟨rs, hrs, hreduce, htally'⟩ := reduceAll_in zmq memory htokens (fun g hg => (hgroups g hg).2)
    (chunks file).length
  have hturns := hpayloads _ (Nat.lt_succ_of_le (length_le_flatMap fun t ht => mapEntry_pos (htokens t ht)))
  refine ⟨rs, hrs, ?_, ?_⟩
  · rw [distributeIn, hmap, returns_bind, reducePhase_payloads _ _ _ hturns, hreduce]
    rfl
  · intro hshort w
    obtain ⟨-, hchunks, hruns⟩ := chunks_runs hshort
    have hwords : words file = (chunks file).flatMap words := by
      rw [words, hruns, List.map_flatMap]
      rfl
    rw [hwords]
    exact Int.le_trans (htally' w) (htally hchunks w)

/-- **A shortage costs counts, and nothing else.**  Whatever is in the file, and whatever memory
each exchange finds, the program comes to its end, with no buffer overrun on either side.  It
prints nothing, or a table in order, with each word once; and if the words of the file fit the
word buffer, with no more of a word than the file has.  With memory enough for all exchanges it
prints what it always prints. -/
theorem shortage_table (file : Bytes) :
    (∃ printed, distributeIn (fun k => handleIn zmq (memory k)) file = .returns printed ∧
      (printed = [] ∨ ∃ rows : List Entry, printed = ascii "word,frequency\n" ++ rows.flatMap row ∧
        rows.Pairwise Before ∧ (∀ w n n', Entry.mk w n ∈ rows → Entry.mk w n' ∈ rows → n = n') ∧
        (ShortRuns file → ∀ w n, Entry.mk w n ∈ rows → 0 < n ∧ n ≤ (words file).count w))) ∧
      ((∀ k, (memory k).Suffices) → ∀ workerCount,
        distributeIn (fun k => handleIn zmq (memory k)) file = distribute (fun _ => handle) workerCount file) := by
  obtain ⟨rs, hrs, hprinted, hcounts⟩ := distributeIn_tokens zmq memory file
  constructor
  · refine ⟨_, hprinted, (combine_sound hrs).imp_right ?_⟩
    rintro ⟨rows, hprint, horder, hmem⟩
    refine ⟨rows, hprint, horder, ?_, ?_⟩
    · intro w n n' hn hn'
      rw [← ((hmem w n).mp hn).1, ← ((hmem w n').mp hn').1]
    · intro hshort w n hn
      obtain ⟨hrow, hpos⟩ := (hmem w n).mp hn
      have hle := hcounts hshort w
      omega
  · intro hsuffices workerCount
    simp only [distributeIn, distribute, mapPhase_suffices zmq memory hsuffices workerCount (chunks file) 0 0,
      reducePhase_suffices zmq memory hsuffices workerCount _ (chunks file).length 0]

end Program

/-- In the first exchange there is no node for the second word. -/
def oneNode (k : Nat) : Memory := if k = 0 then { Memory.plenty with node := fun i => decide (i < 3) } else .plenty

theorem shortage_table_one :
    distributeIn (fun k => handleIn .truncating (oneNode k)) (ascii "to be to")
        = .returns (ascii "word,frequency\nto,2\n") ∧
      ∃ printed, distributeIn (fun k => handleIn .truncating (oneNode k)) (ascii "to be to") = .returns printed ∧
        (printed = [] ∨ ∃ rows : List Entry, printed = ascii "word,frequency\n" ++ rows.flatMap row ∧
          rows.Pairwise Before ∧ (∀ w n n', Entry.mk w n ∈ rows → Entry.mk w n' ∈ rows → n = n') ∧
          (ShortRuns (ascii "to be to") →
            ∀ w n, Entry.mk w n ∈ rows → 0 < n ∧ n ≤ (words (ascii "to be to")).count w)) :=
  ⟨by decide +kernel, (shortage_table .truncating oneNode (ascii "to be to")).1⟩

end ChordDht.WordCount
