/-
What the parser makes of a request that is not all there.

The buffer holds the first `k` bytes of a request and whatever stands behind them.
`parseRequest_partial` says that the parser asks for more and leaves the memory alone,
unless the head is torn between a carriage return and its line feed: then `memstr`
does not come back.  `parseRequest_crowded` is about requests with more headers than
the array holds: no parse of one returns.
-/
import ChordDht.Chord.Wire

namespace ChordDht.Chord

namespace ClientRequest

variable (r : ClientRequest)

/-! ### The head is all there -/

/-- With the payload still on its way the parser waits, if it reads a length that is not there. -/
theorem parseRequest_headed {j : Nat} {tail : Bytes} (hheaders : r.headers.length ≤ httpMaxHeaders)
    (hmore : ∀ k, SaidLength r.headers (crlf ++ (r.payload.take j ++ tail)) k → j < k) :
    ∃ parse, parseRequest (r.head ++ (r.payload.take j ++ tail)) (r.head.length + j) emptyRequest
        = .returns parse ∧ parse.ret = 0 ∧ parse.buffer = r.head ++ (r.payload.take j ++ tail) := by
  obtain ⟨k, hk⟩ := saidLength_exists r.headers (crlf ++ (r.payload.take j ++ tail))
  have hlt := hmore k hk
  rw [RequestText.parseRequest_head r.plain _ (Nat.le_add_right _ _) (by omega),
    RequestText.finishRequest_head, saidLength_iff.mp hk, if_neg (by omega), if_pos (by omega)]
  exact ⟨_, rfl, rfl, rfl⟩

/-! ### The request line is all there -/

/-- The header loop on some whole header lines and the beginning of another line. -/
theorem scanHeaders_cut {hs : List Header} (hplain : HeadersPlain hs)
    (hcount : hs.length ≤ httpMaxHeaders) (pre : Bytes) {part : Bytes} (hpart : (13 : UInt8) ∉ part)
    (tail : Bytes) :
    scanHeaders (pre ++ (headerText hs ++ (part ++ tail)))
        (pre.length + ((headerText hs).length + part.length)) (httpMaxHeaders + 2) pre.length []
      = .returns .incomplete := by
  have hfuel : httpMaxHeaders + 2 = (httpMaxHeaders + 1 - hs.length + 1) + hs.length := by omega
  have hnone : memstr ((pre ++ (headerText hs ++ (part ++ tail))).drop
        (pre.length + (headerText hs).length))
      (pre.length + ((headerText hs).length + part.length) - (pre.length + (headerText hs).length)) crlf
        = .returns none := by
    have hn : pre.length + ((headerText hs).length + part.length)
        - (pre.length + (headerText hs).length) = part.length := by omega
    rw [hn, ← List.append_assoc, ← List.length_append, List.drop_left]
    exact memstr_none (by rw [List.take_left]; exact hpart)
  have hcheck : ¬ httpMaxHeaders < ([] ++ headerSpans pre.length hs).length := by
    rw [List.nil_append, headerSpans_length]
    omega
  rw [hfuel, scanHeaders_lines hs hplain pre (part ++ tail) _ _ [] (by omega)
    (by rw [List.length_nil]; omega), scanHeaders, hnone]
  simp only [Outcome.returns_bind, reduceCtorEq, if_false, hcheck]
  rfl

/-- The header loop on some whole header lines and a torn one. -/
theorem scanHeaders_torn {hs : List Header} (hplain : HeadersPlain hs)
    (hcount : hs.length ≤ httpMaxHeaders) (pre : Bytes) {line : Bytes} (hline : (13 : UInt8) ∉ line)
    {tail : Bytes} (htail : tail.headD 0 ≠ 10) :
    scanHeaders (pre ++ (headerText hs ++ (line ++ 13 :: tail)))
        (pre.length + ((headerText hs).length + (line.length + 1))) (httpMaxHeaders + 2) pre.length []
      = .diverges := by
  have hfuel : httpMaxHeaders + 2 = (httpMaxHeaders + 1 - hs.length + 1) + hs.length := by omega
  have hstuck : memstr ((pre ++ (headerText hs ++ (line ++ 13 :: tail))).drop
        (pre.length + (headerText hs).length))
      (pre.length + ((headerText hs).length + (line.length + 1))
        - (pre.length + (headerText hs).length)) crlf = .diverges := by
    rw [← List.append_assoc, ← List.length_append, List.drop_left]
    exact memstr_torn hline (by rw [List.length_append]; omega) htail
  rw [hfuel, scanHeaders_lines hs hplain pre (line ++ 13 :: tail) _ _ [] (by omega)
    (by rw [List.length_nil]; omega), scanHeaders, hstuck]
  rfl

/-- Lines of the head in front of another one: none, or the request line and headers. -/
theorem lines_split {full more : List Bytes} {line : Bytes} (h : r.lines = full ++ line :: more) :
    (full = [] ∧ line = r.requestLine) ∨
      ∃ hs, hs <+: r.headers ∧ unlines full = (r.requestLine ++ crlf) ++ headerText hs := by
  cases full with
  | nil =>
      rw [RequestText.lines, List.nil_append, List.cons.injEq] at h
      exact Or.inl ⟨rfl, h.1.symm⟩
  | cons first full =>
      rw [RequestText.lines, List.cons_append, List.cons.injEq] at h
      obtain ⟨rfl, h⟩ := h
      have hlen := congrArg List.length h
      simp only [List.length_append, List.length_map, List.length_cons, List.length_nil] at hlen
      have htake := congrArg (List.take full.length) h
      rw [List.take_left, List.take_append_of_le_length (by rw [List.length_map]; omega),
        ← List.map_take] at htake
      refine Or.inr ⟨r.headers.take full.length, List.take_prefix _ _, ?_⟩
      rw [unlines_cons, headerText, htake]

theorem headersPlain_prefix {hs : List Header} (h : hs <+: r.headers) : HeadersPlain hs :=
  fun header hh => r.plain.headers header (h.subset hh)

/-- With part of the head the parser waits, or never comes back. -/
theorem parseRequest_cut {k : Nat} (hk : k < r.head.length) {tail : Bytes} (htail : tail.headD 0 ≠ 10)
    (hheaders : r.headers.length ≤ httpMaxHeaders) :
    (¬ Torn r.head k → parseRequest (r.head.take k ++ tail) k emptyRequest
        = .returns ⟨0, r.head.take k ++ tail, emptyRequest⟩) ∧
      (Torn r.head k → parseRequest (r.head.take k ++ tail) k emptyRequest = .diverges) := by
  have hlen : (r.head.take k).length = k := by rw [List.length_take]; omega
  obtain ⟨full, line, more, hsplit, hcut⟩ := cut_unlines r.lines_clean hk
  have hline : (13 : UInt8) ∉ line := r.lines_clean line (by rw [hsplit]; simp)
  rw [← RequestText.head] at hcut
  rcases hcut with ⟨hnot, j, hj, htext⟩ | ⟨htorn, htext⟩
  · refine ⟨fun _ => ?_, fun hc => absurd hc hnot⟩
    have hpart : (13 : UInt8) ∉ line.take j := fun hc => hline (List.mem_of_mem_take hc)
    rcases r.lines_split hsplit with ⟨rfl, rfl⟩ | ⟨hs, hprefix, hfull⟩
    · rw [unlines_nil, List.nil_append] at htext
      have hnone : memstr (r.head.take k ++ tail) k crlf = .returns none :=
        memstr_none (by rw [List.take_left' hlen, htext]; exact hpart)
      unfold parseRequest
      rw [hnone]
      rfl
    · rw [hfull] at htext
      have hcount := hprefix.length_le
      have hk' : k = (r.requestLine ++ crlf).length + ((headerText hs).length + (line.take j).length) := by
        rw [← hlen, htext, List.length_append, List.length_append]
        omega
      have hscan := scanHeaders_cut (r.headersPlain_prefix hprefix) (by omega) (r.requestLine ++ crlf)
        hpart tail
      have hparse := r.parseRequest_line (headerText hs ++ (line.take j ++ tail)) (n := k)
        (by rw [hk', r.requestLine_crlf_length]; omega)
      rw [← hk', r.requestLine_crlf_length] at hscan
      rw [hscan] at hparse
      rw [htext, List.append_assoc, List.append_assoc]
      exact hparse
  · refine ⟨fun hc => absurd htorn hc, fun _ => ?_⟩
    rcases r.lines_split hsplit with ⟨rfl, rfl⟩ | ⟨hs, hprefix, hfull⟩
    · rw [unlines_nil, List.nil_append] at htext
      have hstuck : memstr (r.head.take k ++ tail) k crlf = .diverges := by
        rw [htext, List.append_assoc, List.singleton_append]
        refine memstr_torn hline ?_ htail
        have hk' := congrArg List.length htext
        rw [hlen, List.length_append, List.length_singleton] at hk'
        omega
      unfold parseRequest
      rw [hstuck]
      rfl
    · rw [hfull] at htext
      have hcount := hprefix.length_le
      have hk' : k = (r.requestLine ++ crlf).length + ((headerText hs).length + (line.length + 1)) := by
        rw [← hlen, htext]
        simp only [List.length_append, List.length_singleton]
        omega
      have hscan := scanHeaders_torn (r.headersPlain_prefix hprefix) (by omega)
        (r.requestLine ++ crlf) hline htail
      have hparse := r.parseRequest_line (headerText hs ++ (line ++ 13 :: tail)) (n := k)
        (by rw [hk', r.requestLine_crlf_length]; omega)
      rw [← hk', r.requestLine_crlf_length] at hscan
      rw [hscan] at hparse
      have hmem : r.head.take k ++ tail
          = r.requestLine ++ crlf ++ (headerText hs ++ (line ++ 13 :: tail)) := by
        rw [htext]
        simp
      rw [hmem]
      exact hparse

/-- With `k` bytes of the request there, the number that is read is more than what is there of
the payload. -/
def AwaitsMore (k : Nat) (tail : Bytes) : Prop :=
  ∀ j, k = r.head.length + j → ∀ n, SaidLength r.headers (crlf ++ (r.payload.take j ++ tail)) n → j < n

/-- **Part of a request**: the parser waits and changes nothing, unless the head is torn. -/
theorem parseRequest_partial {k : Nat} (hk : k < r.wire.length) {tail : Bytes}
    (htail : tail.headD 0 ≠ 10) (hheaders : r.headers.length ≤ httpMaxHeaders) (hmore : r.AwaitsMore k tail) :
    (¬ Torn r.head k → ∃ parse, parseRequest (r.wire.take k ++ tail) k emptyRequest = .returns parse ∧
        parse.ret = 0 ∧ parse.buffer = r.wire.take k ++ tail) ∧
      (Torn r.head k → parseRequest (r.wire.take k ++ tail) k emptyRequest = .diverges) := by
  by_cases hhead : k < r.head.length
  · have htake : r.wire.take k = r.head.take k := by
      rw [RequestText.wire, List.take_append_of_le_length (by omega)]
    obtain ⟨hwait, hstuck⟩ := r.parseRequest_cut hhead htail hheaders
    rw [htake]
    exact ⟨fun hnot => ⟨_, hwait hnot, rfl, rfl⟩, hstuck⟩
  · obtain ⟨j, rfl⟩ : ∃ j, k = r.head.length + j := ⟨k - r.head.length, by omega⟩
    have hlonger := hmore j rfl
    have htake : r.wire.take (r.head.length + j) = r.head ++ r.payload.take j := by
      rw [RequestText.wire, List.take_length_add_append]
    rw [htake, List.append_assoc]
    refine ⟨fun _ => r.parseRequest_headed hheaders hlonger, fun hc => ?_⟩
    exact absurd hc.2.1 (by omega)

/-! ### More headers than the array holds -/

/-- No parse of a request with too many headers returns. -/
theorem parseRequest_crowded (rest : Bytes) {n : Nat} (hn : r.head.length ≤ n)
    (hheaders : httpMaxHeaders < r.headers.length) (parse : Parse) :
    parseRequest (r.head ++ rest) n emptyRequest ≠ .returns parse := by
  have hhead := r.head_length
  have hline := r.parseRequest_line (headerText r.headers ++ (crlf ++ rest)) (n := n) (by omega)
  rw [← r.head_append] at hline
  by_cases hone : r.headers.length = httpMaxHeaders + 1
  · -- one too many gets through the check and past the end of the array
    rw [RequestText.parseRequest_head r.plain _ (by omega) (by omega), RequestText.finishRequest_head,
      if_pos hheaders]
    intro hc
    cases hc
  · -- with two too many the check ends the process
    obtain ⟨before, h, after, hsplit, hcount⟩ : ∃ before h after,
        r.headers = before ++ h :: after ∧ before.length = httpMaxHeaders + 1 := by
      have hne : r.headers.drop (httpMaxHeaders + 1) ≠ [] := by
        rw [← List.length_pos_iff, List.length_drop]
        omega
      obtain ⟨h, after, hdrop⟩ := List.exists_cons_of_ne_nil hne
      refine ⟨r.headers.take (httpMaxHeaders + 1), h, after, ?_, ?_⟩
      · rw [← hdrop, List.take_append_drop]
      · rw [List.length_take]
        omega
    have hprefix : before <+: r.headers := ⟨h :: after, hsplit.symm⟩
    have hmem : h ∈ r.headers := by rw [hsplit]; simp
    have htext : headerText r.headers ++ (crlf ++ rest)
        = headerText before ++ (h.line ++ crlf ++ (headerText after ++ (crlf ++ rest))) := by
      rw [hsplit, headerText, List.map_append, unlines_append, ← headerText, List.map_cons, unlines_cons,
        ← headerText]
      simp only [List.append_assoc]
    have htotal : (headerText r.headers).length
        = (headerText before).length + (h.line.length + 2 + (headerText after).length) := by
      rw [hsplit, headerText, List.map_append, unlines_append, ← headerText, List.map_cons, unlines_cons,
        ← headerText, List.length_append, List.length_append, List.length_append, crlf_length]
    have hpos : 0 < h.line.length := by rw [h.line_length]; omega
    have hstart := r.requestLine_crlf_length
    have hfound : memstr (((r.requestLine ++ crlf) ++ (headerText before ++ (h.line ++ crlf ++
          (headerText after ++ (crlf ++ rest))))).drop
            ((r.requestLine ++ crlf).length + (headerText before).length))
        (n - ((r.requestLine ++ crlf).length + (headerText before).length)) crlf
          = .returns (some h.line.length) := by
      rw [← List.append_assoc (r.requestLine ++ crlf), ← List.length_append, List.drop_left]
      refine memstr_line (r.plain.headers.line hmem) ?_
      rw [List.length_append, hstart]
      omega
    have hlines := scanHeaders_lines before (r.headersPlain_prefix hprefix) (r.requestLine ++ crlf)
      (h.line ++ crlf ++ (headerText after ++ (crlf ++ rest))) n 1 []
      (by rw [hstart]; omega) (by rw [List.length_nil]; omega)
    have hcheck : httpMaxHeaders < ([] ++ headerSpans (r.requestLine ++ crlf).length before).length := by
      rw [List.nil_append, headerSpans_length]
      omega
    have hne : ¬ some h.line.length = some 0 := by
      intro hc
      injection hc with hc
      omega
    have hexit : scanHeaders (r.head ++ rest) n (httpMaxHeaders + 2) r.headerStart [] = .exits := by
      have hfuel : httpMaxHeaders + 2 = 1 + before.length := by omega
      rw [r.head_append, htext, hfuel, ← hstart, hlines, scanHeaders, hfound]
      simp only [Outcome.returns_bind, hne, if_false, hcheck, if_true]
    rw [hline, hexit]
    intro hc
    cases hc

end ClientRequest

end ChordDht.Chord
