/-
What the parser makes of any bytes.

The buffer holds what was received, and zero bytes behind it.  Any bytes are a request line
and header lines, as far as they can be read, and then a `Stop`: part of a line, a carriage
return that has lost its line feed, a line that is no header, or the empty line and the
payload.  The parser reads the lines one by one and does what the stop says, as long as
the lines are no more than its array holds.
-/
import ChordDht.Chord.Wire

namespace ChordDht.Chord

/-- The bytes that were received, and the zero bytes behind them. -/
def received (text : Bytes) (room : Nat) : Bytes := text ++ List.replicate room 0

/-- The zero bytes are no part of a number. -/
theorem says_received (text : Bytes) (room n : Nat) : Says (received text room) n ↔ Says text n := by
  cases room with
  | zero => rw [received, List.replicate_zero, List.append_nil]
  | succ room => rw [says_iff, says_iff, received, List.replicate_succ, strtoul_zero]

/-- The zero bytes behind what was received do not change the length that is said. -/
theorem saidLength_received (hs : List Header) (payload : Bytes) (room n : Nat) :
    SaidLength hs (crlf ++ received payload room) n ↔ SaidLength hs (crlf ++ payload) n := by
  have hroom : crlf ++ received payload room = received (crlf ++ payload) room := by
    simp only [received, List.append_assoc]
  rw [hroom]
  generalize crlf ++ payload = rest
  unfold SaidLength
  induction hs with
  | nil => rfl
  | cons h hs ih =>
      rw [lengthText, lengthText]
      cases h.announces with
      | true =>
          have hmem : h.value ++ crlf ++ (headerText hs ++ received rest room)
              = received (h.value ++ crlf ++ (headerText hs ++ rest)) room := by
            simp only [received, List.append_assoc]
          simp only [if_true, hmem]
          exact says_received _ room n
      | false => exact ih

/-- What stands behind the header lines that can be read. -/
inductive Stop where
  | waiting (part : Bytes)
  | torn (part tail : Bytes)
  | malformed (line rest : Bytes)
  | done (payload : Bytes)
  deriving DecidableEq, Repr

namespace Stop

def text : Stop → Bytes
  | waiting part => part
  | torn part tail => part ++ 13 :: tail
  | malformed line rest => line ++ crlf ++ rest
  | done payload => crlf ++ payload

/-- It is what its name says. -/
def Fits : Stop → Prop
  | waiting part => (13 : UInt8) ∉ part
  | torn part tail => (13 : UInt8) ∉ part ∧ tail.headD 0 ≠ 10
  | malformed line _ => (13 : UInt8) ∉ line ∧ (58 : UInt8) ∉ line ∧ line ≠ []
  | done _ => True

/-- Where the next line ends, as `memstr` answers. -/
def lineEnd : Stop → Outcome (Option Nat)
  | waiting _ => .returns none
  | torn _ _ => .diverges
  | malformed line _ => .returns (some line.length)
  | done _ => .returns (some 0)

/-- How the header loop ends there, with the headers read so far. -/
def scan (headers : List (NonString × NonString)) (pos : Nat) : Stop → Outcome HeaderScan
  | waiting _ => .returns .incomplete
  | torn _ _ => .diverges
  | malformed _ _ => .returns .malformed
  | done _ => .returns (.complete headers (pos + 2))

end Stop

/-! ### Any bytes have sections -/

theorem sections_exist (text : Bytes) :
    ∃ hs stop, text = headerText hs ++ Stop.text stop ∧ HeadersPlain hs ∧ stop.Fits := by
  induction hn : text.length using Nat.strong_induction_on generalizing text with
  | _ n ih =>
      have hnil : HeadersPlain [] := fun h hh => absurd hh List.not_mem_nil
      rcases line_cases text with hwait | ⟨part, tail, htext, hpart, htail⟩ | ⟨line, rest, htext, hline⟩
      · exact ⟨[], .waiting text, rfl, hnil, hwait⟩
      · exact ⟨[], .torn part tail, htext, hnil, hpart, htail⟩
      · by_cases hempty : line = []
        · rw [hempty] at htext
          exact ⟨[], .done rest, htext, hnil, trivial⟩
        · by_cases hcolon : (58 : UInt8) ∈ line
          · obtain ⟨key, value, hsplit, hkey⟩ := List.eq_append_cons_of_mem hcolon
            have hlen : rest.length < n := by
              rw [← hn, htext, List.length_append, List.length_append, crlf_length]
              omega
            obtain ⟨hs, stop, hrest, hplain, hstop⟩ := ih rest.length hlen rest rfl
            refine ⟨⟨key, value⟩ :: hs, stop, ?_, ?_, hstop⟩
            · rw [headerText_cons, Header.line, ← hsplit, htext, hrest, List.append_assoc (line ++ crlf)]
            · intro h hh
              rcases List.mem_cons.mp hh with rfl | hh
              · rw [hsplit, List.mem_append, List.mem_cons, not_or, not_or] at hline
                exact ⟨⟨hkey, hline.1⟩, hline.2.2⟩
              · exact hplain h hh
          · exact ⟨[], .malformed line rest, htext, hnil, hline, hcolon, hempty⟩

/-- A line with two blanks is a request line. -/
theorem requestLine_exists {line : Bytes} (hline : (13 : UInt8) ∉ line) (hblanks : ¬ line.count 32 < 2)
    {hs : List Header} (hplain : HeadersPlain hs) :
    ∃ r : RequestText, r.Plain ∧ r.requestLine = line ∧ r.headers = hs := by
  obtain ⟨method, tail, hsplit, hmethod⟩ :=
    List.eq_append_cons_of_mem (List.count_pos_iff.mp (show 0 < line.count 32 by omega))
  have hcount : line.count 32 = 1 + tail.count 32 := by
    rw [hsplit, List.count_append, List.count_eq_zero.mpr hmethod, List.count_cons_self]
    omega
  obtain ⟨uri, version, hsplit', huri⟩ :=
    List.eq_append_cons_of_mem (List.count_pos_iff.mp (show 0 < tail.count 32 by omega))
  refine ⟨⟨method, uri, version, hs, []⟩, ⟨⟨hmethod, ?_⟩, ⟨huri, ?_⟩, ?_, hplain⟩, ?_, rfl⟩
  · intro hc
    exact hline (by rw [hsplit]; simp [hc])
  · intro hc
    exact hline (by rw [hsplit, hsplit']; simp [hc])
  · intro hc
    exact hline (by rw [hsplit, hsplit']; simp [hc])
  · rw [RequestText.requestLine, hsplit, hsplit']

/-- **Any bytes** are part of a request line, a torn one, a line that is no request line, or a
request line, header lines and a stop. -/
theorem request_cases (text : Bytes) :
    (13 : UInt8) ∉ text ∨
      (∃ part tail, text = part ++ 13 :: tail ∧ (13 : UInt8) ∉ part ∧ tail.headD 0 ≠ 10) ∨
      (∃ line rest, text = line ++ crlf ++ rest ∧ (13 : UInt8) ∉ line ∧ line.count 32 < 2) ∨
      ∃ (r : RequestText) (stop : Stop), r.Plain ∧ stop.Fits ∧
        text = r.requestLine ++ crlf ++ (headerText r.headers ++ stop.text) := by
  rcases line_cases text with hwait | htorn | ⟨line, rest, htext, hline⟩
  · exact Or.inl hwait
  · exact Or.inr (Or.inl htorn)
  · refine Or.inr (Or.inr ?_)
    by_cases hblanks : line.count 32 < 2
    · exact Or.inl ⟨line, rest, htext, hline, hblanks⟩
    · obtain ⟨hs, stop, hrest, hplain, hstop⟩ := sections_exist rest
      obtain ⟨r, hr, hrline, hheaders⟩ := requestLine_exists hline hblanks hplain
      exact Or.inr ⟨r, stop, hr, hstop, by rw [htext, hrest, hrline, hheaders]⟩

/-! ### The header loop -/

theorem headD_zeros {tail : Bytes} (h : tail.headD 0 ≠ 10) (room : Nat) :
    (tail ++ List.replicate room 0).headD 0 ≠ 10 := by
  cases tail with
  | nil => cases room <;> simp [List.replicate_succ]
  | cons b tail => exact h

theorem Stop.found {stop : Stop} (hstop : stop.Fits) (pre : Bytes) (room : Nat) :
    memstr ((pre ++ received stop.text room).drop pre.length) stop.text.length crlf = stop.lineEnd := by
  rw [List.drop_left, received]
  cases stop with
  | waiting part => exact memstr_none (by rw [Stop.text, List.take_left]; exact hstop)
  | torn part tail =>
      rw [Stop.text, List.append_assoc, List.cons_append]
      exact memstr_torn hstop.1 (by simp) (headD_zeros hstop.2 room)
  | malformed line rest =>
      have hpos := List.length_pos_iff.mpr hstop.2.2
      rw [Stop.text, List.append_assoc]
      exact memstr_line hstop.1 (by simp [crlf])
  | done payload =>
      rw [Stop.text, List.append_assoc]
      exact @memstr_line [] (payload ++ List.replicate room 0) _ List.not_mem_nil (by simp [crlf])

/-- A line without a colon is no header. -/
theorem parseHeader_malformed {line : Bytes} (hcolon : (58 : UInt8) ∉ line) (pre rest : Bytes) (room : Nat) :
    parseHeader (pre ++ received (Stop.malformed line rest).text room) pre.length line.length = none := by
  have hnone : memchr (line ++ (crlf ++ (rest ++ List.replicate room 0))) 58 line.length = none :=
    memchr_eq_none (by rw [List.take_left]; exact hcolon)
  unfold parseHeader
  rw [List.drop_left, received, Stop.text, List.append_assoc, List.append_assoc, hnone]

/-- The header loop at the stop. -/
theorem scanHeaders_stop {stop : Stop} (hstop : stop.Fits) (pre : Bytes) (room fuel : Nat)
    {headers : List (NonString × NonString)} (hheaders : headers.length ≤ httpMaxHeaders) :
    scanHeaders (pre ++ received stop.text room) (pre.length + stop.text.length) (fuel + 1) pre.length headers
      = stop.scan headers pre.length := by
  have hn : pre.length + stop.text.length - pre.length = stop.text.length := by omega
  have hcheck : ¬ httpMaxHeaders < headers.length := by omega
  rw [scanHeaders, hn, stop.found hstop]
  cases stop with
  | waiting part => simp only [Stop.lineEnd, Stop.scan, Outcome.returns_bind, reduceCtorEq, if_false, hcheck,
      Outcome.pure_eq]
  | torn part tail => rfl
  | malformed line rest =>
      have hne : ¬ some line.length = some 0 := by
        intro hc
        exact hstop.2.2 (List.length_eq_zero_iff.mp (Option.some.inj hc))
      simp only [Stop.lineEnd, Stop.scan, Outcome.returns_bind, hne, if_false, hcheck,
        parseHeader_malformed hstop.2.1, Outcome.pure_eq]
  | done payload => simp only [Stop.lineEnd, Stop.scan, Outcome.returns_bind, if_true, Outcome.pure_eq, crlf_length]

/-- **The header loop** reads the header lines and does what the stop says. -/
theorem scanHeaders_sections {hs : List Header} {stop : Stop} (hplain : HeadersPlain hs) (hstop : stop.Fits)
    (pre : Bytes) (room : Nat) (hcount : hs.length ≤ httpMaxHeaders) :
    scanHeaders (pre ++ received (headerText hs ++ stop.text) room)
        (pre.length + (headerText hs ++ stop.text).length) (httpMaxHeaders + 2) pre.length []
      = stop.scan (headerSpans pre.length hs) (pre.length + (headerText hs).length) := by
  have hfuel : httpMaxHeaders + 2 = (httpMaxHeaders + 1 - hs.length + 1) + hs.length := by omega
  have hlines := scanHeaders_lines hs hplain pre (received stop.text room)
    (pre.length + (headerText hs ++ stop.text).length) (httpMaxHeaders + 1 - hs.length + 1) []
    (by rw [List.length_append]; omega) (by rw [List.length_nil]; omega)
  have hend := @scanHeaders_stop stop hstop (pre ++ headerText hs) room (httpMaxHeaders + 1 - hs.length)
    (headerSpans pre.length hs) (by rw [headerSpans_length]; exact hcount)
  rw [List.length_append, List.append_assoc, Nat.add_assoc, ← List.length_append] at hend
  have hmem : pre ++ received (headerText hs ++ stop.text) room
      = pre ++ (headerText hs ++ received stop.text room) := by
    rw [received, received, List.append_assoc]
  rw [hfuel, hmem, hlines, List.nil_append]
  exact hend

/-- With one header too many there is nothing to go on to but the empty line. -/
theorem scanHeaders_overfull {hs : List Header} {stop : Stop} (hplain : HeadersPlain hs) (hstop : stop.Fits)
    (pre : Bytes) (room : Nat) {headers : List (NonString × NonString)} {scan : HeaderScan}
    (hheaders : httpMaxHeaders < headers.length)
    (h : scanHeaders (pre ++ received (headerText hs ++ stop.text) room)
      (pre.length + (headerText hs ++ stop.text).length) 1 pre.length headers = .returns scan) :
    hs = [] ∧ ∃ payload, stop = .done payload := by
  cases hs with
  | cons header hs =>
      obtain ⟨hfound, hpos, -⟩ := headerLine_found hplain pre (received stop.text room)
        (n := pre.length + (headerText (header :: hs) ++ stop.text).length)
        (by rw [List.length_append]; omega)
      have hne : ¬ some header.line.length = some 0 := by
        intro hc
        injection hc with hc
        omega
      rw [received, List.append_assoc, ← received, scanHeaders, hfound] at h
      simp only [Outcome.returns_bind, hne, if_false, hheaders, if_true, reduceCtorEq] at h
  | nil =>
      have hn : pre.length + stop.text.length - pre.length = stop.text.length := by omega
      have hnil : headerText [] ++ stop.text = stop.text := rfl
      rw [hnil, scanHeaders, hn, stop.found hstop] at h
      refine ⟨rfl, ?_⟩
      cases stop with
      | waiting part =>
          simp only [Stop.lineEnd, Outcome.returns_bind, reduceCtorEq, if_false, hheaders, if_true] at h
      | torn part tail => cases h
      | malformed line rest =>
          have hne : ¬ some line.length = some 0 := by
            intro hc
            exact hstop.2.2 (List.length_eq_zero_iff.mp (Option.some.inj hc))
          simp only [Stop.lineEnd, Outcome.returns_bind, hne, if_false, hheaders, if_true, reduceCtorEq] at h
      | done payload => exact ⟨payload, rfl⟩

/-- The first header lines, as many as are one too many for the array. -/
theorem headers_split {hs : List Header} (hcount : httpMaxHeaders < hs.length) :
    ∃ first more, hs = first ++ more ∧ first.length = httpMaxHeaders + 1 := by
  refine ⟨hs.take (httpMaxHeaders + 1), hs.drop (httpMaxHeaders + 1), (List.take_append_drop ..).symm, ?_⟩
  rw [List.length_take]
  omega

theorem headerText_append (hs hs' : List Header) : headerText (hs ++ hs') = headerText hs ++ headerText hs' := by
  rw [headerText, List.map_append, unlines_append]
  rfl

/-- **With more header lines than the array holds** the loop returns only if they are one more
and the empty line stands behind them. -/
theorem scanHeaders_crowded {hs : List Header} {stop : Stop} (hplain : HeadersPlain hs) (hstop : stop.Fits)
    (pre : Bytes) (room : Nat) (hcount : httpMaxHeaders < hs.length) {scan : HeaderScan}
    (h : scanHeaders (pre ++ received (headerText hs ++ stop.text) room)
      (pre.length + (headerText hs ++ stop.text).length) (httpMaxHeaders + 2) pre.length [] = .returns scan) :
    hs.length = httpMaxHeaders + 1 ∧ ∃ payload, stop = .done payload := by
  obtain ⟨first, more, rfl, hfirst⟩ := headers_split hcount
  have hfirst' : HeadersPlain first := fun h hh => hplain h (List.mem_append_left _ hh)
  have hmore : HeadersPlain more := fun h hh => hplain h (List.mem_append_right _ hh)
  have hmem : pre ++ received (headerText (first ++ more) ++ stop.text) room
      = pre ++ (headerText first ++ received (headerText more ++ stop.text) room) := by
    rw [headerText_append, received, received]
    simp only [List.append_assoc]
  have hlen : pre.length + (headerText (first ++ more) ++ stop.text).length
      = (pre ++ headerText first).length + (headerText more ++ stop.text).length := by
    rw [headerText_append, List.length_append, List.length_append, List.length_append, List.length_append]
    omega
  have hlines := scanHeaders_lines first hfirst' pre (received (headerText more ++ stop.text) room)
    (pre.length + (headerText (first ++ more) ++ stop.text).length) 1 []
    (by rw [hlen, List.length_append]; omega) (by rw [List.length_nil]; omega)
  have hfuel : httpMaxHeaders + 2 = 1 + first.length := by omega
  have hpos : pre.length + (headerText first).length = (pre ++ headerText first).length :=
    List.length_append.symm
  rw [hfuel, hmem, hlines, hlen, hpos, List.nil_append, ← List.append_assoc] at h
  obtain ⟨rfl, hdone⟩ := scanHeaders_overfull hmore hstop (pre ++ headerText first) room
    (by rw [headerSpans_length]; omega) h
  exact ⟨by rw [List.append_nil]; exact hfirst, hdone⟩

/-- The loop reads only. -/
theorem scanHeaders_ne_faults (mem : Bytes) (n : Nat) : ∀ (fuel pos : Nat) (headers : List (NonString × NonString)),
    scanHeaders mem n fuel pos headers ≠ .faults := by
  intro fuel
  induction fuel with
  | zero =>
      intro pos headers h
      cases h
  | succ fuel ih =>
      intro pos headers h
      rw [scanHeaders, Outcome.bind_eq_faults] at h
      rcases h with h | ⟨lineEnd, -, h⟩
      · exact memstr_ne_faults _ _ _ h
      · split_ifs at h
        split at h
        · cases h
        · split at h
          · cases h
          · exact ih _ _ h

/-! ### The whole parse -/

theorem parseRequest_waiting {text : Bytes} (h : (13 : UInt8) ∉ text) (room : Nat) :
    parseRequest (received text room) text.length emptyRequest
      = .returns ⟨0, received text room, emptyRequest⟩ := by
  have hnone : memstr (received text room) text.length crlf = .returns none :=
    memstr_none (by rw [received, List.take_left]; exact h)
  unfold parseRequest
  rw [hnone]
  rfl

theorem parseRequest_torn {part tail : Bytes} (hpart : (13 : UInt8) ∉ part) (htail : tail.headD 0 ≠ 10)
    (room : Nat) :
    parseRequest (received (part ++ 13 :: tail) room) (part ++ 13 :: tail).length emptyRequest = .diverges := by
  have hstuck : memstr (received (part ++ 13 :: tail) room) (part ++ 13 :: tail).length crlf = .diverges := by
    rw [received, List.append_assoc, List.cons_append]
    exact memstr_torn hpart (by simp) (headD_zeros htail room)
  unfold parseRequest
  rw [hstuck]
  rfl

/-- A line with fewer than two blanks is no request line. -/
theorem parseRequestLine_eq_none {line : Bytes} (hblanks : line.count 32 < 2) (rest : Bytes) :
    parseRequestLine (line ++ rest) 0 line.length = none := by
  unfold parseRequestLine
  by_cases hblank : (32 : UInt8) ∈ line
  · obtain ⟨method, tail, hsplit, hmethod⟩ := List.eq_append_cons_of_mem hblank
    have htail : (32 : UInt8) ∉ tail := by
      rw [hsplit, List.count_append, List.count_cons_self] at hblanks
      exact List.count_eq_zero.mp (by omega)
    have hlen : line.length = method.length + 1 + tail.length := by
      rw [hsplit, List.length_append, List.length_cons]
      omega
    have hfirst : memchr (line ++ rest) 32 line.length = some method.length := by
      rw [hlen, hsplit, List.append_assoc, List.cons_append]
      exact memchr_append_of_notMem hmethod (by omega)
    have hdrop : (line ++ rest).drop (method.length + 1) = tail ++ rest := by
      rw [hsplit, List.append_assoc, List.drop_length_add_append]
      rfl
    have hsecond : memchr (tail ++ rest) 32 (line.length - (method.length + 1)) = none := by
      have hn : line.length - (method.length + 1) = tail.length := by omega
      exact memchr_eq_none (by rw [hn, List.take_left]; exact htail)
    simp only [List.drop_zero, hfirst, Nat.zero_add, hdrop, hsecond]
  · have hnone : memchr (line ++ rest) 32 line.length = none :=
      memchr_eq_none (by rw [List.take_left]; exact hblank)
    simp only [List.drop_zero, hnone]

theorem parseRequest_badLine {line : Bytes} (hline : (13 : UInt8) ∉ line) (hblanks : line.count 32 < 2)
    (rest : Bytes) (room : Nat) :
    parseRequest (received (line ++ crlf ++ rest) room) (line ++ crlf ++ rest).length emptyRequest
      = .returns ⟨-1, received (line ++ crlf ++ rest) room, emptyRequest⟩ := by
  have hmem : received (line ++ crlf ++ rest) room = line ++ crlf ++ received rest room := by
    rw [received, received, List.append_assoc (line ++ crlf)]
  have hfound : memstr (received (line ++ crlf ++ rest) room) (line ++ crlf ++ rest).length crlf
      = .returns (some line.length) := by
    rw [hmem]
    exact memstr_line hline (by rw [List.length_append, List.length_append, crlf_length]; omega)
  have hbad := parseRequestLine_eq_none hblanks (crlf ++ received rest room)
  rw [← List.append_assoc, ← hmem] at hbad
  unfold parseRequest
  rw [hfound]
  simp only [Outcome.returns_bind, hbad]
  rfl

section Headed

variable {r : RequestText} (hr : r.Plain) {stop : Stop} (hstop : stop.Fits) (room : Nat)

/-- The request line, the header lines that can be read, and what stands behind them. -/
def RequestText.upTo (r : RequestText) (stop : Stop) : Bytes :=
  r.requestLine ++ crlf ++ (headerText r.headers ++ stop.text)

theorem upTo_done (r : RequestText) (payload : Bytes) : r.upTo (.done payload) = r.head ++ payload := by
  rw [RequestText.upTo, Stop.text, r.head_append]

include hr in
theorem parseRequest_upTo :
    parseRequest (received (r.upTo stop) room) (r.upTo stop).length emptyRequest = (do
      match ← scanHeaders (received (r.upTo stop) room) (r.upTo stop).length (httpMaxHeaders + 2)
          (r.requestLine.length + 2) [] with
      | .incomplete => return ⟨0, received (r.upTo stop) room, emptyRequest⟩
      | .malformed => return ⟨-1, received (r.upTo stop) room, emptyRequest⟩
      | .complete headers pos =>
          finishRequest (received (r.upTo stop) room) (r.upTo stop).length emptyRequest ⟨0, r.method.length⟩
            ⟨r.method.length + 1, r.uri.length⟩ headers pos) := by
  have hmem : received (r.upTo stop) room
      = r.requestLine ++ crlf ++ received (headerText r.headers ++ stop.text) room := by
    rw [received, received, RequestText.upTo, List.append_assoc (r.requestLine ++ crlf)]
  have hn : r.requestLine.length + 2 ≤ (r.upTo stop).length := by
    rw [RequestText.upTo, List.length_append, r.requestLine_crlf_length]
    omega
  rw [hmem]
  exact RequestText.parseRequest_line hr _ hn

include hr hstop in
/-- The header loop of such a buffer. -/
theorem scan_upTo (hcount : r.headers.length ≤ httpMaxHeaders) :
    scanHeaders (received (r.upTo stop) room) (r.upTo stop).length (httpMaxHeaders + 2)
        (r.requestLine.length + 2) []
      = stop.scan (headerSpans (r.requestLine.length + 2) r.headers)
          (r.requestLine.length + 2 + (headerText r.headers).length) := by
  have hscan := scanHeaders_sections hr.headers hstop (r.requestLine ++ crlf) room hcount
  rw [← List.length_append, r.requestLine_crlf_length, received, ← List.append_assoc, ← received] at hscan
  exact hscan

include hr hstop in
/-- **A stop before the empty line** decides what the parse comes to. -/
theorem parseRequest_stop (hcount : r.headers.length ≤ httpMaxHeaders) :
    (∀ part, stop = .waiting part →
      parseRequest (received (r.upTo stop) room) (r.upTo stop).length emptyRequest
        = .returns ⟨0, received (r.upTo stop) room, emptyRequest⟩) ∧
    (∀ part tail, stop = .torn part tail →
      parseRequest (received (r.upTo stop) room) (r.upTo stop).length emptyRequest = .diverges) ∧
    (∀ line rest, stop = .malformed line rest →
      parseRequest (received (r.upTo stop) room) (r.upTo stop).length emptyRequest
        = .returns ⟨-1, received (r.upTo stop) room, emptyRequest⟩) := by
  rw [parseRequest_upTo hr room, scan_upTo hr hstop room hcount]
  refine ⟨?_, ?_, ?_⟩
  · rintro part rfl
    rfl
  · rintro part tail rfl
    rfl
  · rintro line rest rfl
    rfl

end Headed

/-- **A whole head**, with what was received behind it, and no more headers than fit. -/
theorem parseRequest_done {r : RequestText} (hr : r.Plain) (payload : Bytes) (room : Nat)
    (hcount : r.headers.length ≤ httpMaxHeaders + 1) :
    parseRequest (received (r.head ++ payload) room) (r.head ++ payload).length emptyRequest
      = if httpMaxHeaders < r.headers.length then .faults
        else if (payload.length : Int) < lengthUsed r.headers (crlf ++ received payload room) then
          .returns ⟨0, received (r.head ++ payload) room,
            { emptyRequest with
              payload := received payload room
              payloadLength := lengthUsed r.headers (crlf ++ received payload room) }⟩
        else .returns ⟨r.head.length + lengthUsed r.headers (crlf ++ received payload room),
          r.inPlace (received payload room),
          ⟨some (cstr r.method), some (cstr r.uri), r.headers.map Header.strings, received payload room,
            lengthUsed r.headers (crlf ++ received payload room)⟩⟩ := by
  have hmem : received (r.head ++ payload) room = r.head ++ received payload room := by
    rw [received, received, List.append_assoc]
  have hparse := RequestText.parseRequest_head hr (received payload room) (n := (r.head ++ payload).length)
    (by rw [List.length_append]; omega) hcount
  have hthere : ((r.head ++ payload).length : Int)
        < r.head.length + lengthUsed r.headers (crlf ++ received payload room)
      ↔ (payload.length : Int) < lengthUsed r.headers (crlf ++ received payload room) := by
    rw [List.length_append]
    omega
  rw [hmem, hparse, RequestText.finishRequest_head]
  simp only [hthere]

/-- With too many headers the header loop returns at the empty line only. -/
theorem scan_upTo_crowded {r : RequestText} (hr : r.Plain) {stop : Stop} (hstop : stop.Fits) (room : Nat)
    (hcount : httpMaxHeaders < r.headers.length) {scan : HeaderScan}
    (h : scanHeaders (received (r.upTo stop) room) (r.upTo stop).length (httpMaxHeaders + 2)
      (r.requestLine.length + 2) [] = .returns scan) :
    r.headers.length = httpMaxHeaders + 1 ∧ ∃ payload, stop = .done payload := by
  have hmem : received (r.upTo stop) room
      = (r.requestLine ++ crlf) ++ received (headerText r.headers ++ stop.text) room := by
    rw [received, received, RequestText.upTo, List.append_assoc (r.requestLine ++ crlf)]
  rw [hmem, ← r.requestLine_crlf_length, RequestText.upTo, List.length_append] at h
  exact scanHeaders_crowded hr.headers hstop (r.requestLine ++ crlf) room hcount h

/-- With too many headers the parser does not return. -/
theorem parseRequest_crowded {r : RequestText} (hr : r.Plain) {stop : Stop} (hstop : stop.Fits) (room : Nat)
    (hcount : httpMaxHeaders < r.headers.length) (parse : Parse) :
    parseRequest (received (r.upTo stop) room) (r.upTo stop).length emptyRequest ≠ .returns parse := by
  intro h
  have hhead := @parseRequest_upTo r hr stop room
  rw [hhead] at h
  obtain ⟨scan, hscan, -⟩ := Outcome.bind_eq_returns.mp h
  obtain ⟨hmany, payload, rfl⟩ := scan_upTo_crowded hr hstop room hcount hscan
  rw [← hhead, upTo_done, parseRequest_done hr payload room (by omega), if_pos hcount] at h
  cases h

/-- There is a head in front with one header line too many. -/
inductive OneTooMany (text : Bytes) : Prop
  | intro (r : RequestText) (payload : Bytes) (htext : text = r.head ++ payload) (hr : r.Plain)
      (hcount : r.headers.length = httpMaxHeaders + 1)

/-- **The parse writes out of bounds** exactly if the head has one header line too many. -/
theorem parseRequest_faults_iff {text : Bytes} {room : Nat} :
    parseRequest (received text room) text.length emptyRequest = .faults ↔ OneTooMany text := by
  constructor
  · intro h
    rcases request_cases text with hwait | ⟨part, tail, rfl, hpart, htail⟩ |
      ⟨line, rest, rfl, hline, hblanks⟩ | ⟨r, stop, hr, hstop, htext⟩
    · rw [parseRequest_waiting hwait] at h
      cases h
    · rw [parseRequest_torn hpart htail] at h
      cases h
    · rw [parseRequest_badLine hline hblanks] at h
      cases h
    · rw [← RequestText.upTo] at htext
      subst htext
      by_cases hcount : r.headers.length ≤ httpMaxHeaders
      · obtain ⟨hwaiting, htorn, hmalformed⟩ := parseRequest_stop hr hstop room hcount
        cases stop with
        | waiting part =>
            rw [hwaiting part rfl] at h
            cases h
        | torn part tail =>
            rw [htorn part tail rfl] at h
            cases h
        | malformed line rest =>
            rw [hmalformed line rest rfl] at h
            cases h
        | done payload =>
            rw [upTo_done, parseRequest_done hr payload room (by omega), if_neg (by omega)] at h
            split at h <;> cases h
      · rw [parseRequest_upTo hr room, Outcome.bind_eq_faults] at h
        rcases h with h | ⟨scan, hscan, -⟩
        · exact absurd h (scanHeaders_ne_faults _ _ _ _ _)
        · obtain ⟨hmany, payload, rfl⟩ := scan_upTo_crowded hr hstop room (by omega) hscan
          exact .intro r payload (upTo_done r payload) hr hmany
  · rintro ⟨r, payload, rfl, hr, hcount⟩
    rw [parseRequest_done hr payload room (by omega), if_pos (by omega)]

/-- A line that is no request line, or one that is no header behind no more headers than fit. -/
inductive Rejected (text : Bytes) : Prop
  | badLine (line rest : Bytes) (htext : text = line ++ crlf ++ rest) (hline : (13 : UInt8) ∉ line)
      (hblanks : line.count 32 < 2)
  | malformed (r : RequestText) (line rest : Bytes) (htext : text = r.upTo (.malformed line rest)) (hr : r.Plain)
      (hstop : (Stop.malformed line rest).Fits) (hcount : r.headers.length ≤ httpMaxHeaders)

theorem Rejected.parse {text : Bytes} (h : Rejected text) (room : Nat) :
    ∃ parse, parseRequest (received text room) text.length emptyRequest = .returns parse ∧ parse.ret = -1 := by
  cases h with
  | badLine line rest htext hline hblanks =>
      rw [htext]
      exact ⟨_, parseRequest_badLine hline hblanks rest room, rfl⟩
  | malformed r line rest htext hr hstop hcount =>
      rw [htext]
      exact ⟨_, (parseRequest_stop hr hstop room hcount).2.2 line rest rfl, rfl⟩

/-- What is rejected is rejected with more behind it. -/
theorem Rejected.append {text : Bytes} (h : Rejected text) (more : Bytes) : Rejected (text ++ more) := by
  cases h with
  | badLine line rest htext hline hblanks =>
      exact .badLine line (rest ++ more) (by rw [htext, List.append_assoc]) hline hblanks
  | malformed r line rest htext hr hstop hcount =>
      refine .malformed r line (rest ++ more) ?_ hr hstop hcount
      rw [htext]
      simp only [RequestText.upTo, Stop.text, List.append_assoc]

/-- There is a whole request at the front of the bytes, with no more headers than fit. -/
structure Whole (text : Bytes) (room : Nat) (r : RequestText) (payload : Bytes) : Prop where
  text_eq : text = r.head ++ payload
  plain : r.Plain
  count : r.headers.length ≤ httpMaxHeaders
  there : lengthUsed r.headers (crlf ++ received payload room) ≤ payload.length

theorem Whole.parse {text : Bytes} {room : Nat} {r : RequestText} {payload : Bytes}
    (h : Whole text room r payload) :
    parseRequest (received text room) text.length emptyRequest
      = .returns ⟨r.head.length + lengthUsed r.headers (crlf ++ received payload room),
          r.inPlace (received payload room),
          ⟨some (cstr r.method), some (cstr r.uri), r.headers.map Header.strings, received payload room,
            lengthUsed r.headers (crlf ++ received payload room)⟩⟩ := by
  have hcount := h.count
  have hthere := h.there
  rw [h.text_eq, parseRequest_done h.plain payload room (by omega), if_neg (by omega), if_neg (by omega)]

/-- **What a parse that returns is**: it waits, it rejects, or there is a whole request. -/
theorem parseRequest_cases {text : Bytes} {room : Nat} {parse : Parse}
    (h : parseRequest (received text room) text.length emptyRequest = .returns parse) :
    (parse.ret = 0 ∧ parse.buffer = received text room) ∨
      (parse.ret = -1 ∧ parse.buffer = received text room ∧ Rejected text) ∨
      ∃ r payload, Whole text room r payload := by
  rcases request_cases text with hwait | ⟨part, tail, rfl, hpart, htail⟩ |
    ⟨line, rest, htext, hline, hblanks⟩ | ⟨r, stop, hr, hstop, htext⟩
  · rw [parseRequest_waiting hwait, Outcome.returns.injEq] at h
    rw [← h]
    exact Or.inl ⟨rfl, rfl⟩
  · rw [parseRequest_torn hpart htail] at h
    cases h
  · have hrejected : Rejected text := .badLine line rest htext hline hblanks
    subst htext
    rw [parseRequest_badLine hline hblanks, Outcome.returns.injEq] at h
    rw [← h]
    exact Or.inr (Or.inl ⟨rfl, rfl, hrejected⟩)
  · rw [← RequestText.upTo] at htext
    by_cases hcount : r.headers.length ≤ httpMaxHeaders
    · obtain ⟨hwaiting, htorn, hmalformed⟩ := parseRequest_stop hr hstop room hcount
      cases stop with
      | waiting part =>
          subst htext
          rw [hwaiting part rfl, Outcome.returns.injEq] at h
          rw [← h]
          exact Or.inl ⟨rfl, rfl⟩
      | torn part tail =>
          subst htext
          rw [htorn part tail rfl] at h
          cases h
      | malformed line rest =>
          have hrejected : Rejected text := .malformed r line rest htext hr hstop hcount
          subst htext
          rw [hmalformed line rest rfl, Outcome.returns.injEq] at h
          rw [← h]
          exact Or.inr (Or.inl ⟨rfl, rfl, hrejected⟩)
      | done payload =>
          rw [upTo_done] at htext
          by_cases hthere : lengthUsed r.headers (crlf ++ received payload room) ≤ payload.length
          · exact Or.inr (Or.inr ⟨r, payload, htext, hr, hcount, hthere⟩)
          · subst htext
            rw [parseRequest_done hr payload room (by omega), if_neg (by omega), if_pos (by omega),
              Outcome.returns.injEq] at h
            rw [← h]
            exact Or.inl ⟨rfl, rfl⟩
    · subst htext
      exact absurd h (parseRequest_crowded hr hstop room (by omega) parse)

end ChordDht.Chord
