/-
The header table of the parser.

`headers` and `request->headers` have `HTTP_MAX_HEADERS` entries.  The check of the count
lets one header line too many through, ends the process at the next, and comes behind a
search that may never return; `table_safe_iff` says on which bytes none of this happens.
-/
import ChordDht.Chord.Sections

namespace ChordDht.Chord

/-- The indices at which the header loop writes `headers`: the loops behind it read them
again, and write `request->headers` at them. -/
def headerWrites (mem : Bytes) (n : Nat) : Nat → Nat → Nat → List Nat
  | 0, _, _ => []
  | fuel + 1, pos, headerCount =>
      match memstr (mem.drop pos) (n - pos) crlf with
      | .returns (some k) =>
          if k = 0 ∨ httpMaxHeaders < headerCount then []
          else match parseHeader mem pos k with
            | none => []
            | some _ => headerCount :: headerWrites mem n fuel (pos + k + crlf.length) (headerCount + 1)
      | _ => []

/-- The indices that a call of `parse_request` uses. -/
def touched (mem : Bytes) (n : Nat) : List Nat :=
  match memstr mem n crlf with
  | .returns (some lineEnd) =>
      match parseRequestLine mem 0 lineEnd with
      | some _ => headerWrites mem n (httpMaxHeaders + 2) (lineEnd + crlf.length) 0
      | none => []
  | _ => []

/-- There are more header lines than the table holds. -/
def Crowded (text : Bytes) : Prop :=
  ∃ (r : RequestText) (stop : Stop), r.Plain ∧ stop.Fits ∧ text = r.upTo stop ∧
    httpMaxHeaders < r.headers.length

/-- The table is not overrun, the call returns a byte count, zero or minus one, and it rejects
more headers than the table holds. -/
structure TableSafe (text : Bytes) (room : Nat) : Prop where
  inside : ∀ i ∈ touched (received text room) text.length, i < httpMaxHeaders
  returns : ∃ parse, parseRequest (received text room) text.length emptyRequest = .returns parse ∧
    (parse.ret = -1 ∨ (0 ≤ parse.ret ∧ parse.ret ≤ text.length))
  rejects : ∀ parse, parseRequest (received text room) text.length emptyRequest = .returns parse →
    Crowded text → parse.ret = -1

/-- No carriage return without its line feed is come upon, and no more header lines than the
table holds. -/
inductive Orderly (text : Bytes) : Prop
  | waiting (h : (13 : UInt8) ∉ text)
  | badLine (line rest : Bytes) (htext : text = line ++ crlf ++ rest) (hline : (13 : UInt8) ∉ line)
      (hblanks : line.count 32 < 2)
  | headed (r : RequestText) (stop : Stop) (htext : text = r.upTo stop) (hr : r.Plain) (hstop : stop.Fits)
      (hcount : r.headers.length ≤ httpMaxHeaders) (hwhole : ∀ part tail, stop ≠ .torn part tail)

/-! ### The indices -/

/-- The header lines take one index each. -/
theorem headerWrites_lines : ∀ (hs : List Header), HeadersPlain hs →
    ∀ (pre rest : Bytes) (n fuel headerCount : Nat),
      pre.length + (headerText hs).length ≤ n → headerCount + hs.length ≤ httpMaxHeaders + 1 →
      headerWrites (pre ++ (headerText hs ++ rest)) n (fuel + hs.length) pre.length headerCount
        = List.range' headerCount hs.length ++
          headerWrites (pre ++ (headerText hs ++ rest)) n fuel (pre.length + (headerText hs).length)
            (headerCount + hs.length) := by
  intro hs
  induction hs with
  | nil =>
      intro _ pre rest n fuel headerCount _ _
      rfl
  | cons h hs ih =>
      intro hplain pre rest n fuel headerCount hn hcount
      obtain ⟨hfound, hpos, hheader⟩ := headerLine_found hplain pre rest hn
      obtain ⟨hmem, hpre⟩ := headerText_shift h hs pre rest
      have hlen := headerText_length h hs
      rw [List.length_cons] at hcount
      have hfuel : fuel + (h :: hs).length = (fuel + hs.length) + 1 := by
        rw [List.length_cons]
        omega
      have hgo : ¬ (h.line.length = 0 ∨ httpMaxHeaders < headerCount) := by omega
      have hend : pre.length + h.line.length + 2 + (headerText hs).length
          = pre.length + (headerText (h :: hs)).length := by omega
      have hnext : headerCount + 1 + hs.length = headerCount + (h :: hs).length := by
        rw [List.length_cons]
        omega
      rw [hfuel, headerWrites, hfound]
      simp only [if_neg hgo, hheader, crlf_length]
      rw [hmem, ← hpre, ih hplain.tail (pre ++ (h.line ++ crlf)) rest n fuel _ (by omega) (by omega),
        hpre, hend, hnext, List.length_cons, List.range'_succ, List.cons_append]

/-- At the stop no index is taken. -/
theorem headerWrites_stop {stop : Stop} (hstop : stop.Fits) (pre : Bytes) (room fuel headerCount : Nat) :
    headerWrites (pre ++ received stop.text room) (pre.length + stop.text.length) fuel pre.length headerCount
      = [] := by
  cases fuel with
  | zero => rfl
  | succ fuel =>
      have hn : pre.length + stop.text.length - pre.length = stop.text.length := by omega
      rw [headerWrites, hn, stop.found hstop]
      cases stop with
      | waiting part => rfl
      | torn part tail => rfl
      | malformed line rest =>
          simp only [Stop.lineEnd]
          simp only [parseHeader_malformed hstop.2.1]
          exact ite_self _
      | done payload => rfl

/-- The indices of a buffer with a request line: one for each header line, if they are no
more than the table holds, and otherwise also the one behind it. -/
theorem touched_upTo {r : RequestText} (hr : r.Plain) {stop : Stop} (hstop : stop.Fits) (room : Nat) :
    (r.headers.length ≤ httpMaxHeaders →
      touched (received (r.upTo stop) room) (r.upTo stop).length = List.range' 0 r.headers.length) ∧
    (httpMaxHeaders < r.headers.length →
      httpMaxHeaders ∈ touched (received (r.upTo stop) room) (r.upTo stop).length) := by
  have hmem : received (r.upTo stop) room
      = (r.requestLine ++ crlf) ++ received (headerText r.headers ++ stop.text) room := by
    rw [received, received, RequestText.upTo, List.append_assoc (r.requestLine ++ crlf)]
  have hlen : (r.upTo stop).length
      = (r.requestLine ++ crlf).length + (headerText r.headers ++ stop.text).length := List.length_append
  have hfound : memstr (received (r.upTo stop) room) (r.upTo stop).length crlf
      = .returns (some r.requestLine.length) := by
    rw [hmem]
    exact memstr_line hr.requestLine (by rw [hlen, r.requestLine_crlf_length]; omega)
  have hline := parseRequestLine_wire hr (crlf ++ received (headerText r.headers ++ stop.text) room)
  rw [← List.append_assoc, ← hmem] at hline
  have htouched : touched (received (r.upTo stop) room) (r.upTo stop).length
      = headerWrites (received (r.upTo stop) room) (r.upTo stop).length (httpMaxHeaders + 2)
          (r.requestLine ++ crlf).length 0 := by
    unfold touched
    rw [hfound]
    simp only [hline, r.requestLine_crlf_length, crlf_length]
  have hgo : ∀ (first more : List Header), r.headers = first ++ more → first.length ≤ httpMaxHeaders + 1 →
      touched (received (r.upTo stop) room) (r.upTo stop).length
        = List.range' 0 first.length ++
          headerWrites (((r.requestLine ++ crlf) ++ headerText first) ++ received (headerText more ++ stop.text) room)
            (((r.requestLine ++ crlf) ++ headerText first).length + (headerText more ++ stop.text).length)
            (httpMaxHeaders + 2 - first.length) ((r.requestLine ++ crlf) ++ headerText first).length
            first.length := by
    intro first more hsplit hfirst
    have hplain : HeadersPlain first := by
      intro h hh
      exact hr.headers h (by rw [hsplit]; exact List.mem_append_left _ hh)
    have htext : received (r.upTo stop) room
        = (r.requestLine ++ crlf) ++ (headerText first ++ received (headerText more ++ stop.text) room) := by
      rw [hmem, hsplit, headerText_append, received, received]
      simp only [List.append_assoc]
    have htotal : (r.upTo stop).length = (r.requestLine ++ crlf).length + (headerText first).length
        + (headerText more ++ stop.text).length := by
      rw [hlen, hsplit, headerText_append]
      simp only [List.length_append]
      omega
    have hfuel : httpMaxHeaders + 2 = (httpMaxHeaders + 2 - first.length) + first.length := by omega
    have hlines := headerWrites_lines first hplain (r.requestLine ++ crlf)
      (received (headerText more ++ stop.text) room) (r.upTo stop).length (httpMaxHeaders + 2 - first.length) 0
      (by omega) (by omega)
    have hpos : (r.requestLine ++ crlf).length + (headerText first).length
        = ((r.requestLine ++ crlf) ++ headerText first).length := List.length_append.symm
    rw [htouched, hfuel, htext, hlines, Nat.zero_add, Nat.add_sub_cancel, htotal, hpos, ← List.append_assoc]
  constructor
  · intro hcount
    have h := hgo r.headers [] (List.append_nil _).symm (by omega)
    have hnone := headerWrites_stop hstop ((r.requestLine ++ crlf) ++ headerText r.headers) room
      (httpMaxHeaders + 2 - r.headers.length) r.headers.length
    have hnil : headerText [] ++ stop.text = stop.text := rfl
    rw [hnil, hnone, List.append_nil] at h
    exact h
  · intro hcount
    obtain ⟨first, more, hsplit, hfirst⟩ := headers_split hcount
    rw [hgo first more hsplit (by omega)]
    refine List.mem_append_left _ (List.mem_range'_1.mpr ?_)
    omega

/-! ### What keeps the table safe -/

theorem touched_waiting {text : Bytes} (h : (13 : UInt8) ∉ text) (room : Nat) :
    touched (received text room) text.length = [] := by
  have hnone : memstr (received text room) text.length crlf = .returns none :=
    memstr_none (by rw [received, List.take_left]; exact h)
  unfold touched
  rw [hnone]

theorem touched_badLine {line : Bytes} (hline : (13 : UInt8) ∉ line) (hblanks : line.count 32 < 2)
    (rest : Bytes) (room : Nat) :
    touched (received (line ++ crlf ++ rest) room) (line ++ crlf ++ rest).length = [] := by
  have hmem : received (line ++ crlf ++ rest) room = line ++ (crlf ++ received rest room) := by
    rw [received, received]
    simp only [List.append_assoc]
  have hfound : memstr (line ++ (crlf ++ received rest room)) (line ++ crlf ++ rest).length crlf
      = .returns (some line.length) := by
    rw [← List.append_assoc]
    exact memstr_line hline (by rw [List.length_append, List.length_append, crlf_length]; omega)
  unfold touched
  rw [hmem, hfound]
  simp only [parseRequestLine_eq_none hblanks]

/-- With too many header lines the index behind the table is used. -/
theorem Crowded.touched {text : Bytes} (h : Crowded text) (room : Nat) :
    httpMaxHeaders ∈ Chord.touched (received text room) text.length := by
  obtain ⟨r, stop, hr, hstop, rfl, hcount⟩ := h
  exact (touched_upTo hr hstop room).2 hcount

theorem Orderly.inside {text : Bytes} (h : Orderly text) (room : Nat) :
    ∀ i ∈ Chord.touched (received text room) text.length, i < httpMaxHeaders := by
  cases h with
  | waiting h =>
      rw [touched_waiting h]
      exact fun i hi => absurd hi List.not_mem_nil
  | badLine line rest htext hline hblanks =>
      rw [htext, touched_badLine hline hblanks]
      exact fun i hi => absurd hi List.not_mem_nil
  | headed r stop htext hr hstop hcount hwhole =>
      rw [htext, (touched_upTo hr hstop room).1 hcount]
      intro i hi
      have hlt := (List.mem_range'_1.mp hi).2
      omega

theorem Orderly.returns {text : Bytes} (h : Orderly text) (room : Nat) :
    ∃ parse, parseRequest (received text room) text.length emptyRequest = .returns parse ∧
      (parse.ret = -1 ∨ (0 ≤ parse.ret ∧ parse.ret ≤ text.length)) := by
  cases h with
  | waiting h => exact ⟨_, parseRequest_waiting h room, Or.inr ⟨Int.le_refl _, Int.natCast_nonneg _⟩⟩
  | badLine line rest htext hline hblanks =>
      rw [htext]
      exact ⟨_, parseRequest_badLine hline hblanks rest room, Or.inl rfl⟩
  | headed r stop htext hr hstop hcount hwhole =>
      obtain ⟨hwaiting, htorn, hmalformed⟩ := parseRequest_stop hr hstop room hcount
      rw [htext]
      cases stop with
      | waiting part => exact ⟨_, hwaiting part rfl, Or.inr ⟨Int.le_refl _, Int.natCast_nonneg _⟩⟩
      | torn part tail => exact absurd rfl (hwhole part tail)
      | malformed line rest => exact ⟨_, hmalformed line rest rfl, Or.inl rfl⟩
      | done payload =>
          have hnonneg := lengthUsed_nonneg r.headers (crlf ++ received payload room)
          rw [upTo_done, parseRequest_done hr payload room (by omega), if_neg (Nat.not_lt.mpr hcount)]
          by_cases hthere : (payload.length : Int) < lengthUsed r.headers (crlf ++ received payload room)
          · rw [if_pos hthere]
            exact ⟨_, rfl, Or.inr ⟨Int.le_refl _, Int.natCast_nonneg _⟩⟩
          · rw [if_neg hthere]
            refine ⟨_, rfl, Or.inr ⟨?_, ?_⟩⟩
            · simp only
              omega
            · rw [List.length_append]
              simp only
              omega

/-- **When the header table is safe**: as long as no carriage return is without its line feed and
no more header lines stand there than the table holds. -/
theorem table_safe_iff (text : Bytes) (room : Nat) : TableSafe text room ↔ Orderly text := by
  constructor
  · rintro ⟨hinside, ⟨parse, hparse, -⟩, -⟩
    rcases request_cases text with hwait | ⟨part, tail, rfl, hpart, htail⟩ |
      ⟨line, rest, htext, hline, hblanks⟩ | ⟨r, stop, hr, hstop, htext⟩
    · exact .waiting hwait
    · rw [parseRequest_torn hpart htail] at hparse
      cases hparse
    · exact .badLine line rest htext hline hblanks
    · rw [← RequestText.upTo] at htext
      subst htext
      have hcount : r.headers.length ≤ httpMaxHeaders := by
        by_contra hmany
        exact absurd (hinside _ ((touched_upTo hr hstop room).2 (by omega))) (Nat.lt_irrefl _)
      refine .headed r stop rfl hr hstop hcount ?_
      intro part tail htorn
      rw [(parseRequest_stop hr hstop room hcount).2.1 part tail htorn] at hparse
      cases hparse
  · intro h
    refine ⟨h.inside room, h.returns room, ?_⟩
    intro parse _ hcrowded
    exact absurd (h.inside room _ (hcrowded.touched room)) (Nat.lt_irrefl _)

/-- A request with as many headers of one kind as are asked for. -/
def manyHeaders (count : Nat) : RequestText :=
  ⟨ascii "GET", ascii "/", ascii "HTTP/1.1", List.replicate count ⟨ascii "a", ascii "b"⟩, []⟩

/-- One header too many is written behind the table, and two too many end the process. -/
theorem headers_overrun :
    httpMaxHeaders ∈ touched (received (manyHeaders 41).wire 0) (manyHeaders 41).wire.length ∧
      parseRequest (received (manyHeaders 42).wire 0) (manyHeaders 42).wire.length emptyRequest = .exits ∧
      ¬ TableSafe (manyHeaders 41).wire 0 ∧ ¬ TableSafe (manyHeaders 42).wire 0 := by
  have htouched : httpMaxHeaders ∈ touched (received (manyHeaders 41).wire 0) (manyHeaders 41).wire.length := by
    decide +kernel
  have hexits : parseRequest (received (manyHeaders 42).wire 0) (manyHeaders 42).wire.length emptyRequest
      = .exits := by decide +kernel
  refine ⟨htouched, hexits, ?_, ?_⟩
  · intro h
    exact absurd (h.inside _ htouched) (Nat.lt_irrefl _)
  · intro h
    obtain ⟨parse, hparse, -⟩ := h.returns
    rw [hexits] at hparse
    cases hparse

end ChordDht.Chord
