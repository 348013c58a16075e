/-
Where the scan of a request's head ends.

Three loops read the head.  `find_crlfcrlf` looks for two line ends in a row, `check_first_line`
takes the request line and then one header line after the other, and `check_after_first_line`
begins like that and returns at once.  They agree on where the head ends, whatever stray carriage
returns and line feeds there are in it: the line scan meets every line end, so behind the first
of the two it begins an empty line, and no line before is empty.  It never looks behind that
line, and so the verdict does not depend on the body.

`scanFirstLine` is the line scan with the value that `pos` has when it ends.
-/
import ChordDht.Lib.Lines
import ChordDht.Tcp.MessageHandler

namespace ChordDht.Tcp

/-- How the scan of `check_first_line` ends: with an error in the line that ends at `pos`, at the
empty line at `pos`, or with nothing left to read. -/
inductive LineScan where
  | rejects (pos : Nat)
  | stops (pos : Nat)
  | runsOut (pos : Nat)
  deriving DecidableEq, Repr

/-- Whether `check_first_line` goes on to the method. -/
def LineScan.passes : LineScan → Bool
  | .rejects _ => false
  | .stops _ => true
  | .runsOut _ => true

/-- The loop over the header lines; `buf` is the buffer from `pos` on. -/
def scanHeaderLines : Nat → Nat → Bytes → LineScan
  | 0, pos, _ => .runsOut pos
  | fuel + 1, pos, buf =>
      if buf.length < 2 then .runsOut pos
      else
        match search crlf buf with
        | none => .rejects (pos + (buf.length - 1))
        | some 0 => .stops pos
        | some lineLen =>
            if 511 ≤ lineLen then .rejects (pos + lineLen)
            else if headerLineOk (buf.take lineLen) = false then .rejects (pos + lineLen)
            else scanHeaderLines fuel (pos + lineLen + 2) (buf.drop (lineLen + 2))

/-- The scan of `check_first_line`; an error in the request line is found at its end. -/
def scanFirstLine (buf : Bytes) : LineScan :=
  match search crlf buf with
  | none => .rejects (buf.length - 1)
  | some lineLen =>
      if lineLen = 0 ∨ 256 < lineLen then .rejects lineLen
      else
        match scanRequestLine (buf.take lineLen) with
        | none => .rejects lineLen
        | some (_, _, version) =>
            if version ≠ ascii "HTTP/1.1" then .rejects lineLen
            else scanHeaderLines buf.length (lineLen + 2) (buf.drop (lineLen + 2))

/-! ### The scan decides -/

theorem checkHeaderLines_scan : ∀ (fuel pos : Nat) (buf : Bytes),
    checkHeaderLines fuel buf = (scanHeaderLines fuel pos buf).passes := by
  intro fuel
  induction fuel with
  | zero =>
      intro pos buf
      rfl
  | succ fuel ih =>
      intro pos buf
      rw [checkHeaderLines, scanHeaderLines]
      by_cases hshort : buf.length < 2
      · rw [if_pos hshort, if_pos hshort]
        rfl
      rw [if_neg hshort, if_neg hshort]
      cases search crlf buf with
      | none => rfl
      | some lineLen =>
          cases lineLen with
          | zero => rfl
          | succ k =>
              simp only
              by_cases hlong : 511 ≤ k + 1
              · rw [if_pos hlong, if_pos hlong]
                rfl
              rw [if_neg hlong, if_neg hlong]
              cases hok : headerLineOk (buf.take (k + 1)) with
              | false => rfl
              | true => exact ih (pos + (k + 1) + 2) (buf.drop (k + 1 + 2))

/-- **`check_first_line` answers 400 exactly when its scan rejects.** -/
theorem checkFirstLine_rejects_iff (buf : Bytes) :
    (checkFirstLine buf).1 = 400 ↔ ∃ pos, scanFirstLine buf = .rejects pos := by
  have hmethod : ∀ method uri : Bytes, (if method = ascii "GET" then (1000, some uri)
      else if method = ascii "PUT" then (1001, some uri)
      else if method = ascii "DELETE" then (1002, some uri)
      else (501, none)).1 ≠ 400 := by
    intro method uri
    split_ifs <;> simp
  unfold checkFirstLine scanFirstLine
  cases search crlf buf with
  | none => exact iff_of_true rfl ⟨_, rfl⟩
  | some lineLen =>
      simp only
      by_cases hlen : lineLen = 0 ∨ 256 < lineLen
      · rw [if_pos hlen, if_pos hlen]
        exact iff_of_true rfl ⟨_, rfl⟩
      rw [if_neg hlen, if_neg hlen]
      cases scanRequestLine (buf.take lineLen) with
      | none => exact iff_of_true rfl ⟨_, rfl⟩
      | some words =>
          obtain ⟨method, uri, version⟩ := words
          simp only
          by_cases hversion : version ≠ ascii "HTTP/1.1"
          · rw [if_pos hversion, if_pos hversion]
            exact iff_of_true rfl ⟨_, rfl⟩
          rw [if_neg hversion, if_neg hversion,
            checkHeaderLines_scan buf.length (lineLen + 2) (buf.drop (lineLen + 2))]
          cases scanHeaderLines buf.length (lineLen + 2) (buf.drop (lineLen + 2)) with
          | rejects pos => exact iff_of_true rfl ⟨pos, rfl⟩
          | stops pos =>
              refine iff_of_false (hmethod method uri) ?_
              rintro ⟨_, h⟩
              cases h
          | runsOut pos =>
              refine iff_of_false (hmethod method uri) ?_
              rintro ⟨_, h⟩
              cases h

/-! ### Where it ends -/

/-- At an empty line the loop ends. -/
theorem scanHeaderLines_empty {text : Bytes} (hempty : crlf <+: text) (fuel pos : Nat) :
    scanHeaderLines (fuel + 1) pos text = .stops pos := by
  have hcrlf : crlf.length = 2 := rfl
  have hlong := hempty.length_le
  have hfound : search crlf text = some 0 :=
    search_eq_some.mpr ⟨Nat.zero_le _, hempty, fun j hj => absurd hj (Nat.not_lt_zero j)⟩
  rw [scanHeaderLines, if_neg (by omega), hfound]
  rfl

/-- A line that is not empty is checked, and the loop goes on behind its end. -/
theorem scanHeaderLines_line {line rest : Bytes} (hne : line ≠ [])
    (hfound : search crlf (line ++ crlf ++ rest) = some line.length) (fuel pos : Nat) :
    scanHeaderLines (fuel + 1) pos (line ++ crlf ++ rest) =
      if 511 ≤ line.length then .rejects (pos + line.length)
      else if headerLineOk line = false then .rejects (pos + line.length)
      else scanHeaderLines fuel (pos + line.length + 2) rest := by
  have hcrlf : (line ++ crlf).length = line.length + 2 := by rw [List.length_append]; rfl
  have hlong : ¬ (line ++ crlf ++ rest).length < 2 := by
    rw [List.length_append, hcrlf]
    omega
  have hdrop : (line ++ crlf ++ rest).drop (line.length + 2) = rest := List.drop_left' hcrlf
  have htake : (line ++ crlf ++ rest).take line.length = line := by
    rw [List.append_assoc, List.take_left]
  obtain ⟨k, hk⟩ : ∃ k, line.length = k + 1 := ⟨line.length - 1, by
    have hpos := List.length_pos_of_ne_nil hne
    omega⟩
  rw [scanHeaderLines, if_neg hlong, hfound, hk]
  rw [hk] at hdrop htake
  simp only [hdrop, htake]

/-- The header lines, from behind a line end: an error is found in front of the empty line, or
that is where the scan stops, and what is behind it makes no difference. -/
theorem scanHeaderLines_head : ∀ (fuel fuel' : Nat) {pos d : Nat} {head : Bytes} (more : Bytes),
    search (crlf ++ crlf) (crlf ++ head) = some d → d < fuel → d < fuel' →
      scanHeaderLines fuel pos (head ++ more) = scanHeaderLines fuel' pos head ∧
        ((∃ p < pos + d, scanHeaderLines fuel' pos head = .rejects p) ∨
          scanHeaderLines fuel' pos head = .stops (pos + d)) := by
  intro fuel
  induction fuel with
  | zero =>
      intro fuel' pos d head more _ hfuel
      omega
  | succ fuel ih =>
      intro fuel' pos d head more h hfuel hfuel'
      cases fuel' with
      | zero => omega
      | succ fuel' =>
          rcases next_line_end h with ⟨rfl, hempty⟩ | ⟨line, rest, rfl, hne, hfound, hle, hrest⟩
          · rw [scanHeaderLines_empty (hempty.trans (List.prefix_append ..)), scanHeaderLines_empty hempty]
            exact ⟨rfl, Or.inr rfl⟩
          · have hpos : 0 < line.length := List.length_pos_of_ne_nil hne
            have hfoundMore := search_append hfound more
            rw [List.append_assoc (line ++ crlf)] at hfoundMore ⊢
            rw [scanHeaderLines_line hne hfoundMore, scanHeaderLines_line hne hfound]
            by_cases htoolong : 511 ≤ line.length
            · rw [if_pos htoolong, if_pos htoolong]
              exact ⟨rfl, Or.inl ⟨_, by omega, rfl⟩⟩
            rw [if_neg htoolong, if_neg htoolong]
            by_cases hbad : headerLineOk line = false
            · rw [if_pos hbad, if_pos hbad]
              exact ⟨rfl, Or.inl ⟨_, by omega, rfl⟩⟩
            rw [if_neg hbad, if_neg hbad]
            have hnext := @ih fuel' (pos + line.length + 2) _ _ more hrest (by omega) (by omega)
            have hend : pos + line.length + 2 + (d - (line.length + 2)) = pos + d := by omega
            rwa [hend] at hnext

section Head

variable {head : Bytes} {e : Nat} (hfind : findCrlfcrlf head = some e)

include hfind

/-- Behind the request line the loop begins at a line end, with enough passes. -/
theorem request_line_end : ∃ line rest, head = line ++ crlf ++ rest ∧ search crlf head = some line.length ∧
    line.length ≤ e ∧ search (crlf ++ crlf) (crlf ++ rest) = some (e - line.length) ∧ e < head.length := by
  have hlength := search_le hfind
  have hneedle : (crlf ++ crlf).length = 4 := rfl
  obtain ⟨line, rest, htext, hfound, hle, hrest⟩ := first_line_end hfind
  exact ⟨line, rest, htext, hfound, hle, hrest, by omega⟩

/-- **The scan ends in the head**: it rejects in front of the empty line, or stops there. -/
theorem scanFirstLine_ends :
    (∃ pos < e + 2, scanFirstLine head = .rejects pos) ∨ scanFirstLine head = .stops (e + 2) := by
  obtain ⟨line, rest, rfl, hfound, hle, hrest, hlong⟩ := request_line_end hfind
  have hdrop : (line ++ crlf ++ rest).drop (line.length + 2) = rest :=
    List.drop_left' (by rw [List.length_append]; rfl)
  have hrejects : ∃ pos < e + 2, LineScan.rejects line.length = .rejects pos := ⟨_, by omega, rfl⟩
  unfold scanFirstLine
  rw [hfound]
  simp only [hdrop]
  by_cases hlen : line.length = 0 ∨ 256 < line.length
  · rw [if_pos hlen]
    exact Or.inl hrejects
  rw [if_neg hlen]
  cases scanRequestLine ((line ++ crlf ++ rest).take line.length) with
  | none => exact Or.inl hrejects
  | some words =>
      obtain ⟨method, uri, version⟩ := words
      simp only
      by_cases hversion : version ≠ ascii "HTTP/1.1"
      · rw [if_pos hversion]
        exact Or.inl hrejects
      rw [if_neg hversion]
      have hends := (@scanHeaderLines_head (line ++ crlf ++ rest).length (line ++ crlf ++ rest).length
        (line.length + 2) _ _ [] hrest (by omega) (by omega)).2
      have hend : line.length + 2 + (e - line.length) = e + 2 := by omega
      rwa [hend] at hends

/-- The request line and the headers are read the same with anything behind the head. -/
theorem checkFirstLine_ignores (more : Bytes) : checkFirstLine (head ++ more) = checkFirstLine head := by
  obtain ⟨line, rest, rfl, hfound, hle, hrest, hlong⟩ := request_line_end hfind
  have hcrlf : (line ++ crlf).length = line.length + 2 := by rw [List.length_append]; rfl
  have htake : ∀ more : Bytes, (line ++ crlf ++ more).take line.length = line := by
    intro more
    rw [List.append_assoc, List.take_left]
  have hlines : checkHeaderLines (line ++ crlf ++ rest ++ more).length (rest ++ more)
      = checkHeaderLines (line ++ crlf ++ rest).length rest := by
    have hlonger := (List.prefix_append (line ++ crlf ++ rest) more).length_le
    have hscan := (@scanHeaderLines_head (line ++ crlf ++ rest ++ more).length (line ++ crlf ++ rest).length
      0 _ _ more hrest (by omega) (by omega)).1
    rw [checkHeaderLines_scan _ 0, checkHeaderLines_scan _ 0, hscan]
  have hfoundMore := search_append hfound more
  rw [List.append_assoc (line ++ crlf)] at hfoundMore hlines ⊢
  unfold checkFirstLine
  rw [hfoundMore, hfound]
  simp only [htake, List.drop_left' hcrlf, hlines]

/-- **The second pass over the headers never changes the code.** -/
theorem checkAfterFirstLine_eq (code : Nat) : checkAfterFirstLine head code = code := by
  obtain ⟨line, rest, rfl, hfound, -, hrest, -⟩ := request_line_end hfind
  have hcrlf : (line ++ crlf).length = line.length + 2 := by rw [List.length_append]; rfl
  unfold checkAfterFirstLine
  rw [hfound]
  simp only [List.drop_left' hcrlf]
  by_cases hshort : rest.length < 2
  · rw [if_pos hshort]
  rw [if_neg hshort]
  rcases next_line_end hrest with ⟨-, hempty⟩ | ⟨_, _, _, _, hnext, _⟩
  · have hnext : search crlf rest = some 0 :=
      search_eq_some.mpr ⟨Nat.zero_le _, hempty, fun j hj => absurd hj (Nat.not_lt_zero j)⟩
    rw [hnext]
  · rw [hnext]

/-- The verdict, and what is copied to `request_uri`, come from the head. -/
theorem checkHeader_ignores (more : Bytes) : checkHeader (head ++ more) = checkHeader head := by
  unfold checkHeader
  rw [checkFirstLine_ignores hfind]
  simp only [checkAfterFirstLine_eq hfind, checkAfterFirstLine_eq (search_append hfind more)]

end Head

/-- **The verdict does not depend on the body.** -/
theorem verdict_ignores_body {buf : Bytes} {e : Nat} (hfind : findCrlfcrlf buf = some e) :
    (∀ more more' : Bytes, checkHeader (buf.take (e + 4) ++ more) = checkHeader (buf.take (e + 4) ++ more')) ∧
      ((∃ pos < e + 4, scanFirstLine buf = .rejects pos) ∨ scanFirstLine buf = .stops (e + 2)) ∧
      ((checkFirstLine buf).1 = 400 ↔ ∃ pos, scanFirstLine buf = .rejects pos) ∧
      ∀ code, checkAfterFirstLine buf code = code := by
  have hneedle : (crlf ++ crlf).length = 4 := rfl
  have hhead : findCrlfcrlf (buf.take (e + 4)) = some e := search_take hfind (by omega)
  refine ⟨?_, ?_, checkFirstLine_rejects_iff buf, checkAfterFirstLine_eq hfind⟩
  · intro more more'
    rw [checkHeader_ignores hhead, checkHeader_ignores hhead]
  · rcases scanFirstLine_ends hfind with ⟨pos, hpos, hrejects⟩ | hstops
    · exact Or.inl ⟨pos, by omega, hrejects⟩
    · exact Or.inr hstops

/-- A header with a carriage return and a line feed of its own. -/
def strayHead : Bytes := ascii "GET /a HTTP/1.1\r\nA: \rb\nc\r\n\r\n"

theorem stray_head_ignores_body : findCrlfcrlf strayHead = some 24 ∧ scanFirstLine strayHead = .stops 26 ∧
    checkHeader (strayHead.take 28 ++ ascii "\r\n\r\n") = checkHeader (strayHead.take 28 ++ []) := by
  have hfind : findCrlfcrlf strayHead = some 24 := by decide +kernel
  exact ⟨hfind, by decide +kernel, (verdict_ignores_body hfind).1 _ _⟩

end ChordDht.Tcp
