/-
Requests as clients write them, and what the checks make of them.

A request is a request line and header lines; whatever follows the empty line is the
body, and the checks do not look at it.  `checkHeader_head` says that a request in good
form gets the code of its method and leaves its URI in `request_uri`, whatever follows.
-/
import ChordDht.Lib.Lines
import ChordDht.Tcp.MessageHandler

namespace ChordDht.Tcp

/-- A header line: its name and its value. -/
structure Field where
  name : Bytes
  value : Bytes
  deriving DecidableEq, Repr

def Field.line (f : Field) : Bytes := f.name ++ 58 :: 32 :: f.value

/-- `Name: value`, with neither of them empty, and not too long. -/
structure Field.Valid (f : Field) : Prop where
  name : f.name ≠ [] ∧ (58 : UInt8) ∉ f.name ∧ (13 : UInt8) ∉ f.name ∧ (0 : UInt8) ∉ f.name
  value : f.value ≠ [] ∧ (13 : UInt8) ∉ f.value ∧ (0 : UInt8) ∉ f.value
  short : f.line.length < 511

/-- A word of the request line. -/
def Word (w : Bytes) : Prop := w ≠ [] ∧ ∀ b ∈ w, isSpace b = false ∧ b ≠ 0

instance (w : Bytes) : Decidable (Word w) := by
  unfold Word; infer_instance

structure RequestText where
  method : Bytes
  uri : Bytes
  fields : List Field
  deriving DecidableEq, Repr

namespace RequestText

variable (r : RequestText)

def requestLine : Bytes := r.method ++ 32 :: (r.uri ++ 32 :: ascii "HTTP/1.1")

/-- The text up to the body. -/
def head : Bytes := unlines (r.requestLine :: r.fields.map Field.line) ++ crlf

structure Valid : Prop where
  method : Word r.method ∧ r.method.length ≤ 15
  uri : Word r.uri ∧ r.uri.length ≤ 255
  short : r.requestLine.length ≤ 256
  fields : ∀ f ∈ r.fields, f.Valid

end RequestText

/-! ### The request line -/

theorem Word.cr_notMem {w : Bytes} (h : Word w) : (13 : UInt8) ∉ w := by
  intro hmem
  exact absurd (h.2 13 hmem).1 (by decide)

theorem Word.zero_notMem {w : Bytes} (h : Word w) : (0 : UInt8) ∉ w := fun hmem => (h.2 0 hmem).2 rfl

/-- Blanks in front of a word are skipped. -/
theorem scanString_blank (width : Nat) (s : Bytes) : scanString width (32 :: s) = scanString width s := rfl

/-- A word is read up to the blank behind it. -/
theorem scanString_word {w : Bytes} (hw : Word w) {width : Nat} (hlen : w.length ≤ width) {rest : Bytes}
    (hrest : ∀ b ∈ rest.head?, isSpace b = true) : scanString width (w ++ rest) = some (w, rest) := by
  obtain ⟨hne, hall⟩ := hw
  obtain ⟨b, w', hb⟩ := List.exists_cons_of_ne_nil hne
  have hdrop : (w ++ rest).dropWhile isSpace = w ++ rest := by
    have hfirst : isSpace b = false := (hall b (by rw [hb]; exact List.mem_cons_self ..)).1
    rw [hb, List.cons_append, List.dropWhile_cons, hfirst]
    rfl
  have hword : ((w ++ rest).take width).takeWhile (fun b => !isSpace b) = w := by
    rw [List.take_append, List.take_of_length_le hlen, List.takeWhile_append_of_pos]
    · cases rest with
      | nil => simp
      | cons c rest =>
          have hc : isSpace c = true := hrest c rfl
          cases width - w.length with
          | zero => simp
          | succ n => simp [hc]
    · intro c hc
      simp [(hall c hc).1]
  simp only [scanString, hdrop, hword, hne, if_false, List.drop_left]

namespace RequestText

variable {r : RequestText}

theorem requestLine_ne_nil (r : RequestText) : r.requestLine ≠ [] := by
  simp [requestLine]

theorem Valid.requestLine_cr (h : r.Valid) : (13 : UInt8) ∉ r.requestLine := by
  have hversion : (13 : UInt8) ∉ ascii "HTTP/1.1" := by decide
  simp [requestLine, h.method.1.cr_notMem, h.uri.1.cr_notMem, hversion]

theorem Valid.requestLine_zero (h : r.Valid) : (0 : UInt8) ∉ r.requestLine := by
  have hversion : (0 : UInt8) ∉ ascii "HTTP/1.1" := by decide
  simp [requestLine, h.method.1.zero_notMem, h.uri.1.zero_notMem, hversion]

theorem scanRequestLine_requestLine (h : r.Valid) :
    scanRequestLine r.requestLine = some (r.method, r.uri, ascii "HTTP/1.1") := by
  have hblank : ∀ (s : Bytes), ∀ b ∈ (32 :: s).head?, isSpace b = true := by
    intro s b hb
    rw [← Option.some.inj hb]
    rfl
  have hversion : Word (ascii "HTTP/1.1") := by decide +kernel
  have hlast := @scanString_word _ hversion 15 (by decide) [] (fun b hb => nomatch hb)
  rw [List.append_nil] at hlast
  have huri := @scanString_word _ h.uri.1 255 h.uri.2 (32 :: ascii "HTTP/1.1") (hblank _)
  have hmethod := @scanString_word _ h.method.1 15 h.method.2 (32 :: (r.uri ++ 32 :: ascii "HTTP/1.1"))
    (hblank _)
  unfold scanRequestLine
  rw [cstr_eq_self h.requestLine_zero, requestLine, hmethod]
  simp only [Option.bind_eq_bind, Option.bind_some, scanString_blank, huri, hlast]
  rfl

end RequestText

/-! ### The header lines -/

namespace Field

variable {f : Field}

theorem line_ne_nil (f : Field) : f.line ≠ [] := by
  simp [line]

theorem Valid.line_cr (h : f.Valid) : (13 : UInt8) ∉ f.line := by
  simp [line, h.name.2.2.1, h.value.2.1]

theorem Valid.line_zero (h : f.Valid) : (0 : UInt8) ∉ f.line := by
  simp [line, h.name.2.2.2, h.value.2.2]

theorem headerLineOk_line (h : f.Valid) : headerLineOk f.line = true := by
  obtain ⟨v, vs, hvalue⟩ := List.exists_cons_of_ne_nil h.value.1
  have hv : v ≠ 0 := by
    intro hc
    exact h.value.2.2 (by rw [hvalue, hc]; exact List.mem_cons_self ..)
  have hcolon : f.line.findIdx? (· == 58) = some f.name.length := by
    have hfind := @memchr_append_of_notMem f.name (32 :: f.value) 58 f.line.length h.name.2.1
      (by simp [line])
    rwa [memchr, ← line, List.take_length] at hfind
  have hpos : f.name.length ≠ 0 := fun hc => h.name.1 (List.length_eq_zero_iff.mp hc)
  have hone : f.line.getD (f.name.length + 1) 0 = 32 := by
    simp [line]
  have htwo : f.line.getD (f.name.length + 2) 0 = v := by
    simp [line, hvalue]
  unfold headerLineOk
  simp only [cstr_eq_self h.line_zero, hcolon, hone, htwo]
  simp [hpos, hv]

end Field

/-- The header lines are in order, up to the empty one. -/
theorem checkHeaderLines_fields (rest : Bytes) : ∀ (fields : List Field) {fuel : Nat},
    (∀ f ∈ fields, f.Valid) →
      checkHeaderLines fuel (unlines (fields.map Field.line) ++ crlf ++ rest) = true := by
  intro fields
  induction fields with
  | nil =>
      intro fuel _
      cases fuel with
      | zero => rfl
      | succ fuel =>
          have hend : search crlf (crlf ++ rest) = some 0 := @search_crlf [] List.not_mem_nil rest
          rw [List.map_nil, unlines_nil, List.nil_append, checkHeaderLines, hend]
          simp
  | cons f fs ih =>
      intro fuel hvalid
      cases fuel with
      | zero => rfl
      | succ fuel =>
          have hf := hvalid f (List.mem_cons_self ..)
          have hrest := @ih fuel fun g hg => hvalid g (List.mem_cons_of_mem _ hg)
          obtain ⟨n, hn⟩ : ∃ n, f.line.length = n + 1 :=
            ⟨f.line.length - 1, by have := List.length_pos_iff.mpr f.line_ne_nil; omega⟩
          have htext : unlines ((f :: fs).map Field.line) ++ crlf ++ rest
              = f.line ++ crlf ++ (unlines (fs.map Field.line) ++ crlf ++ rest) := by
            rw [List.map_cons, unlines_cons]
            simp only [List.append_assoc]
          have hfind := search_crlf hf.line_cr (unlines (fs.map Field.line) ++ crlf ++ rest)
          have htake : (f.line ++ crlf ++ (unlines (fs.map Field.line) ++ crlf ++ rest)).take (n + 1)
              = f.line := by
            rw [List.append_assoc, ← hn, List.take_left]
          have hdrop : (f.line ++ crlf ++ (unlines (fs.map Field.line) ++ crlf ++ rest)).drop (n + 1 + 2)
              = unlines (fs.map Field.line) ++ crlf ++ rest := by
            rw [List.drop_left']
            rw [List.length_append, hn]
            rfl
          have hlong : ¬ (f.line ++ crlf ++ (unlines (fs.map Field.line) ++ crlf ++ rest)).length < 2 := by
            simp [crlf]
            omega
          have hshort : ¬ 511 ≤ n + 1 := by
            have h := hf.short
            omega
          rw [hn] at hfind
          rw [htext, checkHeaderLines]
          simp only [hlong, if_false, hfind, hshort, htake, hdrop, Field.headerLineOk_line hf, hrest,
            Bool.and_self]

/-! ### The whole head -/

namespace RequestText

variable {r : RequestText}

/-- The code of the method, and what is copied to `request_uri` with it. -/
def verdict (r : RequestText) : Nat × Option Bytes :=
  if r.method = ascii "GET" then (1000, some r.uri)
  else if r.method = ascii "PUT" then (1001, some r.uri)
  else if r.method = ascii "DELETE" then (1002, some r.uri)
  else (501, none)

theorem verdict_ne (r : RequestText) : r.verdict.1 ≠ 400 := by
  unfold verdict
  split
  · show (1000 : Nat) ≠ 400
    decide
  · split
    · show (1001 : Nat) ≠ 400
      decide
    · split
      · show (1002 : Nat) ≠ 400
        decide
      · show (501 : Nat) ≠ 400
        decide

theorem head_eq (r : RequestText) :
    r.head = r.requestLine ++ crlf ++ (unlines (r.fields.map Field.line) ++ crlf) := by
  rw [head, unlines_cons]
  simp only [List.append_assoc]

theorem Valid.lines (h : r.Valid) :
    ∀ l ∈ r.requestLine :: r.fields.map Field.line, l ≠ [] ∧ (13 : UInt8) ∉ l := by
  intro l hl
  rcases List.mem_cons.mp hl with rfl | hl
  · exact ⟨r.requestLine_ne_nil, h.requestLine_cr⟩
  · obtain ⟨f, hf, rfl⟩ := List.mem_map.mp hl
    exact ⟨f.line_ne_nil, (h.fields f hf).line_cr⟩

/-- The headers end where they should. -/
theorem findCrlfcrlf_head (h : r.Valid) (rest : Bytes) :
    ∃ headerEnd, findCrlfcrlf (r.head ++ rest) = some headerEnd ∧ headerEnd + 4 = r.head.length := by
  refine ⟨_, search_crlf_crlf h.lines, ?_⟩
  have hlen : 2 ≤ (unlines (r.requestLine :: r.fields.map Field.line)).length := by
    rw [unlines_cons, List.length_append, List.length_append]
    simp [crlf]
    omega
  rw [head, List.length_append]
  show _ - 2 + 4 = _ + 2
  omega

/-- The message, taken apart behind the request line. -/
theorem request_line_first (h : r.Valid) (rest : Bytes) :
    search crlf (r.head ++ rest) = some r.requestLine.length ∧
      (r.head ++ rest).take r.requestLine.length = r.requestLine ∧
      (r.head ++ rest).drop (r.requestLine.length + 2)
        = unlines (r.fields.map Field.line) ++ crlf ++ rest := by
  have htext : r.head ++ rest
      = r.requestLine ++ crlf ++ (unlines (r.fields.map Field.line) ++ crlf ++ rest) := by
    rw [head_eq]
    simp only [List.append_assoc]
  rw [htext]
  refine ⟨search_crlf h.requestLine_cr _, ?_, ?_⟩
  · rw [List.append_assoc, List.take_left]
  · rw [List.drop_left']
    rw [List.length_append]
    rfl

theorem checkFirstLine_head (h : r.Valid) (rest : Bytes) :
    checkFirstLine (r.head ++ rest) = r.verdict := by
  obtain ⟨hfind, htake, hdrop⟩ := request_line_first h rest
  have hlen : ¬ (r.requestLine.length = 0 ∨ 256 < r.requestLine.length) := by
    have hpos := List.length_pos_iff.mpr r.requestLine_ne_nil
    have hshort := h.short
    omega
  unfold checkFirstLine
  simp only [hfind, hlen, if_false, htake, hdrop, scanRequestLine_requestLine h, ne_eq,
    not_true_eq_false, checkHeaderLines_fields rest r.fields h.fields, Bool.true_eq_false]
  rfl

theorem checkAfterFirstLine_head (h : r.Valid) (rest : Bytes) (code : Nat) :
    checkAfterFirstLine (r.head ++ rest) code = code := by
  obtain ⟨hfind, -, hdrop⟩ := request_line_first h rest
  -- behind the request line there is another line, if only the empty one
  obtain ⟨line, more, hline, hmore⟩ : ∃ line more, (13 : UInt8) ∉ line ∧
      unlines (r.fields.map Field.line) ++ crlf ++ rest = line ++ crlf ++ more := by
    cases hfields : r.fields with
    | nil => exact ⟨[], rest, List.not_mem_nil, rfl⟩
    | cons f fs =>
        refine ⟨f.line, unlines (fs.map Field.line) ++ crlf ++ rest, ?_, ?_⟩
        · exact (h.fields f (by rw [hfields]; exact List.mem_cons_self ..)).line_cr
        · rw [List.map_cons, unlines_cons]
          simp only [List.append_assoc]
  unfold checkAfterFirstLine
  simp only [hfind, hdrop, hmore, search_crlf hline, ite_self]

/-- **A request in good form** gets the code of its method, whatever follows its head. -/
theorem checkHeader_head (h : r.Valid) (rest : Bytes) : checkHeader (r.head ++ rest) = r.verdict := by
  unfold checkHeader
  simp only [checkFirstLine_head h, r.verdict_ne, if_false, checkAfterFirstLine_head h]

end RequestText

end ChordDht.Tcp
