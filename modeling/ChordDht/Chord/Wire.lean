/-
Requests as clients write them, and what the parser makes of a whole one.

`RequestText` is a request line, header lines and a payload; `ClientRequest` is one
that is well formed, so that a malformed request cannot be built.  Its payload is as long
as the header says that has the name `Content-Length`, in whatever case.  The server goes
by the first header whose name is a beginning of `Content-Length`, and by the number that
`strtoul` finds from its value on, line ends skipped; a request it reads as it was meant
is `Measured`.

`parseRequest_wire` says that such a request at the front of the buffer is parsed into
its own fields.
-/
import ChordDht.Lib.Lines
import ChordDht.Chord.InPlace
import ChordDht.Chord.Webserver

namespace ChordDht.Chord

structure RequestText where
  method : Bytes
  uri : Bytes
  version : Bytes
  headers : List Header
  payload : Bytes
  deriving DecidableEq, Repr

/-- A header line without its end. -/
def Header.line (h : Header) : Bytes := h.key ++ 58 :: h.value

/-- The name is `Content-Length`, in upper or lower case. -/
def Header.isContentLength (h : Header) : Bool :=
  (h.key.map fun b => if 65 ≤ b && b ≤ 90 then b + 32 else b) == ascii "content-length"

/-- Behind blanks the text begins with the digits of `n`, and they end. -/
def Reads (text : Bytes) (n : Nat) : Prop :=
  ∃ blanks digits rest, text = blanks ++ digits ++ rest ∧ (∀ b ∈ blanks, b = 32 ∨ b = 9) ∧ digits ≠ [] ∧
    (∀ d ∈ digits, isDigit d = true) ∧ isDigit (rest.headD 0) = false ∧ digitsValue digits = n

namespace RequestText

variable (r : RequestText)

def requestLine : Bytes := r.method ++ 32 :: (r.uri ++ 32 :: r.version)

/-- The lines up to the payload; the last one is empty. -/
def lines : List Bytes := r.requestLine :: (r.headers.map Header.line ++ [[]])

def head : Bytes := unlines r.lines

def wire : Bytes := r.head ++ r.payload

structure WellFormed : Prop where
  method : (32 : UInt8) ∉ r.method ∧ (13 : UInt8) ∉ r.method ∧ (0 : UInt8) ∉ r.method
  uri : (32 : UInt8) ∉ r.uri ∧ (13 : UInt8) ∉ r.uri ∧ (0 : UInt8) ∉ r.uri
  version : (13 : UInt8) ∉ r.version
  keys : ∀ h ∈ r.headers, (58 : UInt8) ∉ h.key ∧ (13 : UInt8) ∉ h.key ∧ (0 : UInt8) ∉ h.key
  values : ∀ h ∈ r.headers, (13 : UInt8) ∉ h.value ∧ (0 : UInt8) ∉ h.value
  payload : match r.headers.find? Header.isContentLength with
    | some h => Reads h.value r.payload.length
    | none => r.payload = []
  fits : r.wire.length ≤ httpMaxSize

end RequestText

structure ClientRequest extends RequestText where
  wellFormed : toRequestText.WellFormed

/-- The request as the parser hands it on, with `rest` behind the payload in memory. -/
def ClientRequest.parsed (r : ClientRequest) (rest : Bytes) : Request :=
  ⟨some r.method, some r.uri, r.headers, r.payload ++ rest, r.payload.length⟩

/-! ### Lines of a request -/

def headerText (hs : List Header) : Bytes := unlines (hs.map Header.line)

theorem headerText_cons (h : Header) (hs : List Header) :
    headerText (h :: hs) = h.line ++ crlf ++ headerText hs := unlines_cons ..

theorem Header.line_length (h : Header) : h.line.length = h.key.length + 1 + h.value.length := by
  simp only [Header.line, List.length_append, List.length_cons]
  omega

theorem crlf_length : crlf.length = 2 := rfl

theorem RequestText.requestLine_length (r : RequestText) :
    r.requestLine.length = r.method.length + r.uri.length + r.version.length + 2 := by
  simp only [requestLine, List.length_append, List.length_cons]
  omega

/-- The head: the request line, the header lines, the empty line. -/
theorem RequestText.head_eq (r : RequestText) :
    r.head = r.requestLine ++ crlf ++ (headerText r.headers ++ crlf) := by
  rw [head, lines, unlines_cons, unlines_append, headerText]
  simp [unlines]

/-- What the parser needs to know of a list of header lines. -/
def HeadersClean (hs : List Header) : Prop :=
  ∀ h ∈ hs, ((58 : UInt8) ∉ h.key ∧ (13 : UInt8) ∉ h.key ∧ (0 : UInt8) ∉ h.key) ∧
    (13 : UInt8) ∉ h.value ∧ (0 : UInt8) ∉ h.value

/-- What the scan of the lines needs to know of them: where each ends, and where its name does. -/
def HeadersPlain (hs : List Header) : Prop :=
  ∀ h ∈ hs, ((58 : UInt8) ∉ h.key ∧ (13 : UInt8) ∉ h.key) ∧ (13 : UInt8) ∉ h.value

theorem HeadersClean.plain {hs : List Header} (hclean : HeadersClean hs) : HeadersPlain hs := by
  intro h hh
  obtain ⟨⟨hcolon, hkey, -⟩, hvalue, -⟩ := hclean h hh
  exact ⟨⟨hcolon, hkey⟩, hvalue⟩

theorem HeadersPlain.tail {h : Header} {hs : List Header} (hplain : HeadersPlain (h :: hs)) :
    HeadersPlain hs := fun h' hh' => hplain h' (List.mem_cons_of_mem _ hh')

theorem ClientRequest.headersClean (r : ClientRequest) : HeadersClean r.headers :=
  fun h hh => ⟨r.wellFormed.keys h hh, r.wellFormed.values h hh⟩

theorem HeadersPlain.line {hs : List Header} (hplain : HeadersPlain hs) {h : Header} (hh : h ∈ hs) :
    (13 : UInt8) ∉ h.line := by
  obtain ⟨⟨-, hkey⟩, hvalue⟩ := hplain h hh
  simp [Header.line, hkey, hvalue]

namespace RequestText

/-- What the scan of a head needs to know of it. -/
structure Plain (r : RequestText) : Prop where
  method : (32 : UInt8) ∉ r.method ∧ (13 : UInt8) ∉ r.method
  uri : (32 : UInt8) ∉ r.uri ∧ (13 : UInt8) ∉ r.uri
  version : (13 : UInt8) ∉ r.version
  headers : HeadersPlain r.headers

/-- No string of the request ends early. -/
structure ZeroFree (r : RequestText) : Prop where
  method : (0 : UInt8) ∉ r.method
  uri : (0 : UInt8) ∉ r.uri
  headers : ∀ h ∈ r.headers, (0 : UInt8) ∉ h.key ∧ (0 : UInt8) ∉ h.value

theorem Plain.requestLine {r : RequestText} (h : r.Plain) : (13 : UInt8) ∉ r.requestLine := by
  simp [RequestText.requestLine, h.method.2, h.uri.2, h.version]

end RequestText

theorem ClientRequest.plain (r : ClientRequest) : r.Plain :=
  ⟨⟨r.wellFormed.method.1, r.wellFormed.method.2.1⟩, ⟨r.wellFormed.uri.1, r.wellFormed.uri.2.1⟩,
    r.wellFormed.version, r.headersClean.plain⟩

theorem ClientRequest.zeroFree (r : ClientRequest) : r.ZeroFree :=
  ⟨r.wellFormed.method.2.2, r.wellFormed.uri.2.2,
    fun h hh => ⟨(r.wellFormed.keys h hh).2.2, (r.wellFormed.values h hh).2⟩⟩

theorem ClientRequest.lines_clean (r : ClientRequest) : ∀ line ∈ r.lines, (13 : UInt8) ∉ line := by
  intro line hline
  rw [RequestText.lines, List.mem_cons, List.mem_append, List.mem_map] at hline
  rcases hline with rfl | ⟨h, hh, rfl⟩ | hempty
  · exact r.plain.requestLine
  · exact r.plain.headers.line hh
  · rw [List.mem_singleton.mp hempty]
    exact List.not_mem_nil

/-! ### The request line -/

theorem parseRequestLine_wire {r : RequestText} (hr : r.Plain) (rest : Bytes) :
    parseRequestLine (r.requestLine ++ rest) 0 r.requestLine.length
      = some (⟨0, r.method.length⟩, ⟨r.method.length + 1, r.uri.length⟩) := by
  have hlen := r.requestLine_length
  have hmethod : memchr (r.requestLine ++ rest) 32 r.requestLine.length = some r.method.length := by
    rw [RequestText.requestLine, List.append_assoc, List.cons_append]
    refine memchr_append_of_notMem hr.method.1 ?_
    rw [← RequestText.requestLine]
    omega
  have hdrop : (r.requestLine ++ rest).drop (r.method.length + 1)
      = r.uri ++ 32 :: (r.version ++ rest) := by
    rw [RequestText.requestLine, List.append_assoc, ← List.drop_drop,
      List.drop_left' rfl]
    simp
  have huri : memchr (r.uri ++ 32 :: (r.version ++ rest)) 32
      (r.requestLine.length - (r.method.length + 1)) = some r.uri.length :=
    memchr_append_of_notMem hr.uri.1 (by omega)
  simp only [parseRequestLine, List.drop_zero, hmethod, Nat.zero_add, hdrop, huri]

/-! ### The header lines -/

/-- Where the names and values of header lines from offset `pos` on are. -/
def headerSpans : Nat → List Header → List (NonString × NonString)
  | _, [] => []
  | pos, h :: hs =>
      (⟨pos, h.key.length⟩, ⟨pos + h.key.length + 1, h.value.length⟩)
        :: headerSpans (pos + h.line.length + 2) hs

theorem headerSpans_length : ∀ (hs : List Header) (pos : Nat),
    (headerSpans pos hs).length = hs.length := by
  intro hs
  induction hs with
  | nil => intro pos; rfl
  | cons h hs ih => intro pos; rw [headerSpans, List.length_cons, ih, List.length_cons]

/-- A header line is split at its colon. -/
theorem parseHeader_line {h : Header} (hkey : (58 : UInt8) ∉ h.key) (pre rest : Bytes) :
    parseHeader (pre ++ (h.line ++ rest)) pre.length h.line.length
      = some (⟨pre.length, h.key.length⟩, ⟨pre.length + h.key.length + 1, h.value.length⟩) := by
  have hlen := h.line_length
  have hcolon : memchr (h.line ++ rest) 58 h.line.length = some h.key.length := by
    rw [Header.line, List.append_assoc, List.cons_append]
    refine memchr_append_of_notMem hkey ?_
    rw [← Header.line]
    omega
  have hvalue : h.line.length - (h.key.length + 1) = h.value.length := by omega
  simp only [parseHeader, List.drop_left, hcolon, hvalue]

theorem headerText_length (h : Header) (hs : List Header) :
    (headerText (h :: hs)).length = h.line.length + 2 + (headerText hs).length := by
  rw [headerText_cons, List.length_append, List.length_append, crlf_length]

/-- The lines from the second one on are those behind a longer text. -/
theorem headerText_shift (h : Header) (hs : List Header) (pre rest : Bytes) :
    pre ++ (headerText (h :: hs) ++ rest) = (pre ++ (h.line ++ crlf)) ++ (headerText hs ++ rest) ∧
      (pre ++ (h.line ++ crlf)).length = pre.length + h.line.length + 2 := by
  refine ⟨?_, ?_⟩
  · rw [headerText_cons]
    simp only [List.append_assoc]
  · rw [List.length_append, List.length_append, crlf_length]
    omega

/-- The first of the header lines is found, and split. -/
theorem headerLine_found {h : Header} {hs : List Header} (hplain : HeadersPlain (h :: hs)) (pre rest : Bytes)
    {n : Nat} (hn : pre.length + (headerText (h :: hs)).length ≤ n) :
    memstr ((pre ++ (headerText (h :: hs) ++ rest)).drop pre.length) (n - pre.length) crlf
        = .returns (some h.line.length) ∧ 0 < h.line.length ∧
      parseHeader (pre ++ (headerText (h :: hs) ++ rest)) pre.length h.line.length
        = some (⟨pre.length, h.key.length⟩, ⟨pre.length + h.key.length + 1, h.value.length⟩) := by
  obtain ⟨⟨hcolon, -⟩, -⟩ := hplain h (List.mem_cons_self ..)
  have hlen := headerText_length h hs
  refine ⟨?_, by rw [h.line_length]; omega, ?_⟩
  · rw [List.drop_left, headerText_cons, List.append_assoc]
    exact memstr_line (hplain.line (List.mem_cons_self ..)) (by omega)
  · have hheader := parseHeader_line hcolon pre (crlf ++ (headerText hs ++ rest))
    rw [headerText_cons, List.append_assoc, List.append_assoc]
    exact hheader

/-- **Whole header lines are scanned one by one**, up to what stands behind them. -/
theorem scanHeaders_lines : ∀ (hs : List Header), HeadersPlain hs →
    ∀ (pre rest : Bytes) (n fuel : Nat) (acc : List (NonString × NonString)),
      pre.length + (headerText hs).length ≤ n → acc.length + hs.length ≤ httpMaxHeaders + 1 →
      scanHeaders (pre ++ (headerText hs ++ rest)) n (fuel + hs.length) pre.length acc
        = scanHeaders (pre ++ (headerText hs ++ rest)) n fuel (pre.length + (headerText hs).length)
            (acc ++ headerSpans pre.length hs) := by
  intro hs
  induction hs with
  | nil =>
      intro _ pre rest n fuel acc _ _
      rw [headerSpans, List.append_nil]
      rfl
  | cons h hs ih =>
      intro hplain pre rest n fuel acc hn hcount
      obtain ⟨hfound, hpos, hheader⟩ := headerLine_found hplain pre rest hn
      obtain ⟨hmem, hpre⟩ := headerText_shift h hs pre rest
      have hlen := headerText_length h hs
      have hcheck : ¬ httpMaxHeaders < acc.length := by
        rw [List.length_cons] at hcount
        omega
      have hne : ¬ some h.line.length = some 0 := by
        intro hc
        injection hc with hc
        omega
      have hfuel : fuel + (h :: hs).length = (fuel + hs.length) + 1 := by
        rw [List.length_cons]
        omega
      rw [hfuel, scanHeaders, hfound]
      simp only [Outcome.returns_bind, hne, if_false, hcheck, hheader, crlf_length]
      rw [hmem, ← hpre, ih hplain.tail (pre ++ (h.line ++ crlf)) rest n fuel _ (by omega) (by
        rw [List.length_append, List.length_singleton]
        rw [List.length_cons] at hcount
        omega)]
      have hend : pre.length + h.line.length + 2 + (headerText hs).length
          = pre.length + (headerText (h :: hs)).length := by omega
      rw [hpre, hend, headerSpans, List.append_assoc acc, List.singleton_append]

/-- Behind the last header line stands the empty one. -/
theorem scanHeaders_done (pre rest : Bytes) {n : Nat} (fuel : Nat)
    (acc : List (NonString × NonString)) (hn : pre.length + 2 ≤ n) :
    scanHeaders (pre ++ (crlf ++ rest)) n (fuel + 1) pre.length acc
      = .returns (.complete acc (pre.length + 2)) := by
  have hfound : memstr ((pre ++ (crlf ++ rest)).drop pre.length) (n - pre.length) crlf
      = .returns (some 0) := by
    rw [List.drop_left]
    exact @memstr_line [] rest _ List.not_mem_nil (by simp only [List.length_nil]; omega)
  rw [scanHeaders, hfound]
  simp [crlf_length]

/-! ### The announced length -/

/-- The name test on the bytes of the name. -/
def Header.announces (h : Header) : Bool := strncmp h.key (ascii "Content-Length") h.key.length

/-- Where the length is read: the text from the value of the first header that is taken for
`Content-Length` on, the lines behind it and `rest` included. -/
def lengthText : List Header → Bytes → Option Bytes
  | [], _ => none
  | h :: hs, rest =>
      if h.announces then some (h.value ++ crlf ++ (headerText hs ++ rest)) else lengthText hs rest

/-- The length lookup over header lines. -/
theorem lookupLength_lines : ∀ (hs : List Header) (pre rest : Bytes) (unset : Int),
    lookupLength (pre ++ (headerText hs ++ rest)) (headerSpans pre.length hs) unset
      = (lengthText hs rest).elim unset fun text => toSsize (strtoul text) := by
  intro hs
  induction hs with
  | nil => intro pre rest unset; rfl
  | cons h hs ih =>
      intro pre rest unset
      obtain ⟨hmem, hpre⟩ := headerText_shift h hs pre rest
      have htest : announcesLength (pre ++ (headerText (h :: hs) ++ rest))
          (⟨pre.length, h.key.length⟩, ⟨pre.length + h.key.length + 1, h.value.length⟩)
            = h.announces := by
        rw [announcesLength, List.drop_left, headerText_cons, Header.line, Header.announces,
          List.append_assoc, List.append_assoc, List.append_assoc]
        exact strncmp_front h.key _ _
      rw [lookupLength, headerSpans, List.find?_cons, htest, lengthText]
      cases hannounces : h.announces with
      | true =>
          show toSsize (strtoul ((pre ++ (headerText (h :: hs) ++ rest)).drop
            (pre.length + h.key.length + 1))) = _
          rw [headerText_cons, Header.line, Nat.add_assoc, List.drop_length_add_append]
          simp
      | false =>
          have hrest := ih (pre ++ (h.line ++ crlf)) rest unset
          rw [hmem, ← hpre]
          exact hrest

theorem lengthText_eq_none {hs : List Header} (h : ∀ header ∈ hs, header.announces = false) (rest : Bytes) :
    lengthText hs rest = none := by
  induction hs with
  | nil => rfl
  | cons header hs ih =>
      rw [lengthText, h header (List.mem_cons_self ..)]
      exact ih fun header' h' => h header' (List.mem_cons_of_mem _ h')

theorem lengthText_find? {hs : List Header} {h : Header} (hfind : hs.find? Header.announces = some h)
    (rest : Bytes) : ∃ more, lengthText hs rest = some (h.value ++ 13 :: more) := by
  induction hs with
  | nil => cases hfind
  | cons header hs ih =>
      rw [List.find?_cons] at hfind
      rw [lengthText]
      cases hannounces : header.announces with
      | true =>
          rw [hannounces, Option.some.injEq] at hfind
          subst hfind
          exact ⟨10 :: (headerText hs ++ rest), by simp [crlf]⟩
      | false =>
          rw [hannounces] at hfind
          exact ih hfind

/-- Of a name without zero bytes the test sees whether it is a beginning. -/
theorem announces_eq_isPrefixOf {h : Header} (hkey : (0 : UInt8) ∉ h.key) :
    h.announces = h.key.isPrefixOf (ascii "Content-Length") := by
  have hprefix := strncmp_isPrefixOf hkey [] (ascii "Content-Length")
  rw [List.append_nil] at hprefix
  exact hprefix

/-- What stands behind the line does not matter to a number in it. -/
theorem Reads.line {value : Bytes} {n : Nat} (h : Reads value n) (more : Bytes) :
    Reads (value ++ 13 :: more) n := by
  obtain ⟨blanks, digits, rest, rfl, hblanks, hne, hdigits, hrest, hvalue⟩ := h
  refine ⟨blanks, digits, rest ++ 13 :: more, by simp, hblanks, hne, hdigits, ?_, hvalue⟩
  cases rest with
  | nil => rfl
  | cons b rest => exact hrest

/-- The length that is read is the number. -/
theorem Reads.toSsize {text : Bytes} {n : Nat} (h : Reads text n) (hn : n < 2 ^ 63) :
    toSsize (strtoul text) = n := by
  obtain ⟨blanks, digits, rest, rfl, hblanks, hne, hdigits, hrest, hvalue⟩ := h
  have hspace : ∀ b ∈ blanks, isSpace b = true := by
    intro b hb
    rcases hblanks b hb with rfl | rfl <;> rfl
  have hread := strtoul_digits hspace hne hdigits hrest (by omega)
  rw [hread, hvalue, Chord.toSsize, if_pos hn]

/-! ### The strings of a request -/

/-- A header line once its strings have been ended. -/
def endedText (hs : List Header) : Bytes :=
  hs.flatMap fun h => h.key ++ 0 :: (h.value ++ [0, 10])

theorem writeZeros_headers : ∀ (hs : List Header) (pre rest : Bytes),
    writeZeros (pre ++ (headerText hs ++ rest))
        ((headerSpans pre.length hs).flatMap fun h => [h.1.stop, h.2.stop])
      = pre ++ (endedText hs ++ rest) := by
  intro hs
  induction hs with
  | nil => intro pre rest; rfl
  | cons h hs ih =>
      intro pre rest
      have hkey : (pre ++ (headerText (h :: hs) ++ rest)).set (pre.length + h.key.length) 0
          = pre ++ (h.key ++ 0 :: (h.value ++ (13 :: 10 :: (headerText hs ++ rest)))) := by
        rw [headerText_cons, Header.line]
        simp [crlf]
      have hvalue : (pre ++ (h.key ++ 0 :: (h.value ++ (13 :: 10 :: (headerText hs ++ rest))))).set
            (pre.length + h.key.length + 1 + h.value.length) 0
          = (pre ++ (h.key ++ 0 :: (h.value ++ [0, 10]))) ++ (headerText hs ++ rest) := by
        have hset := set_length_append (pre ++ (h.key ++ 0 :: h.value)) 13 0
          (10 :: (headerText hs ++ rest))
        have hlen : (pre ++ (h.key ++ 0 :: h.value)).length
            = pre.length + h.key.length + 1 + h.value.length := by
          simp only [List.length_append, List.length_cons]
          omega
        rw [hlen] at hset
        simpa using hset
      have hpre : (pre ++ (h.key ++ 0 :: (h.value ++ [0, 10]))).length
          = pre.length + h.line.length + 2 := by
        rw [h.line_length]
        simp only [List.length_append, List.length_cons, List.length_nil]
        omega
      have hrest := ih (pre ++ (h.key ++ 0 :: (h.value ++ [0, 10]))) rest
      rw [hpre] at hrest
      rw [headerSpans, List.flatMap_cons, List.cons_append, List.cons_append, List.nil_append,
        writeZeros_cons, writeZeros_cons, NonString.stop, NonString.stop, hkey, hvalue, hrest]
      simp [endedText]

/-- A header as the C strings it is read as. -/
def Header.strings (h : Header) : Header := ⟨cstr h.key, cstr h.value⟩

/-- The names and values are read back, up to their first zero byte. -/
theorem endedText_headers : ∀ (hs : List Header) (pre rest : Bytes),
    ((headerSpans pre.length hs).map fun h => (⟨cstr ((pre ++ (endedText hs ++ rest)).drop h.1.start),
      cstr ((pre ++ (endedText hs ++ rest)).drop h.2.start)⟩ : Header)) = hs.map Header.strings := by
  intro hs
  induction hs with
  | nil => intro pre rest; rfl
  | cons h hs ih =>
      intro pre rest
      have hmem : pre ++ (endedText (h :: hs) ++ rest)
          = (pre ++ (h.key ++ 0 :: (h.value ++ [0, 10]))) ++ (endedText hs ++ rest) := by
        simp [endedText]
      have hpre : (pre ++ (h.key ++ 0 :: (h.value ++ [0, 10]))).length
          = pre.length + h.line.length + 2 := by
        rw [h.line_length]
        simp only [List.length_append, List.length_cons, List.length_nil]
        omega
      have hname : cstr ((pre ++ (endedText (h :: hs) ++ rest)).drop pre.length) = cstr h.key := by
        rw [List.drop_left, endedText, List.flatMap_cons, List.append_assoc, List.append_assoc,
          List.cons_append]
        exact cstr_front h.key _
      have htext : cstr ((pre ++ (endedText (h :: hs) ++ rest)).drop
          (pre.length + h.key.length + 1)) = cstr h.value := by
        have hdrop : (pre ++ (endedText (h :: hs) ++ rest)).drop (pre.length + h.key.length + 1)
            = h.value ++ 0 :: (10 :: (endedText hs ++ rest)) := by
          rw [Nat.add_assoc, List.drop_length_add_append]
          simp [endedText]
        rw [hdrop]
        exact cstr_front h.value _
      have hrest := ih (pre ++ (h.key ++ 0 :: (h.value ++ [0, 10]))) rest
      rw [hpre, ← hmem] at hrest
      rw [headerSpans, List.map_cons, hname, htext, hrest]
      rfl

/-! ### A whole head -/

/-- The payload length that is used: the one read, or zero if that is negative or there is none. -/
def lengthUsed (hs : List Header) (rest : Bytes) : Int :=
  let announced := (lengthText hs rest).elim (-1) fun text => toSsize (strtoul text)
  if announced < 0 then 0 else announced

theorem lengthUsed_nonneg (hs : List Header) (rest : Bytes) : 0 ≤ lengthUsed hs rest := by
  simp only [lengthUsed]
  split <;> omega

theorem lengthUsed_none {hs : List Header} (hfind : hs.find? Header.announces = none) (rest : Bytes) :
    lengthUsed hs rest = 0 := by
  have hnone := List.find?_eq_none.mp hfind
  unfold lengthUsed
  rw [lengthText_eq_none fun h hh => by simpa using hnone h hh]
  rfl

/-- The payload length that a number stands for: it is an unsigned long cut down to a signed
size, and one that is negative then, or was too large for an unsigned long, counts as zero. -/
def sizeOfNumber (negative : Bool) (v : Nat) : Nat :=
  if negative then if 2 ^ 63 < v ∧ v < 2 ^ 64 then 2 ^ 64 - v else 0
  else if v < 2 ^ 63 then v else 0

/-- The number at the front of the text is the payload length `n`. -/
def Says (text : Bytes) (n : Nat) : Prop :=
  ∃ negative digits, Numeral text negative digits ∧ n = sizeOfNumber negative (digitsValue digits)

/-- The payload length that the header lines say, with `rest` behind them: zero if no name is
taken for `Content-Length`. -/
def SaidLength (hs : List Header) (rest : Bytes) (n : Nat) : Prop :=
  match lengthText hs rest with
  | some text => Says text n
  | none => n = 0

theorem says_iff {text : Bytes} {n : Nat} :
    Says text n ↔ (if toSsize (strtoul text) < 0 then 0 else toSsize (strtoul text)) = n := by
  have hvalue : ∀ {negative digits}, Numeral text negative digits →
      (if toSsize (strtoul text) < 0 then 0 else toSsize (strtoul text))
        = sizeOfNumber negative (digitsValue digits) := by
    intro negative digits h
    rw [strtoul_numeral h]
    unfold toSsize sizeOfNumber
    generalize digitsValue digits = v
    cases negative <;> simp only [Bool.false_eq_true, if_true, if_false] <;> split_ifs <;> omega
  constructor
  · rintro ⟨negative, digits, h, rfl⟩
    exact hvalue h
  · intro h
    obtain ⟨negative, digits, hnumeral⟩ := numeral_exists text
    refine ⟨negative, digits, hnumeral, ?_⟩
    have hsame := hvalue hnumeral
    rw [h] at hsame
    exact_mod_cast hsame

/-- **The length that is used is the one that is said.** -/
theorem saidLength_iff {hs : List Header} {rest : Bytes} {n : Nat} :
    SaidLength hs rest n ↔ lengthUsed hs rest = n := by
  unfold SaidLength lengthUsed
  cases lengthText hs rest with
  | some text => exact says_iff
  | none =>
      show n = 0 ↔ (0 : Int) = n
      omega

theorem saidLength_exists (hs : List Header) (rest : Bytes) : ∃ n, SaidLength hs rest n := by
  refine ⟨(lengthUsed hs rest).toNat, saidLength_iff.mpr ?_⟩
  have hnonneg := lengthUsed_nonneg hs rest
  omega

instance (text : Bytes) (n : Nat) : Decidable (Says text n) := decidable_of_iff' _ says_iff

instance (hs : List Header) (rest : Bytes) (n : Nat) : Decidable (SaidLength hs rest n) :=
  decidable_of_iff' _ saidLength_iff

/-- The first name that is taken for `Content-Length` has the number `n` in its value; or
there is none, and `n` is zero. -/
def SaidInLine (hs : List Header) (n : Nat) : Prop :=
  match hs.find? Header.announces with
  | some h => (∃ b ∈ h.value, isSpace b = false) ∧ Says h.value n
  | none => n = 0

/-- A number in its line is said whatever stands behind the line. -/
theorem SaidInLine.said {hs : List Header} {n : Nat} (h : SaidInLine hs n) (rest : Bytes) :
    SaidLength hs rest n := by
  unfold SaidInLine at h
  cases hfind : hs.find? Header.announces with
  | none =>
      rw [hfind] at h
      have hnone := List.find?_eq_none.mp hfind
      rw [SaidLength, lengthText_eq_none fun header hh => by simpa using hnone header hh]
      exact h
  | some header =>
      rw [hfind] at h
      obtain ⟨more, hmore⟩ := lengthText_find? hfind rest
      rw [SaidLength, hmore]
      exact says_iff.mpr (by rw [strtoul_line h.1]; exact says_iff.mp h.2)

namespace RequestText

variable (r : RequestText)

theorem head_append (rest : Bytes) :
    r.head ++ rest = (r.requestLine ++ crlf) ++ (headerText r.headers ++ (crlf ++ rest)) := by
  rw [r.head_eq]
  simp only [List.append_assoc]

theorem wire_append (rest : Bytes) : r.wire ++ rest = r.head ++ (r.payload ++ rest) := by
  rw [RequestText.wire, List.append_assoc]

theorem requestLine_crlf_length : (r.requestLine ++ crlf).length = r.requestLine.length + 2 := by
  rw [List.length_append, crlf_length]

theorem head_length : r.head.length = r.requestLine.length + 2 + (headerText r.headers).length + 2 := by
  rw [r.head_eq, List.length_append, List.length_append, List.length_append, crlf_length]
  omega

theorem wire_length : r.wire.length = r.head.length + r.payload.length := by
  rw [RequestText.wire, List.length_append]

/-- The memory after a successful parse: strings ended, the payload and the rest untouched. -/
def inPlace (rest : Bytes) : Bytes :=
  r.method ++ 0 :: (r.uri ++ 0 :: (r.version ++ (crlf ++ (endedText r.headers ++ (crlf ++ rest)))))

/-- The zero bytes of a successful parse. -/
theorem writeZeros_head (rest : Bytes) :
    writeZeros (r.head ++ rest) (stops ⟨0, r.method.length⟩ ⟨r.method.length + 1, r.uri.length⟩
      (headerSpans (r.requestLine.length + 2) r.headers)) = r.inPlace rest := by
  let text := headerText r.headers ++ (crlf ++ rest)
  have hmethod : (r.head ++ rest).set (0 + r.method.length) 0
      = (r.method ++ 0 :: r.uri) ++ 32 :: (r.version ++ (crlf ++ text)) := by
    rw [r.head_append, requestLine, Nat.zero_add]
    simp [text]
  have huri : ((r.method ++ 0 :: r.uri) ++ 32 :: (r.version ++ (crlf ++ text))).set
        (r.method.length + 1 + r.uri.length) 0
      = (r.method ++ 0 :: (r.uri ++ 0 :: (r.version ++ crlf))) ++ text := by
    have hset := set_length_append (r.method ++ 0 :: r.uri) 32 0 (r.version ++ (crlf ++ text))
    have hlen : (r.method ++ 0 :: r.uri).length = r.method.length + 1 + r.uri.length := by
      simp only [List.length_append, List.length_cons]
      omega
    rw [hlen] at hset
    rw [hset]
    simp
  have hstart : (r.method ++ 0 :: (r.uri ++ 0 :: (r.version ++ crlf))).length = r.requestLine.length + 2 := by
    rw [r.requestLine_length]
    simp only [List.length_append, List.length_cons, crlf_length]
    omega
  have hheaders := writeZeros_headers r.headers (r.method ++ 0 :: (r.uri ++ 0 :: (r.version ++ crlf)))
    (crlf ++ rest)
  rw [hstart] at hheaders
  rw [stops, writeZeros_cons, writeZeros_cons, NonString.stop, NonString.stop, hmethod, huri, hheaders,
    inPlace]
  simp

/-- Behind the head the memory is as it was. -/
theorem inPlace_drop (rest : Bytes) : (r.inPlace rest).drop r.head.length = rest := by
  have hlen : (endedText r.headers).length = (headerText r.headers).length := by
    unfold endedText headerText unlines
    rw [List.flatMap_map, List.length_flatMap, List.length_flatMap]
    congr 1
    apply List.map_congr_left
    intro h _
    simp only [List.length_append, List.length_cons, List.length_nil, h.line_length, crlf_length]
    omega
  have hpre : (r.method ++ 0 :: (r.uri ++ 0 :: (r.version ++ (crlf ++ (endedText r.headers ++ crlf))))).length
      = r.head.length := by
    rw [r.head_length, r.requestLine_length]
    simp only [List.length_append, List.length_cons, crlf_length, hlen]
    omega
  have hmem : r.inPlace rest = (r.method ++ 0 :: (r.uri ++ 0 :: (r.version ++
      (crlf ++ (endedText r.headers ++ crlf))))) ++ rest := by
    rw [inPlace]
    simp
  rw [hmem, ← hpre, List.drop_left]

/-- The strings are read back from the memory that the parse leaves, up to their first zero
byte, whatever stands behind the head. -/
theorem inPlace_strings (rest : Bytes) :
    cstr (r.inPlace rest) = cstr r.method ∧
      cstr ((r.inPlace rest).drop (r.method.length + 1)) = cstr r.uri ∧
      ((headerSpans (r.requestLine.length + 2) r.headers).map fun h =>
        (⟨cstr ((r.inPlace rest).drop h.1.start), cstr ((r.inPlace rest).drop h.2.start)⟩ : Header))
          = r.headers.map Header.strings := by
  refine ⟨?_, ?_, ?_⟩
  · exact cstr_front r.method _
  · have hdrop : (r.inPlace rest).drop (r.method.length + 1)
        = r.uri ++ 0 :: (r.version ++ (crlf ++ (endedText r.headers ++ (crlf ++ rest)))) := by
      rw [inPlace, List.drop_length_add_append]
      rfl
    rw [hdrop]
    exact cstr_front r.uri _
  · have hback := endedText_headers r.headers
      (r.method ++ 0 :: (r.uri ++ 0 :: (r.version ++ crlf))) (crlf ++ rest)
    have hstart : (r.method ++ 0 :: (r.uri ++ 0 :: (r.version ++ crlf))).length
        = r.requestLine.length + 2 := by
      rw [r.requestLine_length]
      simp only [List.length_append, List.length_cons, crlf_length]
      omega
    have hmem : (r.method ++ 0 :: (r.uri ++ 0 :: (r.version ++ crlf)))
        ++ (endedText r.headers ++ (crlf ++ rest)) = r.inPlace rest := by
      rw [inPlace]
      simp
    rw [hstart, hmem] at hback
    exact hback

/-- Strings without zero bytes are read back whole. -/
theorem ZeroFree.strings {r : RequestText} (hz : r.ZeroFree) :
    cstr r.method = r.method ∧ cstr r.uri = r.uri ∧ r.headers.map Header.strings = r.headers := by
  refine ⟨cstr_eq_self hz.method, cstr_eq_self hz.uri, ?_⟩
  rw [List.map_congr_left (g := id), List.map_id]
  intro h hh
  obtain ⟨hkey, hvalue⟩ := hz.headers h hh
  rw [Header.strings, cstr_eq_self hkey, cstr_eq_self hvalue]
  rfl

/-- The length lookup on a whole head. -/
theorem lookupLength_head (rest : Bytes) (unset : Int) :
    lookupLength (r.head ++ rest) (headerSpans (r.requestLine.length + 2) r.headers) unset
      = (lengthText r.headers (crlf ++ rest)).elim unset fun text => toSsize (strtoul text) := by
  have hlookup := lookupLength_lines r.headers (r.requestLine ++ crlf) (crlf ++ rest) unset
  rw [r.requestLine_crlf_length, ← r.head_append] at hlookup
  exact hlookup

variable {r}

/-- The header loop on a whole head. -/
theorem scanHeaders_head (hr : r.Plain) (rest : Bytes) {n : Nat} (hn : r.head.length ≤ n)
    (hheaders : r.headers.length ≤ httpMaxHeaders + 1) :
    scanHeaders (r.head ++ rest) n (httpMaxHeaders + 2) (r.requestLine.length + 2) []
      = .returns (.complete (headerSpans (r.requestLine.length + 2) r.headers) r.head.length) := by
  have hhead := r.head_length
  have hfuel : httpMaxHeaders + 2 = (httpMaxHeaders + 1 - r.headers.length + 1) + r.headers.length := by
    omega
  have hlines := scanHeaders_lines r.headers hr.headers (r.requestLine ++ crlf)
    (crlf ++ rest) n (httpMaxHeaders + 1 - r.headers.length + 1) []
    (by rw [r.requestLine_crlf_length]; omega) (by simpa using hheaders)
  rw [r.requestLine_crlf_length, ← r.head_append, ← hfuel, List.nil_append] at hlines
  have hdone := scanHeaders_done ((r.requestLine ++ crlf) ++ headerText r.headers) rest
    (httpMaxHeaders + 1 - r.headers.length) (headerSpans (r.requestLine.length + 2) r.headers) (n := n)
    (by rw [List.length_append, r.requestLine_crlf_length]; omega)
  rw [List.length_append, r.requestLine_crlf_length, List.append_assoc, ← r.head_append] at hdone
  rw [hlines]
  exact hdone.trans (by rw [r.head_length])

/-- The request line of a request is found and split. -/
theorem parseRequest_line (hr : r.Plain) (rest : Bytes) {n : Nat} (hn : r.requestLine.length + 2 ≤ n) :
    parseRequest (r.requestLine ++ crlf ++ rest) n emptyRequest = (do
      match ← scanHeaders (r.requestLine ++ crlf ++ rest) n (httpMaxHeaders + 2)
          (r.requestLine.length + 2) [] with
      | .incomplete => return ⟨0, r.requestLine ++ crlf ++ rest, emptyRequest⟩
      | .malformed => return ⟨-1, r.requestLine ++ crlf ++ rest, emptyRequest⟩
      | .complete headers pos =>
          finishRequest (r.requestLine ++ crlf ++ rest) n emptyRequest ⟨0, r.method.length⟩
            ⟨r.method.length + 1, r.uri.length⟩ headers pos) := by
  have hfound : memstr (r.requestLine ++ crlf ++ rest) n crlf
      = .returns (some r.requestLine.length) :=
    memstr_line hr.requestLine (by omega)
  have hline := parseRequestLine_wire hr (crlf ++ rest)
  rw [← List.append_assoc] at hline
  unfold parseRequest
  rw [hfound]
  simp only [Outcome.returns_bind, hline]
  rfl

/-- The end of the parse of a whole head, with what stands behind it. -/
theorem finishRequest_head (rest : Bytes) (n : Nat) :
    finishRequest (r.head ++ rest) n emptyRequest ⟨0, r.method.length⟩ ⟨r.method.length + 1, r.uri.length⟩
        (headerSpans (r.requestLine.length + 2) r.headers) r.head.length
      = if httpMaxHeaders < r.headers.length then .faults
        else if (n : Int) < r.head.length + lengthUsed r.headers (crlf ++ rest) then
          .returns ⟨0, r.head ++ rest,
            { emptyRequest with payload := rest, payloadLength := lengthUsed r.headers (crlf ++ rest) }⟩
        else .returns ⟨r.head.length + lengthUsed r.headers (crlf ++ rest), r.inPlace rest,
          ⟨some (cstr r.method), some (cstr r.uri), r.headers.map Header.strings, rest,
            lengthUsed r.headers (crlf ++ rest)⟩⟩ := by
  obtain ⟨hmethod, huri, hstrings⟩ := r.inPlace_strings rest
  unfold finishRequest
  simp only [r.lookupLength_head, r.writeZeros_head, headerSpans_length, r.inPlace_drop, List.drop_left,
    List.drop_zero, hmethod, huri, hstrings]
  have hknown : emptyRequest.method.any (fun m => strncmp m (ascii "PUT") 3) = false := rfl
  simp only [hknown, Bool.false_eq_true, and_false, if_false]
  rfl

/-- The parse of a whole head is the end of it. -/
theorem parseRequest_head (hr : r.Plain) (rest : Bytes) {n : Nat} (hn : r.head.length ≤ n)
    (hheaders : r.headers.length ≤ httpMaxHeaders + 1) :
    parseRequest (r.head ++ rest) n emptyRequest
      = finishRequest (r.head ++ rest) n emptyRequest ⟨0, r.method.length⟩
          ⟨r.method.length + 1, r.uri.length⟩ (headerSpans (r.requestLine.length + 2) r.headers)
          r.head.length := by
  have hhead := r.head_length
  have hline := parseRequest_line hr (headerText r.headers ++ (crlf ++ rest)) (n := n) (by omega)
  rw [← r.head_append, scanHeaders_head hr rest hn hheaders] at hline
  exact hline

/-- **A request is parsed into its own fields**, if the length that is used is its payload's. -/
theorem parseRequest_text (hr : r.Plain) (hz : r.ZeroFree) (rest : Bytes) {n : Nat} (hn : r.wire.length ≤ n)
    (hheaders : r.headers.length ≤ httpMaxHeaders)
    (hlength : lengthUsed r.headers (crlf ++ (r.payload ++ rest)) = r.payload.length) :
    parseRequest (r.wire ++ rest) n emptyRequest
      = .returns ⟨r.wire.length, r.inPlace (r.payload ++ rest),
          ⟨some r.method, some r.uri, r.headers, r.payload ++ rest, r.payload.length⟩⟩ := by
  have hwire := r.wire_length
  obtain ⟨hmethod, huri, hstrings⟩ := hz.strings
  have hthere : ¬ (n : Int) < (r.head.length : Int) + r.payload.length := by omega
  have hroom : ¬ httpMaxHeaders < r.headers.length := by omega
  have htotal : (r.head.length : Int) + r.payload.length = r.wire.length := by omega
  rw [r.wire_append, parseRequest_head hr _ (by omega) (by omega), finishRequest_head, hlength,
    if_neg hroom, if_neg hthere, hmethod, huri, hstrings, htotal]

end RequestText

/-! ### A whole request -/

namespace ClientRequest

variable (r : ClientRequest)

/-- The memory after a successful parse: strings ended, the payload and the rest untouched. -/
def ended (rest : Bytes) : Bytes :=
  r.method ++ 0 :: (r.uri ++ 0 :: (r.version ++ (crlf ++ (endedText r.headers ++ (crlf ++
    (r.payload ++ rest))))))

/-- The offset of the first header line. -/
def headerStart : Nat := r.requestLine.length + 2

theorem requestLine_crlf_length : (r.requestLine ++ crlf).length = r.headerStart :=
  r.toRequestText.requestLine_crlf_length

theorem head_length : r.head.length = r.headerStart + (headerText r.headers).length + 2 :=
  r.toRequestText.head_length

/-- What the server reads of the length, with `behind` behind the payload, is the payload's length. -/
def Measured (behind : Bytes) : Prop :=
  SaidLength r.headers (crlf ++ (r.payload ++ behind)) r.payload.length

instance (behind : Bytes) : Decidable (r.Measured behind) := by
  unfold Measured; infer_instance

/-- The request line of a request is found and split. -/
theorem parseRequest_line (rest : Bytes) {n : Nat} (hn : r.headerStart ≤ n) :
    parseRequest (r.requestLine ++ crlf ++ rest) n emptyRequest = (do
      match ← scanHeaders (r.requestLine ++ crlf ++ rest) n (httpMaxHeaders + 2) r.headerStart [] with
      | .incomplete => return ⟨0, r.requestLine ++ crlf ++ rest, emptyRequest⟩
      | .malformed => return ⟨-1, r.requestLine ++ crlf ++ rest, emptyRequest⟩
      | .complete headers pos =>
          finishRequest (r.requestLine ++ crlf ++ rest) n emptyRequest ⟨0, r.method.length⟩
            ⟨r.method.length + 1, r.uri.length⟩ headers pos) :=
  RequestText.parseRequest_line r.plain rest hn

/-- **A whole request is parsed into its own fields**, if it is read as it was meant. -/
theorem parseRequest_wire {rest : Bytes} {n : Nat} (hn : r.wire.length ≤ n)
    (hheaders : r.headers.length ≤ httpMaxHeaders) (hmeasured : r.Measured rest) :
    parseRequest (r.wire ++ rest) n emptyRequest
      = .returns ⟨r.wire.length, r.ended rest, r.parsed rest⟩ :=
  RequestText.parseRequest_text r.plain r.zeroFree rest hn hheaders (saidLength_iff.mp hmeasured)

/-- Behind the request the memory is as it was. -/
theorem ended_drop (rest : Bytes) : (r.ended rest).drop r.wire.length = rest := by
  have hpayload : (r.ended rest).drop r.head.length = r.payload ++ rest := r.inPlace_drop (r.payload ++ rest)
  rw [r.wire_length, ← List.drop_drop, hpayload, List.drop_left]

end ClientRequest

/-! ### Undoing the serialisation -/

/-- A request that can be told from its serialisation.  Its payload is as long as the first
Content-Length header says, in decimal, and empty if there is none; and it is shorter than
a signed size can be. -/
structure RequestText.Serialisable (r : RequestText) : Prop where
  method : r.method ≠ [] ∧ (32 : UInt8) ∉ r.method ∧ (13 : UInt8) ∉ r.method ∧ (0 : UInt8) ∉ r.method
  uri : r.uri ≠ [] ∧ (32 : UInt8) ∉ r.uri ∧ (13 : UInt8) ∉ r.uri ∧ (0 : UInt8) ∉ r.uri
  version : (13 : UInt8) ∉ r.version
  count : r.headers.length ≤ httpMaxHeaders
  keys : ∀ h ∈ r.headers, (58 : UInt8) ∉ h.key ∧ (13 : UInt8) ∉ h.key ∧ (0 : UInt8) ∉ h.key
  values : ∀ h ∈ r.headers, (13 : UInt8) ∉ h.value ∧ (0 : UInt8) ∉ h.value
  names : ∀ h ∈ r.headers, h.key <+: ascii "Content-Length" → h.key = ascii "Content-Length"
  payload : match r.headers.find? fun h => h.key == ascii "Content-Length" with
    | some h => Reads h.value r.payload.length
    | none => r.payload = []
  size : r.payload.length < 2 ^ 63

namespace RequestText.Serialisable

variable {r : RequestText} (hr : r.Serialisable)

include hr

theorem plain : r.Plain := by
  refine ⟨⟨hr.method.2.1, hr.method.2.2.1⟩, ⟨hr.uri.2.1, hr.uri.2.2.1⟩, hr.version, ?_⟩
  intro h hh
  obtain ⟨hcolon, hkey, -⟩ := hr.keys h hh
  exact ⟨⟨hcolon, hkey⟩, (hr.values h hh).1⟩

theorem zeroFree : r.ZeroFree :=
  ⟨hr.method.2.2.2, hr.uri.2.2.2, fun h hh => ⟨(hr.keys h hh).2.2, (hr.values h hh).2⟩⟩

/-- The header that is taken for Content-Length is the first that has this name. -/
theorem find?_announces :
    r.headers.find? Header.announces = r.headers.find? fun h => h.key == ascii "Content-Length" := by
  refine List.find?_congr ?_
  intro h hh
  rw [announces_eq_isPrefixOf (hr.keys h hh).2.2, Bool.eq_iff_iff,
    List.isPrefixOf_iff_prefix, beq_iff_eq]
  refine ⟨hr.names h hh, ?_⟩
  intro hkey
  rw [hkey]

theorem lengthUsed_eq (rest : Bytes) : lengthUsed r.headers rest = r.payload.length := by
  have hpayload := hr.payload
  have hnonneg : ¬ (r.payload.length : Int) < 0 := by omega
  unfold lengthUsed
  cases hfind : r.headers.find? fun h => h.key == ascii "Content-Length" with
  | none =>
      have hnone := List.find?_eq_none.mp (hr.find?_announces.trans hfind)
      rw [hfind] at hpayload
      have hnil : r.payload = [] := hpayload
      rw [lengthText_eq_none fun h hh => by simpa using hnone h hh, hnil]
      rfl
  | some h =>
      rw [hfind] at hpayload
      obtain ⟨more, hmore⟩ := lengthText_find? (hr.find?_announces.trans hfind) rest
      simp only [hmore, Option.elim_some, (hpayload.line more).toSsize hr.size, if_neg hnonneg]

/-- It is parsed into its own fields. -/
theorem parse (trailing : Bytes) {n : Nat} (hn : r.wire.length ≤ n) :
    parseRequest (r.wire ++ trailing) n emptyRequest
      = .returns ⟨r.wire.length, r.inPlace (r.payload ++ trailing),
          ⟨some r.method, some r.uri, r.headers, r.payload ++ trailing, r.payload.length⟩⟩ :=
  RequestText.parseRequest_text hr.plain hr.zeroFree trailing hn hr.count (hr.lengthUsed_eq _)

end RequestText.Serialisable

/-- An upload to `/a`. -/
def uploadOf (length : Nat) : RequestText :=
  ⟨ascii "PUT", ascii "/a", ascii "HTTP/1.1", [⟨ascii "Content-Length", decimal length⟩],
    List.replicate length 120⟩

/-- A GET of it. -/
def lookUp : RequestText := ⟨ascii "GET", ascii "/a", ascii "HTTP/1.1", [], []⟩

theorem uploadOf_length : (uploadOf 8152).wire.length = httpMaxSize := by
  have hhead : (uploadOf 8152).head.length = 40 := by decide +kernel
  rw [RequestText.wire_length, hhead, uploadOf, List.length_replicate]
  rfl

theorem uploadOf_serialisable : (uploadOf 8152).Serialisable := by
  have hpayload : Reads (decimal 8152) (uploadOf 8152).payload.length := by
    rw [uploadOf, List.length_replicate]
    exact ⟨[], decimal 8152, [], by decide +kernel⟩
  refine ⟨by decide +kernel, by decide +kernel, by decide +kernel, by decide +kernel, by decide +kernel,
    by decide +kernel, by decide +kernel, hpayload, ?_⟩
  rw [uploadOf, List.length_replicate]
  decide

theorem lookUp_serialisable : lookUp.Serialisable := by
  refine ⟨by decide +kernel, by decide +kernel, by decide +kernel, by decide +kernel, by decide +kernel,
    by decide +kernel, by decide +kernel, rfl, by decide⟩

/-- **Parsing undoes the serialisation**, whatever bytes follow it, and leaves those alone. -/
theorem parse_undoes_wire {r : RequestText} (hr : r.Serialisable) (trailing : Bytes) {n : Nat}
    (hn : r.wire.length ≤ n) :
    ∃ buffer, parseRequest (r.wire ++ trailing) n emptyRequest = .returns ⟨r.wire.length, buffer,
        ⟨some r.method, some r.uri, r.headers, r.payload ++ trailing, r.payload.length⟩⟩ ∧
      buffer.drop r.wire.length = trailing := by
  refine ⟨r.inPlace (r.payload ++ trailing), hr.parse trailing hn, ?_⟩
  rw [r.wire_length, ← List.drop_drop, r.inPlace_drop, List.drop_left]

/-- A request with line ends and colons in its strings, as far as they may have them. -/
def colonPut : RequestText :=
  ⟨ascii "PUT", ascii "/a:b", ascii "HTTP/1.1",
    [⟨ascii "Host", ascii " x:4711"⟩, ⟨ascii "Content-Length", ascii " 004"⟩], crlf ++ crlf⟩

theorem parse_undoes_wire_colonPut :
    ∃ buffer, parseRequest (colonPut.wire ++ ascii "GET") (colonPut.wire.length + 3) emptyRequest
        = .returns ⟨colonPut.wire.length, buffer,
          ⟨some (ascii "PUT"), some (ascii "/a:b"), colonPut.headers, crlf ++ crlf ++ ascii "GET", 4⟩⟩ ∧
      buffer.drop colonPut.wire.length = ascii "GET" := by
  have hpayload : Reads (ascii " 004") 4 := ⟨ascii " ", ascii "004", [], by decide +kernel⟩
  refine parse_undoes_wire (r := colonPut) ⟨by decide +kernel, by decide +kernel, by decide +kernel,
    by decide +kernel, by decide +kernel, by decide +kernel, by decide +kernel, hpayload, by decide +kernel⟩
    (ascii "GET") (Nat.le_add_right _ _)

end ChordDht.Chord
