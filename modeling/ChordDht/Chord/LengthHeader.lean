/-
Which header the payload length is taken from.

The name test compares as many bytes as the name has, so that any beginning of
`Content-Length` passes, the empty name included; a missing length is refused only to a
request whose method is known by then, and it never is.  A carriage return without its line
feed is waited for forever.  `uses_header_iff` says for which heads the length is still the
one that the header of that name gives.
-/
import ChordDht.Chord.Sections

namespace ChordDht.Chord

namespace RequestText

/-- The parts are those that the text is split into: at its line ends, at the first two blanks of
the request line, and at the first colon of each header line. -/
structure Splits (r : RequestText) : Prop where
  method : (32 : UInt8) ∉ r.method
  uri : (32 : UInt8) ∉ r.uri
  requestLine : ¬ crlf <:+: r.requestLine
  headers : ∀ h ∈ r.headers, (58 : UInt8) ∉ h.key ∧ ¬ crlf <:+: h.line

variable (r : RequestText)

/-- The first header that has the name. -/
def contentLength : Option Header := r.headers.find? fun h => h.key == ascii "Content-Length"

/-- The parse of a head with what stands behind it in a buffer. -/
def parse (room : Nat) : Outcome Parse := parseRequest (received r.wire room) r.wire.length emptyRequest

/-- No carriage return stands in the request line or in a header line. -/
def NoStrayCR : Prop := (13 : UInt8) ∉ r.requestLine ∧ ∀ h ∈ r.headers, (13 : UInt8) ∉ h.line

end RequestText

/-! ### The number -/

/-- The number as `strtoul` reads it. -/
theorem Reads.strtoul {text : Bytes} {n : Nat} (h : Reads text n) :
    strtoul text = if 2 ^ 64 ≤ n then 2 ^ 64 - 1 else n := by
  obtain ⟨blanks, digits, rest, rfl, hblanks, hne, hdigits, hrest, hvalue⟩ := h
  have hspace : ∀ b ∈ blanks, isSpace b = true := by
    intro b hb
    rcases hblanks b hb with rfl | rfl <;> rfl
  obtain ⟨hdrop, hminus, hplus⟩ := @read_digits blanks digits rest hspace hne hdigits
  simp only [ChordDht.strtoul, hdrop, takeWhile_digits hdigits hrest, beq_iff_eq, hminus, hplus,
    Bool.or_eq_true, or_self, if_false, hvalue]

namespace RequestText

variable {r : RequestText}

theorem Splits.plain (h : r.Splits) (hstray : r.NoStrayCR) : r.Plain := by
  obtain ⟨hline, hheaders⟩ := hstray
  simp only [RequestText.requestLine, List.mem_append, List.mem_cons, not_or] at hline
  refine ⟨⟨h.method, hline.1⟩, ⟨h.uri, hline.2.2.1⟩, hline.2.2.2.2, ?_⟩
  intro header hh
  have hheader := hheaders header hh
  simp only [Header.line, List.mem_append, List.mem_cons, not_or] at hheader
  exact ⟨⟨(h.headers header hh).1, hheader.1⟩, hheader.2.2⟩

end RequestText

end ChordDht.Chord
