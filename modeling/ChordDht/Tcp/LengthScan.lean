/-
Where the length of a message is read.

`check_first_line` takes the head of a message apart line by line.  The length is read
before that, at the first place where `Content-Length:` stands in the first 4095 bytes of
the head: that may be in the request line, in another name or in a value, and what stands
behind it may be cut.  `framed_by_length_iff` says when the server nevertheless takes the
body for as long as the header of that name says.
-/
import ChordDht.Tcp.Requests
import ChordDht.Tcp.Segments

namespace ChordDht.Tcp

/-- What is looked for. -/
def lengthName : Bytes := ascii "Content-Length:"

/-- What is skipped behind it. -/
def isBlank (b : UInt8) : Bool := b == 32 || b == 9

namespace Field

variable (f : Field)

def isLength : Bool := f.name == ascii "Content-Length"

def blanks : Bytes := f.value.takeWhile isBlank

def digits : Bytes := (f.value.dropWhile isBlank).takeWhile isDigit

def trailing : Bytes := (f.value.dropWhile isBlank).dropWhile isDigit

/-- The value is a decimal number, with blanks around it. -/
structure Counts : Prop where
  digits : f.digits ≠ []
  trailing : ∀ b ∈ f.trailing, isBlank b = true

end Field

namespace RequestText

variable (r : RequestText)

/-- The first header of that name. -/
def lengthField : Option Field := r.fields.find? Field.isLength

/-- How long the body is, by the header of that name. -/
def announced : Nat := r.lengthField.elim 0 fun f => digitsValue f.digits

/-- `header_block`. -/
def scanned : Bytes := r.head.take 4095

/-- Where the line of the first header of that name begins. -/
def lengthLineAt : Nat :=
  (unlines (r.requestLine :: (r.fields.takeWhile fun f => !f.isLength).map Field.line)).length

/-- Where its number ends. -/
def numberEnd : Nat :=
  r.lengthField.elim 0 fun f =>
    r.lengthLineAt + lengthName.length + 1 + f.blanks.length + f.digits.length

/-- The name stands first where the header of that name has it, and its number is not cut or
is zero; or it stands nowhere and there is no body; or it stands first in another place,
and behind it the same number. -/
def ScanDecides : Prop :=
  match search lengthName r.scanned with
  | none => r.announced = 0
  | some i =>
      if r.lengthField.isSome ∧ i = r.lengthLineAt then r.announced = 0 ∨ r.numberEnd ≤ 4095
      else (atoi ((r.scanned.drop (i + lengthName.length)).dropWhile isBlank)).toNat = r.announced

end RequestText

/-! ### The number behind the name -/

theorem not_isDigit_of_isBlank {b : UInt8} (h : isBlank b = true) : isDigit b = false := by
  rcases (by simpa [isBlank] using h : b = 32 ∨ b = 9) with rfl | rfl
  · rfl
  · rfl

theorem not_isBlank_of_isDigit {b : UInt8} (h : isDigit b = true) : isBlank b = false := by
  by_contra hc
  rw [not_isDigit_of_isBlank (by simpa using hc)] at h
  cases h

/-- In front of a digit there is no blank to skip. -/
theorem dropWhile_digits {ds : Bytes} (hne : ds ≠ []) (hds : ∀ b ∈ ds, isDigit b = true) (rest : Bytes) :
    (ds ++ rest).dropWhile isBlank = ds ++ rest := by
  obtain ⟨d, ds, rfl⟩ := List.exists_cons_of_ne_nil hne
  have hdigit : isBlank d = false := not_isBlank_of_isDigit (hds d (List.mem_cons_self ..))
  rw [List.cons_append, List.dropWhile_cons, hdigit]
  rfl

namespace Field

variable {f : Field}

theorem value_eq (f : Field) : f.value = f.blanks ++ f.digits ++ f.trailing := by
  rw [blanks, digits, trailing, List.append_assoc, List.takeWhile_append_dropWhile,
    List.takeWhile_append_dropWhile]

theorem isBlank_of_mem_blanks {b : UInt8} (hb : b ∈ f.blanks) : isBlank b = true := List.mem_takeWhile_imp hb

theorem isDigit_of_mem_digits {b : UInt8} (hb : b ∈ f.digits) : isDigit b = true := List.mem_takeWhile_imp hb

/-- The value as it stands in its line, behind the blank that follows the name. -/
theorem value_text (f : Field) (rest : Bytes) : (32 :: (f.value ++ (crlf ++ rest)) : Bytes)
    = (32 :: f.blanks) ++ (f.digits ++ (f.trailing ++ (crlf ++ rest))) := by
  conv_lhs => rw [f.value_eq]
  simp only [List.append_assoc, List.cons_append]

/-- No digit follows the number. -/
theorem Counts.trailing_headD (hf : f.Counts) (rest : Bytes) :
    isDigit ((f.trailing ++ (crlf ++ rest)).headD 0) = false := by
  cases htrailing : f.trailing with
  | nil => rfl
  | cons b bs =>
      have hb : isBlank b = true := hf.trailing b (by rw [htrailing]; exact List.mem_cons_self ..)
      exact not_isDigit_of_isBlank hb

/-- **The number that is read** from a value of which `m` bytes and the blank before it are seen. -/
theorem Counts.read (hf : f.Counts) (rest : Bytes) (m : Nat) (hlt : digitsValue f.digits < 2 ^ 31) :
    (atoi (((32 :: (f.value ++ (crlf ++ rest))).take m).dropWhile isBlank)).toNat
      = digitsValue (f.digits.take (m - (1 + f.blanks.length))) := by
  have hblanks : ∀ b ∈ (32 :: f.blanks : Bytes), isBlank b = true := by
    intro b hb
    rcases List.mem_cons.mp hb with rfl | hb
    · rfl
    · exact isBlank_of_mem_blanks hb
  have hlength : (32 :: f.blanks : Bytes).length = 1 + f.blanks.length := by
    rw [List.length_cons]
    omega
  rw [value_text, List.take_append, hlength]
  generalize m - (1 + f.blanks.length) = k
  rw [List.dropWhile_append_of_pos fun b hb => hblanks b (List.mem_of_mem_take hb)]
  by_cases hk : k = 0
  · -- nothing is seen of the number
    rw [hk, List.take_zero, List.take_zero]
    rfl
  · have hne : f.digits.take k ≠ [] := by
      rw [Ne, List.take_eq_nil_iff, not_or]
      exact ⟨hk, hf.digits⟩
    have hall : ∀ b ∈ f.digits.take k, isDigit b = true := fun b hb =>
      isDigit_of_mem_digits (List.mem_of_mem_take hb)
    have hend := isDigit_headD_take (hf.trailing_headD rest) (k - f.digits.length)
    have hle := digitsValue_take_le f.digits k
    rw [List.take_append, dropWhile_digits hne hall, atoi_digits hne hall hend (by omega), Int.toNat_natCast]

end Field

namespace RequestText

variable {r : RequestText}

theorem Valid.head_zero (h : r.Valid) : (0 : UInt8) ∉ r.head := by
  have hlines : (0 : UInt8) ∉ unlines (r.requestLine :: r.fields.map Field.line) := by
    refine notMem_unlines (by decide) ?_
    intro l hl
    rcases List.mem_cons.mp hl with rfl | hl
    · exact h.requestLine_zero
    · obtain ⟨f, hf, rfl⟩ := List.mem_map.mp hl
      exact (h.fields f hf).line_zero
  rw [head, List.mem_append, not_or]
  exact ⟨hlines, by decide⟩

/-- What the scan reads from the head of a request. -/
theorem contentLength_head (h : r.Valid) : contentLength r.head =
    match search lengthName r.scanned with
    | none => 0
    | some i => (atoi ((r.scanned.drop (i + lengthName.length)).dropWhile isBlank)).toNat := by
  have hzero : (0 : UInt8) ∉ r.scanned := fun hc => h.head_zero (List.mem_of_mem_take hc)
  have hblock : cstr (r.head.take 4095) = r.scanned := cstr_eq_self hzero
  rw [contentLength, hblock]
  rfl

/-- The head from the line of the first header of that name on. -/
theorem head_lengthLine {f : Field} (hfind : r.lengthField = some f) :
    ∃ rest, r.head.drop (r.lengthLineAt + lengthName.length) = 32 :: (f.value ++ (crlf ++ rest)) := by
  obtain ⟨hname, before, after, hfields, hbefore⟩ := List.find?_eq_some_iff_append.mp hfind
  have hwhile : (r.fields.takeWhile fun f => !f.isLength) = before := by
    rw [hfields, List.takeWhile_append_of_pos hbefore, List.takeWhile_cons, hname]
    simp
  have hline : f.line = lengthName ++ 32 :: f.value := by
    rw [Field.line, eq_of_beq hname]
    rfl
  have hhead : r.head = unlines (r.requestLine :: before.map Field.line)
      ++ (lengthName ++ 32 :: (f.value ++ (crlf ++ (unlines (after.map Field.line) ++ crlf)))) := by
    rw [head, hfields, List.map_append, List.map_cons, ← List.cons_append, unlines_append, unlines_cons f.line,
      hline]
    simp only [List.append_assoc, List.cons_append]
  refine ⟨unlines (after.map Field.line) ++ crlf, ?_⟩
  rw [lengthLineAt, hwhile, hhead, ← List.drop_drop, List.drop_left, List.drop_left]

/-- The number is read off the header's own line as far as it is seen. -/
theorem read_own {f : Field} (hfind : r.lengthField = some f) (hf : f.Counts)
    (hlt : digitsValue f.digits < 2 ^ 31) :
    (atoi ((r.scanned.drop (r.lengthLineAt + lengthName.length)).dropWhile isBlank)).toNat
        = digitsValue f.digits ↔ digitsValue f.digits = 0 ∨ r.numberEnd ≤ 4095 := by
  obtain ⟨rest, hrest⟩ := head_lengthLine hfind
  have hpos : 0 < f.digits.length := List.length_pos_iff.mpr hf.digits
  rw [scanned, List.drop_take, hrest, hf.read rest _ hlt, digitsValue_take_iff, numberEnd, hfind,
    Option.elim_some]
  omega

/-- **The scan reads what the header says exactly if it decides.** -/
theorem contentLength_eq_iff (h : r.Valid) (hcounts : ∀ f ∈ r.lengthField, f.Counts)
    (hlt : r.announced < 2 ^ 31) : contentLength r.head = r.announced ↔ r.ScanDecides := by
  rw [contentLength_head h, ScanDecides]
  cases hsearch : search lengthName r.scanned with
  | none => exact eq_comm
  | some i =>
      simp only
      split
      case isTrue hown =>
        obtain ⟨hsome, rfl⟩ := hown
        obtain ⟨f, hfind⟩ := Option.isSome_iff_exists.mp hsome
        have hannounced : r.announced = digitsValue f.digits := by
          rw [announced, hfind, Option.elim_some]
        rw [hannounced] at hlt ⊢
        exact read_own hfind (hcounts f hfind) hlt
      case isFalse => exact Iff.rfl

theorem totalLen_head (h : r.Valid) (rest : Bytes) : totalLen (r.head ++ rest) =
    if 2 ^ 31 ≤ r.head.length + contentLength r.head then .faults
    else .returns (some (r.head.length + contentLength r.head)) := by
  obtain ⟨headerEnd, hfind, hlen⟩ := findCrlfcrlf_head h rest
  have htake : (r.head ++ rest).take (headerEnd + 4) = r.head := List.take_left' hlen.symm
  rw [totalLen_found hfind]
  simp only
  rw [htake, hlen]

/-- **The server takes the body of a request for as long as its Content-Length header says**, and
for empty if it has none, exactly if head and body together are shorter than 2^31 bytes and
the scan decides. -/
theorem framed_by_length_iff (h : r.Valid) (hcounts : ∀ f ∈ r.lengthField, f.Counts) :
    (∀ rest, totalLen (r.head ++ rest) = .returns (some (r.head.length + r.announced))) ↔
      r.head.length + r.announced < 2 ^ 31 ∧ r.ScanDecides := by
  constructor
  · intro hframed
    have htotal := hframed []
    rw [totalLen_head h] at htotal
    split at htotal
    · cases htotal
    · rw [Outcome.returns.injEq, Option.some.injEq] at htotal
      have hlt : r.head.length + r.announced < 2 ^ 31 := by omega
      exact ⟨hlt, (contentLength_eq_iff h hcounts (by omega)).mp (by omega)⟩
  · rintro ⟨hlt, hscan⟩ rest
    have hlength := (contentLength_eq_iff h hcounts (by omega)).mpr hscan
    rw [totalLen_head h, hlength, if_neg (by omega)]

end RequestText

/-! ### A name in the URI -/

/-- GET of a URI that holds the text the server looks for. -/
def tellingUri : RequestText := ⟨ascii "GET", ascii "/Content-Length:5", []⟩

theorem tellingUri_valid : tellingUri.Valid := by
  have hmethod : Word (ascii "GET") := by decide +kernel
  have huri : Word (ascii "/Content-Length:5") := by decide +kernel
  exact ⟨⟨hmethod, by decide⟩, ⟨huri, by decide +kernel⟩, by decide +kernel,
    fun _ hf => absurd hf List.not_mem_nil⟩

/-- The next five bytes are taken for its body, though it has no header at all. -/
theorem uri_taken_for_length : tellingUri.Valid ∧ tellingUri.head.length ≤ buffSize ∧
    tellingUri.lengthField = none ∧
    totalLen tellingUri.head = .returns (some (tellingUri.head.length + 5)) ∧
    ¬ ∀ rest, totalLen (tellingUri.head ++ rest)
      = .returns (some (tellingUri.head.length + tellingUri.announced)) := by
  have hfive : totalLen tellingUri.head = .returns (some (tellingUri.head.length + 5)) := by decide +kernel
  refine ⟨tellingUri_valid, by decide +kernel, rfl, hfive, ?_⟩
  intro hframed
  have hzero := hframed []
  rw [List.append_nil, hfive] at hzero
  exact absurd hzero (by decide +kernel)

/-- A PUT with a body of three bytes. -/
def lengthPut : RequestText :=
  ⟨ascii "PUT", ascii "/dynamic/a", [⟨ascii "Host", ascii "x"⟩, ⟨ascii "Content-Length", ascii "3"⟩]⟩

theorem framed_by_length_iff_put :
    (∀ rest, totalLen (lengthPut.head ++ rest)
        = .returns (some (lengthPut.head.length + lengthPut.announced))) ↔
      lengthPut.head.length + lengthPut.announced < 2 ^ 31 ∧ lengthPut.ScanDecides := by
  have hmethod : Word (ascii "PUT") := by decide +kernel
  have huri : Word (ascii "/dynamic/a") := by decide +kernel
  have hhost : Field.Valid ⟨ascii "Host", ascii "x"⟩ := ⟨by decide, by decide, by decide⟩
  have hlength : Field.Valid ⟨ascii "Content-Length", ascii "3"⟩ := ⟨by decide, by decide, by decide +kernel⟩
  refine RequestText.framed_by_length_iff ⟨⟨hmethod, by decide⟩, ⟨huri, by decide⟩, by decide +kernel, ?_⟩ ?_
  · intro f hf
    rcases List.mem_cons.mp hf with rfl | hf
    · exact hhost
    · rw [List.mem_singleton.mp hf]
      exact hlength
  · have hfield : lengthPut.lengthField = some ⟨ascii "Content-Length", ascii "3"⟩ := by decide +kernel
    intro f hf
    rw [hfield] at hf
    rw [← Option.some.inj hf]
    exact ⟨by decide +kernel, by decide +kernel⟩

end ChordDht.Tcp
