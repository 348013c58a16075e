/-
What more input does to a parse.

`handle_connection` parses again when more has arrived, which is sound if a parse that is
done stays done.  It is, but for one thing: the length is read with `strtoul`, which skips
line ends as it skips blanks, and so from a blank value runs on into the lines behind it
and into the payload, and there finds what had not been received before.
-/
import ChordDht.Chord.Sections

namespace ChordDht.Chord

/-- The same return value, and the same request. -/
structure Parse.Same (parse parse' : Parse) : Prop where
  ret : parse'.ret = parse.ret
  method : parse'.request.method = parse.request.method
  uri : parse'.request.uri = parse.request.uri
  headers : parse'.request.headers = parse.request.headers
  length : parse'.request.payloadLength = parse.request.payloadLength
  payload : parse'.request.payload.take parse.request.payloadLength.toNat
    = parse.request.payload.take parse.request.payloadLength.toNat

/-- With `q` behind `p` a request that was parsed is parsed again, and one that was rejected
rejected; and where there was no request, nothing was written. -/
def Stable (p q : Bytes) (room room' : Nat) : Prop :=
  ∀ parse, parseRequest (received p room) p.length emptyRequest = .returns parse →
    (0 < parse.ret → ∃ parse', parseRequest (received (p ++ q) room') (p ++ q).length emptyRequest
      = .returns parse' ∧ parse.Same parse') ∧
    (parse.ret = -1 → ∃ parse', parseRequest (received (p ++ q) room') (p ++ q).length emptyRequest
      = .returns parse' ∧ parse'.ret = -1) ∧
    (parse.ret = 0 ∨ parse.ret = -1 → parse.buffer = received p room)

/-- `p` holds a whole request, the value of the header that is taken for Content-Length is
blank, and `behind` is what stands in `p` behind the line of that header. -/
inductive LengthBehind (p behind : Bytes) : Prop
  | intro (r : RequestText) (before after : List Header) (h : Header) (payload : Bytes) (n : Nat)
      (htext : p = r.head ++ payload) (hr : r.Plain) (hcount : r.headers.length ≤ httpMaxHeaders)
      (hheaders : r.headers = before ++ h :: after) (hbefore : ∀ h' ∈ before, h'.announces = false)
      (hannounces : h.announces = true) (hblank : ∀ b ∈ h.value, isSpace b = true)
      (hbehind : behind = headerText after ++ (crlf ++ payload)) (hnumber : Says behind n)
      (hthere : n ≤ payload.length)

/-- The number that stands behind a blank value, if that is where the length is found, is the
same with `q` as without. -/
def LengthSettled (p q : Bytes) : Prop :=
  ∀ behind n, LengthBehind p behind → Says behind n → Says (behind ++ q) n

/-! ### The length -/

/-- A length that is in its line does not depend on what stands behind. -/
theorem lengthUsed_line {hs : List Header} {h : Header} (hfind : hs.find? Header.announces = some h)
    (hline : ∃ b ∈ h.value, isSpace b = false) (rest rest' : Bytes) :
    lengthUsed hs rest = lengthUsed hs rest' := by
  obtain ⟨more, hmore⟩ := lengthText_find? hfind rest
  obtain ⟨more', hmore'⟩ := lengthText_find? hfind rest'
  unfold lengthUsed
  rw [hmore, hmore', Option.elim_some, Option.elim_some, strtoul_line hline, strtoul_line hline]

/-- White space before a number does not change it. -/
theorem says_blank {blanks : Bytes} (h : ∀ b ∈ blanks, isSpace b = true) (text : Bytes) (n : Nat) :
    Says (blanks ++ text) n ↔ Says text n := by
  have hsame : strtoul (blanks ++ text) = strtoul text := by
    unfold strtoul
    rw [List.dropWhile_append_of_pos h]
  rw [says_iff, says_iff, hsame]

theorem says_unique {text : Bytes} {n n' : Nat} (h : Says text n) (h' : Says text n') : n = n' := by
  have hsame := (says_iff.mp h).symm.trans (says_iff.mp h')
  exact_mod_cast hsame

theorem lengthText_split {before after : List Header} {h : Header}
    (hbefore : ∀ h' ∈ before, h'.announces = false) (hannounces : h.announces = true) (rest : Bytes) :
    lengthText (before ++ h :: after) rest = some (h.value ++ crlf ++ (headerText after ++ rest)) := by
  induction before with
  | nil => rw [List.nil_append, lengthText, if_pos hannounces]
  | cons header before ih =>
      rw [List.cons_append, lengthText, hbefore header (List.mem_cons_self ..), if_neg Bool.false_ne_true]
      exact ih fun h' hh => hbefore h' (List.mem_cons_of_mem _ hh)

/-- **The length behind a blank value** is the number that stands there. -/
theorem lengthUsed_blank {before after : List Header} {h : Header}
    (hbefore : ∀ h' ∈ before, h'.announces = false) (hannounces : h.announces = true)
    (hblank : ∀ b ∈ h.value, isSpace b = true) (payload : Bytes) (room n : Nat) :
    lengthUsed (before ++ h :: after) (crlf ++ received payload room) = n ↔
      Says (headerText after ++ (crlf ++ payload)) n := by
  have hspace : ∀ b ∈ h.value ++ crlf, isSpace b = true := by
    intro b hb
    rcases List.mem_append.mp hb with hb | hb
    · exact hblank b hb
    · rcases List.mem_cons.mp hb with rfl | hb
      · rfl
      · rw [List.mem_singleton.mp hb]
        rfl
  have hroom : headerText after ++ (crlf ++ received payload room)
      = received (headerText after ++ (crlf ++ payload)) room := by
    simp only [received, List.append_assoc]
  rw [← saidLength_iff, SaidLength, lengthText_split hbefore hannounces, hroom]
  exact (says_blank hspace _ n).trans (says_received _ room n)

/-- The header that is taken for Content-Length, and the others around it. -/
theorem split_announces {hs : List Header} {h : Header} (hfind : hs.find? Header.announces = some h) :
    h.announces = true ∧ ∃ before after, hs = before ++ h :: after ∧ ∀ h' ∈ before, h'.announces = false := by
  obtain ⟨hannounces, before, after, hsplit, hbefore⟩ := List.find?_eq_some_iff_append.mp hfind
  exact ⟨hannounces, before, after, hsplit, fun h' hh => by simpa using hbefore h' hh⟩

/-- Where the length is settled, more input leaves it as it is. -/
theorem LengthSettled.same {p q : Bytes} (h : LengthSettled p q) {room : Nat} (room' : Nat) {r : RequestText}
    {payload : Bytes} (hwhole : Whole p room r payload) :
    lengthUsed r.headers (crlf ++ received (payload ++ q) room')
      = lengthUsed r.headers (crlf ++ received payload room) := by
  cases hfind : r.headers.find? Header.announces with
  | none => rw [lengthUsed_none hfind, lengthUsed_none hfind]
  | some header =>
      obtain ⟨hannounces, before, after, hsplit, hbefore⟩ := split_announces hfind
      by_cases hline : ∃ b ∈ header.value, isSpace b = false
      · exact lengthUsed_line hfind hline _ _
      · have hblank : ∀ b ∈ header.value, isSpace b = true := by simpa using hline
        have hiff := @lengthUsed_blank before after header hbefore hannounces hblank
        rw [← hsplit] at hiff
        obtain ⟨n, hn⟩ := Int.eq_ofNat_of_zero_le (lengthUsed_nonneg r.headers (crlf ++ received payload room))
        have hthere := hwhole.there
        have hnumber := (hiff payload room n).mp hn
        have hmore := h _ n (.intro r before after header payload n hwhole.text_eq hwhole.plain hwhole.count hsplit
          hbefore hannounces hblank rfl hnumber (by omega)) hnumber
        rw [hn]
        refine (hiff (payload ++ q) room' n).mpr ?_
        rwa [List.append_assoc, List.append_assoc] at hmore

/-! ### A whole request -/

/-- The payload, if it is all there, is the same with more behind it. -/
theorem received_take {payload : Bytes} {k : Nat} (hk : k ≤ payload.length) (more : Bytes) (room : Nat) :
    (received (payload ++ more) room).take k = payload.take k := by
  rw [received, List.append_assoc, List.take_append_of_le_length hk]

/-- **A whole request is parsed again** exactly if its length is the same. -/
theorem parse_again {p q : Bytes} {room room' : Nat} {r : RequestText} {payload : Bytes}
    (hwhole : Whole p room r payload) {parse : Parse}
    (hparse : parseRequest (received p room) p.length emptyRequest = .returns parse) :
    0 < parse.ret ∧
      ((∃ parse', parseRequest (received (p ++ q) room') (p ++ q).length emptyRequest = .returns parse' ∧
          parse.Same parse') ↔
        lengthUsed r.headers (crlf ++ received (payload ++ q) room')
          = lengthUsed r.headers (crlf ++ received payload room)) := by
  have hhead := r.head_length
  have hnonneg := lengthUsed_nonneg r.headers (crlf ++ received payload room)
  have hcount := hwhole.count
  have hthere := hwhole.there
  have hparse' := parseRequest_done hwhole.plain (payload ++ q) room' (by omega)
  rw [← List.append_assoc, ← hwhole.text_eq, if_neg (Nat.not_lt.mpr hcount)] at hparse'
  rw [hwhole.parse, Outcome.returns.injEq] at hparse
  subst hparse
  refine ⟨by simp only; omega, ?_⟩
  constructor
  · rintro ⟨parse', hagain, hsame⟩
    rw [hparse'] at hagain
    by_cases hmore : ((payload ++ q).length : Int)
        < lengthUsed r.headers (crlf ++ received (payload ++ q) room')
    · rw [if_pos hmore, Outcome.returns.injEq] at hagain
      have hret := hsame.ret
      rw [← hagain] at hret
      simp only at hret
      omega
    · rw [if_neg hmore, Outcome.returns.injEq] at hagain
      have hlength := hsame.length
      rw [← hagain] at hlength
      exact hlength
  · intro hsame
    have hmore : ¬ ((payload ++ q).length : Int)
        < lengthUsed r.headers (crlf ++ received (payload ++ q) room') := by
      rw [hsame, List.length_append]
      omega
    rw [if_neg hmore, hsame] at hparse'
    refine ⟨_, hparse', rfl, rfl, rfl, rfl, rfl, ?_⟩
    have hk : (lengthUsed r.headers (crlf ++ received payload room)).toNat ≤ payload.length := by omega
    have hfirst := received_take hk [] room
    rw [List.append_nil] at hfirst
    exact (received_take hk q room').trans hfirst.symm

/-- **When parses are stable**: if the length does not stand behind a blank value, or is the same
there with more behind it. -/
theorem stable_iff (p q : Bytes) (room room' : Nat) : Stable p q room room' ↔ LengthSettled p q := by
  constructor
  · rintro h behind n ⟨r, before, after, header, payload, n', htext, hr, hcount, hheaders, hbefore, hannounces,
      hblank, rfl, hnumber', hthere⟩ hnumber
    have hn := says_unique hnumber hnumber'
    subst hn
    have hiff := @lengthUsed_blank before after header hbefore hannounces hblank
    rw [← hheaders] at hiff
    have hlength := (hiff payload room n).mpr hnumber
    have hwhole : Whole p room r payload := ⟨htext, hr, hcount, by rw [hlength]; exact_mod_cast hthere⟩
    obtain ⟨hret, hagain⟩ := parse_again (q := q) hwhole hwhole.parse
    have hsame := hagain.mp ((h _ hwhole.parse).1 hret)
    rw [hlength] at hsame
    have hmore := (hiff (payload ++ q) room' n).mp hsame
    rwa [List.append_assoc, List.append_assoc]
  · intro h parse hparse
    rcases parseRequest_cases hparse with ⟨hret, hbuffer⟩ | ⟨hret, hbuffer, hrejected⟩ | ⟨r, payload, hwhole⟩
    · exact ⟨fun hpos => by omega, fun hneg => by omega, fun _ => hbuffer⟩
    · exact ⟨fun hpos => by omega, fun _ => (hrejected.append q).parse room', fun _ => hbuffer⟩
    · obtain ⟨hret, hagain⟩ := parse_again (q := q) hwhole hparse
      exact ⟨fun _ => hagain.mpr (h.same room' hwhole), fun hneg => by omega, fun hnone => by omega⟩

/-- A request whose length stands behind the head. -/
def blankLength : Bytes := ascii "PUT /x HTTP/1.1" ++ crlf ++ ascii "Content-Length:" ++ crlf ++ crlf

/-- It is parsed without a payload, and with five more bytes as a request that has them. -/
theorem length_found_behind :
    (do let parse ← parseRequest (received blankLength 9) blankLength.length emptyRequest
        return parse.ret) = .returns 36 ∧
    (do let parse ← parseRequest (received (blankLength ++ ascii "5abcd") 4)
            (blankLength ++ ascii "5abcd").length emptyRequest
        return parse.ret) = .returns 41 ∧
    ¬ Stable blankLength (ascii "5abcd") 9 4 := by
  have hfirst : (do
      let parse ← parseRequest (received blankLength 9) blankLength.length emptyRequest
      return parse.ret) = .returns 36 := by decide +kernel
  have hsecond : (do
      let parse ← parseRequest (received (blankLength ++ ascii "5abcd") 4)
        (blankLength ++ ascii "5abcd").length emptyRequest
      return parse.ret) = .returns 41 := by decide +kernel
  refine ⟨hfirst, hsecond, ?_⟩
  intro h
  obtain ⟨parse, hparse, hret⟩ := Outcome.bind_eq_returns.mp hfirst
  rw [Outcome.pure_eq, Outcome.returns.injEq] at hret
  obtain ⟨parse', hparse', hsame⟩ := (h parse hparse).1 (by omega)
  rw [hparse', Outcome.returns_bind, Outcome.pure_eq, hsame.ret, Outcome.returns.injEq] at hsecond
  omega

end ChordDht.Chord
